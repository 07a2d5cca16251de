/-
# SGLang.MemCache.KVAllocation — pages go from the pool through the hand into the rows.

`alloc_for_extend` and `alloc_for_decode` first evict, then take pages for the whole batch, then write
them request by request. Between the two last steps the pages are in hand: `Inv` counts them there, and
each request of the loop moves its own part into its row.
-/
import SGLang.MemCache.KVHandOver

namespace SGLang.MemCache

open SGLang.Lib SGLang.Lib.PageTree RadixKey List Allocator
open ExtendReq (numNewPages)
open Multiset (coe_add)
open Option (getD_some)

namespace KVState

variable {cfg : Config} {numPages rid n seqLen : ℕ} {hand : Multiset ℕ}
  {pending F out rids slots pending' : List ℕ}
  {σ σ' : KVState} {rs : List ExtendReq} {ties : ℕ → ℕ} {batch : List (ℕ × ℕ)}

/-! ## Taking pages -/

/-- What an allocation for the requests `rs` leaves: the pages taken are in hand. -/
def Granted (cfg : Config) (numPages : ℕ) (pending : List ℕ) (rs : List ExtendReq)
    (σ σ' : KVState) (out : List ℕ) : Prop :=
  ∃ F c a, σ' = { σ with cache := c, allocator := a } ∧
    (rs.map (numNewPages cfg.pageSize)).sum ≤ F.length ∧
    out = allocExtendKernel cfg.pageSize rs F ∧
    Inv cfg numPages (F.take (rs.map (numNewPages cfg.pageSize)).sum : List ℕ) pending σ'

section

variable (h : Inv cfg numPages 0 pending σ)
include h

/-- The allocator hands out pages. -/
theorem Inv.takes {a : Allocator} (ht : Takes σ.allocator a n F) :
    Inv cfg numPages (F.take n : List ℕ) pending { σ with allocator := a } := by
  refine { h with settled := h.settled.same ht.same, conserved := ?_ }
  rw [← h.conserved, ht.pages_eq]
  abel

/-- An allocation after an eviction. -/
theorem granted_of_alloc {message : String} {f : Allocator → Allocator × Option (List ℕ)}
    (hf : ∀ a a' out, a.pageSize = cfg.pageSize → f a = (a', some out) → ∃ F, out =
      allocExtendKernel cfg.pageSize rs F ∧
      Takes a a' (rs.map (numNewPages cfg.pageSize)).sum F) (hrun : (do
      let σ ← σ.evictFromTreeCache cfg ties n
      σ.orOutOfMemory message (f σ.allocator)) = .ok (σ', out)) : Granted cfg numPages pending rs σ σ' out := by
  obtain ⟨σ₁, hev, hrun⟩ := exists_of_bind_eq_ok hrun
  obtain ⟨h₁, c, a, rfl⟩ := evictFromTreeCache_inv h hev
  cases hal : f a with
  | mk a' o =>
    simp only [hal] at hrun
    cases o with
    | none => cases hrun
    | some out' =>
      cases hrun
      obtain ⟨F, hout, ht⟩ := hf a a' out h₁.settled.pageSize_eq hal
      exact ⟨F, c, a', rfl, ht.le, hout, h₁.takes ht⟩

omit h in
theorem sum_numNewPages_one (rs : List ExtendReq) :
    (rs.map (numNewPages 1)).sum = (rs.map fun r => r.seqLen - r.prefixLen).sum := by
  congr 1
  refine map_congr_left fun r _ => ?_
  simp [numNewPages, pageCount]

/-- Token by token: pages of one slot. -/
theorem allocTokenSlots_granted (hone : cfg.pageSize = 1)
    (hle : ∀ r ∈ rs, r.prefixLen ≤ r.seqLen) (hn : n = (rs.map fun r => r.seqLen - r.prefixLen).sum)
    (hrun : σ.allocTokenSlots cfg ties n = .ok (σ', out)) :
    Granted cfg numPages pending rs σ σ' out := by
  refine granted_of_alloc (f := (·.alloc n)) h (fun a a' out _ hal => ?_) hrun
  obtain ⟨F, ht, rfl⟩ := alloc_spec hal
  rw [hn, ← sum_numNewPages_one] at ht ⊢
  rw [hone]
  exact ⟨F, (allocExtendKernel_one hle ht.le).symm, ht⟩

theorem allocSlotsExtend_granted (hle : ∀ r ∈ rs, r.prefixLen ≤ r.seqLen)
    (hrun : σ.allocSlotsExtend cfg ties rs (rs.map fun r => r.seqLen - r.prefixLen).sum =
      .ok (σ', out)) : Granted cfg numPages pending rs σ σ' out := by
  unfold allocSlotsExtend at hrun
  split at hrun
  · next hone => exact allocTokenSlots_granted h hone hle rfl hrun
  · refine granted_of_alloc (f := (·.allocExtend rs _)) h (fun a a' out hsize hal => ?_) hrun
    obtain ⟨F, ht, hout⟩ := allocExtend_spec hal
    rw [hsize] at ht hout
    exact ⟨F, hout, ht⟩

theorem allocSlotsDecode_granted (hrun : σ.allocSlotsDecode cfg ties rids = .ok (σ', out)) :
    Granted cfg numPages pending ((rids.map σ.decodeSlot).map decodeReq) σ σ' out := by
  have hpos : ∀ r ∈ rids.map σ.decodeSlot, 0 < r.1 := by
    intro r hr
    obtain ⟨rid, -, rfl⟩ := mem_map.mp hr
    exact Nat.succ_pos _
  unfold allocSlotsDecode at hrun
  split at hrun
  · next hone =>
    refine allocTokenSlots_granted h hone ?_ ?_ hrun
    · intro r hr
      obtain ⟨q, -, rfl⟩ := mem_map.mp hr
      exact Nat.sub_le _ _
    · rw [map_map, map_map, show ((fun r : ExtendReq => r.seqLen - r.prefixLen) ∘ decodeReq) ∘
        σ.decodeSlot = fun _ => 1 from funext fun rid => by simp [decodeReq, decodeSlot]]
      simp
  · next hone =>
    have hps := h.ps_pos
    refine granted_of_alloc (f := (·.allocDecode (rids.map σ.decodeSlot))) h (fun a a' out hsize hal => ?_) hrun
    obtain ⟨F, ht, hout⟩ := allocDecode_spec (by omega) hpos hal
    rw [hsize] at ht hout
    exact ⟨F, hout, ht⟩

end

/-- A request that `write_cache_indices` can extend: it has a row, and the prefix it comes with is all
it holds. -/
def Ready (σ : KVState) (b : ℕ × ℕ) : Prop :=
  b.1 ∈ σ.live ∧ (σ.reqs b.1).prefixIndices.length < b.2 ∧ b.2 ≤ (σ.reqs b.1).tokens.length ∧
    (σ.reqs b.1).reqPoolIdx ≠ none ∧ ((σ.reqs b.1).kvAllocatedLen = 0 ∨
      (σ.reqs b.1).prefixIndices.length = (σ.reqs b.1).kvAllocatedLen)

/-- The prefix of a ready request is laid out on pages; what it owns are those behind the protected
ones. -/
theorem Inv.laid_front (h : Inv cfg numPages hand pending σ) (hready : σ.Ready (rid, seqLen)) :
    ∃ P, Laid cfg.pageSize (σ.reqs rid).prefixIndices P ∧ (σ.reqs rid).ownedPages cfg.pageSize σ.reqToToken =
        P.drop ((σ.reqs rid).cacheProtectedLen / cfg.pageSize) := by
  have hps := h.ps_pos
  obtain ⟨hrid, -, -, -, hwhole⟩ := hready
  have hreq := h.req rid hrid
  rcases hreq.state with ⟨hz, hlen⟩ | ⟨idx, hidx, hh⟩
  · -- nothing of its own: the prefix is what the locked path holds
    obtain ⟨l, hl, -, hv⟩ := hreq.spells
    obtain ⟨P, hP⟩ := h.pages.along hl
    rw [hv, take_of_length_le hlen.le] at hP
    refine ⟨P, hP ▸ laid_expand hps, ?_⟩
    have hPlen : P.length = (σ.reqs rid).cacheProtectedLen / cfg.pageSize := by
      rw [← hlen, hP, length_expand, Nat.mul_div_cancel _ hps]
    rw [ownedPages_of_zero hz, drop_of_length_le hPlen.le, Multiset.coe_nil]
  · obtain ⟨P, hP⟩ := hh.laid
    have hpos : (σ.reqs rid).kvAllocatedLen ≠ 0 :=
      (hh.fill_pos.trans_le (hh.fill_le.trans hh.committed_le)).ne'
    have hall : (σ.reqs rid).prefixIndices.length = (σ.reqs rid).kvAllocatedLen :=
      hwhole.resolve_left hpos
    refine ⟨P, ?_, ownedPages_eq hps hidx hreq.prot_dvd hP⟩
    rw [hh.prefix_eq, hall]
    exact hP

theorem lastLoc_eq {v : ℕ} (h : slots.getLast? = some v) : lastLoc slots = v := by
  simp [lastLoc, h]

/-- **The row of a request grows**: new pages go from the hand behind those that `front` occupies. -/
theorem Inv.growRow {idx committed : ℕ} {front fill P new : List ℕ} {table : ℕ → ℕ → ℕ} {r' : Req}
    (h : Inv cfg numPages ((new : Multiset ℕ) + hand) pending' σ) (hrid : rid ∈ σ.live)
    (hidx : (σ.reqs rid).reqPoolIdx = some idx) (hpend : ∀ x, x ≠ rid → x ∈ pending' → x ∈ pending)
    (hP : Laid cfg.pageSize front P) (hprot : (σ.reqs rid).cacheProtectedLen ≤ front.length)
    (howned : (σ.reqs rid).ownedPages cfg.pageSize σ.reqToToken =
      P.drop ((σ.reqs rid).cacheProtectedLen / cfg.pageSize))
    (hr' : r' = { σ.reqs rid with fillIds := fill, kvCommittedLen := committed, kvAllocatedLen := n })
    (htable : ∀ i, i ≠ idx → ∀ j, table i j = σ.reqToToken i j)
    (hlaid : Laid cfg.pageSize (readRow table idx n) (P ++ new)) (hheld : Held cfg table r' idx) :
    Inv cfg numPages hand pending { σ.setReq rid r' with reqToToken := table } := by
  subst hr'
  have hps := h.ps_pos
  have hreq := h.req rid hrid
  obtain ⟨locks, hacc, hlocks⟩ := h.locks
  have hprotP : (σ.reqs rid).cacheProtectedLen / cfg.pageSize ≤ P.length := by
    rw [hP.count, ← pageCount_of_dvd hps hreq.prot_dvd]
    exact pageCount_mono hprot
  refine h.change ⟨fun x _ hx => setReq_ne hx, fun x hx hne i hi =>
      htable i (h.row_ne hrid hidx hx hne hi), fun _ _ _ _ _ hs => hs⟩
    h.settled hacc h.pages hrid rfl setReq_self ?_
    ⟨hreq.prot_dvd, hreq.prot_le, hreq.spells, hreq.not_freed, .inr ⟨idx, hidx, hheld⟩⟩ rfl rfl hpend
    (fun _ _ => (hheld.fill_pos.trans_le (hheld.fill_le.trans hheld.committed_le)).ne') ?_
  · rw [hlocks, map_lastNode_live hrid]
  · have hnew := ownedPages_eq (r := { σ.reqs rid with
      fillIds := fill, kvCommittedLen := committed, kvAllocatedLen := n })
      hps hidx hreq.prot_dvd hlaid
    rw [hnew, howned, drop_append_of_le_length hprotP, ← coe_add]
    show σ.allocator.pages + σ.cache.tree.slotPages _ _ + _ + hand = _
    abel

/-- **One request of `write_cache_indices`**: its pages go from the hand into its row. -/
theorem extendRow_inv (hready : σ.Ready (rid, seqLen))
    (hF : (σ.extendReq (rid, seqLen)).numNewPages cfg.pageSize ≤ F.length) (h : Inv cfg numPages
      ((F.take ((σ.extendReq (rid, seqLen)).numNewPages cfg.pageSize) : List ℕ) + hand) (rid :: pending) σ) :
    Inv cfg numPages hand pending (σ.extendRow rid seqLen
      (extendProgram cfg.pageSize (σ.extendReq (rid, seqLen)) F)) := by
  have hps := h.ps_pos
  obtain ⟨P, hP, howned⟩ := h.laid_front hready
  obtain ⟨hrid, hlt, hle, hrow, -⟩ := hready
  have hreq := h.req rid hrid
  obtain ⟨idx, hidx⟩ := Option.ne_none_iff_exists'.mp hrow
  have hlaid := laid_extendProgram (r := σ.extendReq (rid, seqLen)) hps hP rfl hlt.le
    (fun v hv => lastLoc_eq hv) hF
  have hseg : (extendProgram cfg.pageSize (σ.extendReq (rid, seqLen)) F).length = _ :=
    length_extendProgram (r := σ.extendReq (rid, seqLen)) hps hlt.le
  generalize extendProgram cfg.pageSize (σ.extendReq (rid, seqLen)) F = seg at hlaid hseg ⊢
  -- the row now holds the prefix and the new slots
  have hrowlen : ((σ.reqs rid).prefixIndices ++ seg).length = seqLen := by
    rw [length_append, hseg]
    exact Nat.add_sub_cancel' hlt.le
  have hread : ∀ n, n ≤ seqLen → readRow (writeRow (writeRow σ.reqToToken idx 0 (σ.reqs rid).prefixIndices) idx
      (σ.reqs rid).prefixIndices.length seg) idx n = ((σ.reqs rid).prefixIndices ++ seg).take n := by
    intro n hn
    rw [length_append] at hrowlen
    rw [← take_readRow hn, readRow_writeRow hrowlen.le, hrowlen,
      drop_of_length_le (show _ ≤ _ by rw [length_readRow]), append_nil,
      readRow_writeRow (by omega), Nat.zero_add, drop_of_length_le (by rw [length_readRow]),
      append_nil]
    rfl
  have hfull := hread seqLen le_rfl
  rw [take_of_length_le hrowlen.le] at hfull
  rw [← hfull] at hlaid
  have hfill : ((σ.reqs rid).tokens.take seqLen).length = seqLen := by rw [length_take, min_eq_left hle]
  simp only [extendRow, hidx, getD_some]
  refine h.growRow hrid hidx (fun x hx hmem => (mem_cons.mp hmem).resolve_left hx) hP hreq.prot_le howned rfl
    (fun i hi j => by rw [writeRow_ne hi, writeRow_ne hi]) hlaid ?_
  unfold noteExtend
  refine ⟨?_, ?_, ?_, hfill.le, le_rfl, ?_, ?_, _, hlaid⟩ <;> dsimp only <;> try rw [hfill]
  · exact lt_of_viewLen (hreq.prot_le.trans_lt hlt)
  · omega
  · exact hlt.le
  · rw [hread _ hlt.le, take_left' rfl]

theorem extendRow_ne {x : ℕ} (hx : x ≠ rid) : (σ.extendRow rid seqLen out).reqs x = σ.reqs x := setReq_ne hx

/-- **The loop of `write_cache_indices`**: request by request, the pages in hand go into the rows. -/
theorem writeCacheIndices_inv (hnodup : (batch.map Prod.fst).Nodup) (hready : ∀ b ∈ batch, σ.Ready b)
    (hF : ((batch.map σ.extendReq).map (numNewPages cfg.pageSize)).sum ≤ F.length) (h : Inv cfg numPages
      (F.take ((batch.map σ.extendReq).map (numNewPages cfg.pageSize)).sum : List ℕ)
      (batch.map Prod.fst) σ) :
    Inv cfg numPages 0 [] (writeCacheIndices batch
      (allocExtendKernel cfg.pageSize (batch.map σ.extendReq) F) σ) := by
  induction batch generalizing F σ with
  | nil => exact h
  | cons b batch ih =>
    obtain ⟨rid, seqLen⟩ := b
    simp only [map_cons, sum_cons, nodup_cons] at hnodup hF h
    have hr := hready _ mem_cons_self
    have hlen : (extendProgram cfg.pageSize (σ.extendReq (rid, seqLen)) F).length =
        seqLen - (σ.reqs rid).prefixIndices.length :=
      length_extendProgram (r := σ.extendReq (rid, seqLen)) h.ps_pos hr.2.1.le
    have hother : ∀ b ∈ batch, b.1 ≠ rid := fun b hb heq =>
      hnodup.1 (heq ▸ mem_map_of_mem hb)
    rw [take_add, ← coe_add] at h
    have hstep := extendRow_inv hr (by omega) h
    have hsame : ∀ out, batch.map (σ.extendRow rid seqLen out).extendReq = batch.map σ.extendReq := by
      intro out
      refine map_congr_left fun b hb => ?_
      rw [extendReq, extendReq, extendRow_ne (hother b hb)]
    simp only [map_cons, writeCacheIndices, allocExtendKernel]
    rw [take_left' hlen, drop_left' hlen, ← hsame]
    refine ih hnodup.2 (fun b hb => ?_) ?_ ?_
    · have hb' := hready b (mem_cons_of_mem _ hb)
      simp only [Ready, extendRow_ne (hother b hb)]
      exact hb'
    · rw [hsame, length_drop]
      omega
    · rw [hsame]
      exact hstep

/-- A row is given to a request that has none. -/
theorem assignSlot_inv {slot : ℕ} (h : Inv cfg numPages hand pending σ) (hrid : rid ∈ σ.live)
    (hpend : rid ∈ pending) (hnone : (σ.reqs rid).reqPoolIdx = none) (hslots : σ.freeSlots = slot :: slots) :
    Inv cfg numPages hand pending
      { σ.setReq rid { σ.reqs rid with reqPoolIdx := some slot } with freeSlots := slots } := by
  obtain ⟨locks, hacc, hlocks⟩ := h.locks
  have hreq := h.req rid hrid
  have hfresh : (σ.reqs rid).kvAllocatedLen = 0 ∧
      (σ.reqs rid).prefixIndices.length = (σ.reqs rid).cacheProtectedLen := by
    rcases hreq.state with hfresh | ⟨i, hi, -⟩
    · exact hfresh
    · rw [hnone] at hi
      cases hi
  have hnodup := h.slots_nodup
  rw [hslots, nodup_cons] at hnodup
  have htaken : ∀ x ∈ σ.live, ∀ i, (σ.reqs x).reqPoolIdx = some i → i ≠ slot ∧ i ∉ slots := by
    intro x hx i hi
    have := h.row_taken x hx i hi
    rw [hslots, mem_cons, not_or] at this
    exact this
  set σ' : KVState := { σ.setReq rid { σ.reqs rid with reqPoolIdx := some slot } with freeSlots := slots }
  have he : Elsewhere rid σ σ' := ⟨fun x _ hx => setReq_ne hx, fun _ _ _ _ _ _ => rfl, fun _ _ _ _ _ hs => hs⟩
  have hself : σ'.reqs rid = { σ.reqs rid with reqPoolIdx := some slot } := setReq_self
  have hlive : σ'.live = σ.live := rfl
  refine h.rebuild he h.settled hacc h.pages rfl ?_ (fun _ _ hx => hx) (fun _ => ?_)
    (fun x hx _ i hi => (htaken x hx i hi).2) hnodup.2 ?_
  · rw [hlocks, hlive, map_lastNode_live hrid, map_lastNode_live hrid, he.lastNodes, hself]
  · rw [hself]
    refine ⟨⟨hreq.prot_dvd, hreq.prot_le, hreq.spells, hreq.not_freed, .inl hfresh⟩, fun hnp =>
      absurd hpend hnp, ?_⟩
    rintro i ⟨⟩
    exact ⟨hnodup.1, fun x hx _ hxi => (htaken x hx slot hxi).1 rfl⟩
  · unfold livePages
    rw [hlive, if_pos hrid, if_pos hrid, hself, ownedPages_of_zero hfresh.1,
      ownedPages_of_zero (by exact hfresh.1)]
    rfl

/-- **The rows of a batch.** After `ReqToTokenPool.alloc` every request of the batch has a row, and
nothing else about any request has changed. -/
theorem assignSlots_inv (h : Inv cfg numPages hand pending σ) (hnodup : rids.Nodup)
    (hlive : ∀ rid ∈ rids, rid ∈ σ.live ∧ rid ∈ pending)
    (hroom : (rids.filter fun rid => !(σ.reqs rid).reqPoolIdx.isSome).length ≤ σ.freeSlots.length) :
    Inv cfg numPages hand pending (assignSlots rids σ) ∧ (assignSlots rids σ).live = σ.live ∧
      (∀ x, ∃ i, (assignSlots rids σ).reqs x = { σ.reqs x with reqPoolIdx := i }) ∧
      (∀ x, (σ.reqs x).reqPoolIdx ≠ none → ((assignSlots rids σ).reqs x).reqPoolIdx ≠ none) ∧
      ∀ rid ∈ rids, ((assignSlots rids σ).reqs rid).reqPoolIdx ≠ none := by
  induction rids generalizing σ with
  | nil => exact ⟨h, rfl, fun x => ⟨_, rfl⟩, fun _ hx => hx, fun _ hx => absurd hx not_mem_nil⟩
  | cons rid rids ih =>
    rw [nodup_cons] at hnodup
    obtain ⟨hrid, hpend⟩ := hlive rid mem_cons_self
    have htail : ∀ x ∈ rids, x ∈ σ.live ∧ x ∈ pending := fun x hx =>
      hlive x (mem_cons_of_mem _ hx)
    cases hidx : (σ.reqs rid).reqPoolIdx with
    | some i =>
      have hroom' : (rids.filter fun x => !(σ.reqs x).reqPoolIdx.isSome).length ≤ σ.freeSlots.length := by
        rwa [filter_cons_of_neg (by simp [hidx])] at hroom
      obtain ⟨hinv, hl, hf, hk, hall⟩ := ih h hnodup.2 htail hroom'
      have heq : assignSlots (rid :: rids) σ = assignSlots rids σ := by simp [assignSlots, hidx]
      rw [heq]
      refine ⟨hinv, hl, hf, hk, fun x hx => ?_⟩
      rcases mem_cons.mp hx with rfl | hx
      · exact hk x (by simp [hidx])
      · exact hall x hx
    | none =>
      rw [filter_cons_of_pos (by simp [hidx]), length_cons] at hroom
      cases hslots : σ.freeSlots with
      | nil =>
        rw [hslots, length_nil] at hroom
        exact absurd hroom (Nat.not_succ_le_zero _)
      | cons slot slots =>
        rw [hslots, length_cons] at hroom
        have h₁ := assignSlot_inv h hrid hpend hidx hslots
        obtain ⟨σ₁, hσ₁⟩ : ∃ σ₁, σ₁ = { σ.setReq rid { σ.reqs rid with
            reqPoolIdx := some slot } with freeSlots := slots } := ⟨_, rfl⟩
        rw [← hσ₁] at h₁
        have hself : σ₁.reqs rid = { σ.reqs rid with reqPoolIdx := some slot } :=
          hσ₁ ▸ setReq_self
        have hne : ∀ x, x ≠ rid → σ₁.reqs x = σ.reqs x := fun x hx => hσ₁ ▸ setReq_ne hx
        have hroom' : (rids.filter fun x => !(σ₁.reqs x).reqPoolIdx.isSome).length ≤ σ₁.freeSlots.length := by
          rw [filter_congr (q := fun x => !(σ.reqs x).reqPoolIdx.isSome) fun x hx => by
            rw [hne x fun heq => hnodup.1 (heq ▸ hx)], hσ₁]
          exact Nat.le_of_succ_le_succ hroom
        obtain ⟨hinv, hl, hf, hk, hall⟩ := ih h₁ hnodup.2 (fun x hx => hσ₁ ▸ htail x hx) hroom'
        have heq : assignSlots (rid :: rids) σ = assignSlots rids σ₁ := by
          simp [assignSlots, hidx, hslots, hσ₁]
        rw [heq]
        refine ⟨hinv, hl.trans (hσ₁ ▸ rfl), fun x => ?_, fun x hx => ?_, fun x hx => ?_⟩
        · obtain ⟨i, hi⟩ := hf x
          refine ⟨i, hi.trans ?_⟩
          by_cases hxr : x = rid
          · rw [hxr, hself]
          · rw [hne x hxr]
        · refine hk x ?_
          by_cases hxr : x = rid
          · rw [hxr, hself]
            exact Option.some_ne_none _
          · rwa [hne x hxr]
        · rcases mem_cons.mp hx with rfl | hx
          · exact hk x (by rw [hself]; exact Option.some_ne_none _)
          · exact hall x hx

theorem Inv.pend (h : Inv cfg numPages hand pending σ) (hsub : ∀ x ∈ pending, x ∈ pending') :
    Inv cfg numPages hand pending' σ :=
  { h with rowed := fun rid hrid hnp => h.rowed rid hrid fun hp => hnp (hsub rid hp) }

/-- What `alloc_req_slots` leaves. -/
theorem allocReqSlots_spec (h : Inv cfg numPages 0 [] σ) (hnodup : rids.Nodup)
    (hlive : ∀ rid ∈ rids, rid ∈ σ.live) (hrun : σ.allocReqSlots rids = .ok σ') :
    Inv cfg numPages 0 rids σ' ∧ σ'.live = σ.live ∧ (∀ x, ∃ i, σ'.reqs x = { σ.reqs x with reqPoolIdx := i }) ∧
      ∀ rid ∈ rids, (σ'.reqs rid).reqPoolIdx ≠ none := by
  simp only [allocReqSlots] at hrun
  split at hrun
  · split at hrun
    · cases hrun
    · next hroom =>
      cases hrun
      have hroom' : (rids.filter fun rid => !(σ.reqs rid).reqPoolIdx.isSome).length ≤ σ.freeSlots.length := by
        have := length_eq_length_filter_add (l := rids)
          fun rid => (σ.reqs rid).reqPoolIdx.isSome
        omega
      have hpend : Inv cfg numPages 0 rids σ := h.pend fun x hx => absurd hx not_mem_nil
      obtain ⟨h₁, hl, hfield, -, hall⟩ :=
        assignSlots_inv hpend hnodup (fun rid hrid => ⟨hlive rid hrid, hrid⟩) hroom'
      exact ⟨h₁, hl, hfield, hall⟩
  · cases hrun

/-- **`alloc_for_extend` keeps the invariant.** -/
theorem allocForExtend_inv (h : Inv cfg numPages 0 [] σ) (hnodup : (batch.map Prod.fst).Nodup)
    (hcan : ∀ b ∈ batch, σ.CanExtend b) (hrun : σ.allocForExtend cfg ties batch = .ok σ') :
    Inv cfg numPages 0 [] σ' := by
  obtain ⟨σ₁, hslots, hrun⟩ := exists_of_bind_eq_ok hrun
  obtain ⟨⟨σ₂, out⟩, hgrant, hrun⟩ := exists_of_bind_eq_ok hrun
  cases hrun
  have hlive : ∀ rid ∈ batch.map Prod.fst, rid ∈ σ.live := by
    intro rid hrid
    obtain ⟨b, hb, rfl⟩ := mem_map.mp hrid
    exact (hcan b hb).1
  obtain ⟨h₁, hl, hfield, hall⟩ := allocReqSlots_spec h hnodup hlive hslots
  have hsame : batch.map σ₁.extendReq = batch.map σ.extendReq := by
    refine map_congr_left fun b _ => ?_
    obtain ⟨i, hi⟩ := hfield b.1
    rw [extendReq, extendReq, hi]
  rw [← hsame] at hgrant
  have hgrow : ∀ b ∈ batch, (σ₁.extendReq b).prefixLen < (σ₁.extendReq b).seqLen := by
    intro b hb
    obtain ⟨i, hi⟩ := hfield b.1
    show (σ₁.reqs b.1).prefixIndices.length < b.2
    rw [hi]
    exact (hcan b hb).2.1
  obtain ⟨F, c, a, rfl, hF, rfl, h₂⟩ := allocSlotsExtend_granted h₁ (fun r hr => by
    obtain ⟨b, hb, rfl⟩ := mem_map.mp hr
    exact (hgrow b hb).le) hgrant
  show Inv cfg numPages 0 [] (writeCacheIndices batch (allocExtendKernel cfg.pageSize
    (batch.map (extendReq { σ₁ with cache := c, allocator := a })) F) _)
  refine writeCacheIndices_inv hnodup (fun b hb => ?_) hF h₂
  -- a request that had no row has no KV of its own yet
  obtain ⟨hlive', hlt, hle, hrow⟩ := hcan b hb
  obtain ⟨i, hi⟩ := hfield b.1
  refine ⟨hl ▸ hlive', hgrow b hb, ?_, hall b.1 (mem_map_of_mem hb), ?_⟩
  · rw [hi]
    exact hle
  · rw [hi]
    refine hrow.imp_left fun hnone => ?_
    rcases (h.req b.1 hlive').state with hfresh | ⟨j, hj, -⟩
    · exact hfresh.1
    · rw [hnone] at hj
      cases hj

/-- **One request of `alloc_for_decode`**: its slot goes from the hand into its row. -/
theorem decodeRow_inv (hrid : rid ∈ σ.live) (halloc : (σ.reqs rid).kvAllocatedLen ≠ 0)
    (hF : (decodeReq (σ.decodeSlot rid)).numNewPages cfg.pageSize ≤ F.length) (h : Inv cfg numPages
      ((F.take ((decodeReq (σ.decodeSlot rid)).numNewPages cfg.pageSize) : List ℕ) + hand) pending σ) :
    Inv cfg numPages hand pending (σ.decodeRow rid (decodeProgram cfg.pageSize
      (σ.decodeSlot rid).1 (σ.decodeSlot rid).2 F)) := by
  have hps := h.ps_pos
  have hreq := h.req rid hrid
  obtain ⟨idx, hidx, hh⟩ := hreq.state.resolve_left fun hfresh => halloc hfresh.1
  obtain ⟨P, hP⟩ := hh.laid
  have howned := ownedPages_eq hps hidx hreq.prot_dvd hP
  have hlast : ∀ v, (readRow σ.reqToToken idx (σ.reqs rid).kvAllocatedLen).getLast? = some v →
      (decodeReq (σ.decodeSlot rid)).lastLoc = v := by
    intro v hv
    rw [getLast?_eq_getElem?, length_readRow, getElem?_readRow (by omega)] at hv
    cases hv
    simp [decodeReq, decodeSlot, hidx]
  have hlaid := laid_extendProgram (r := decodeReq (σ.decodeSlot rid)) hps hP
    (by rw [length_readRow]; rfl) (Nat.sub_le _ _) hlast hF
  rw [← decodeProgram_eq (n := (σ.decodeSlot rid).1) hps (Nat.succ_pos _)] at hlaid
  generalize decodeProgram cfg.pageSize (σ.decodeSlot rid).1 (σ.decodeSlot rid).2 F = slot at hlaid ⊢
  have hfull : readRow (writeRow σ.reqToToken idx (σ.reqs rid).kvAllocatedLen [slot]) idx
      ((σ.reqs rid).kvAllocatedLen + 1) = readRow σ.reqToToken idx (σ.reqs rid).kvAllocatedLen ++ [slot] := by
    rw [readRow_writeRow (by simp), drop_of_length_le (by simp [length_readRow]), append_nil]
  rw [← hfull] at hlaid
  have hle := hh.prefix_le.trans (hh.fill_le.trans hh.committed_le)
  simp only [decodeRow, hidx, getD_some]
  refine h.growRow hrid hidx (fun _ _ hx => hx) hP (by rw [length_readRow]; exact hreq.prot_le.trans hle)
    howned rfl
    (fun i hi => writeRow_ne hi) hlaid ⟨hh.fill_eq, hh.prot_le, hh.fill_pos, hh.fill_le.trans (Nat.le_succ _),
      Nat.succ_le_succ hh.committed_le, hh.prefix_le, ?_, _, hlaid⟩
  show (σ.reqs rid).prefixIndices = readRow (writeRow _ _ _ _) idx (σ.reqs rid).prefixIndices.length
  rw [← take_readRow (hle.trans (Nat.le_succ _)), hfull,
    take_append_of_le_length (by rwa [length_readRow]), take_readRow hle]
  exact hh.prefix_eq

/-- **The loop of `alloc_for_decode`.** -/
theorem writeDecode_inv (hnodup : rids.Nodup)
    (hready : ∀ rid ∈ rids, rid ∈ σ.live ∧ (σ.reqs rid).reqPoolIdx ≠ none ∧ (σ.reqs rid).kvAllocatedLen ≠ 0)
    (hF : (((rids.map σ.decodeSlot).map decodeReq).map (numNewPages cfg.pageSize)).sum ≤ F.length)
    (h : Inv cfg numPages (F.take (((rids.map σ.decodeSlot).map decodeReq).map
      (numNewPages cfg.pageSize)).sum : List ℕ) pending σ) :
    Inv cfg numPages 0 pending (writeDecode rids (allocExtendKernel cfg.pageSize
      ((rids.map σ.decodeSlot).map decodeReq) F) σ) := by
  induction rids generalizing F σ with
  | nil => exact h
  | cons rid rids ih =>
    simp only [map_cons, sum_cons, nodup_cons] at hnodup hF h
    obtain ⟨hrid, hrow, halloc⟩ := hready rid mem_cons_self
    have hps := h.ps_pos
    have hother : ∀ x ∈ rids, x ≠ rid := fun x hx heq => hnodup.1 (heq ▸ hx)
    obtain ⟨idx, hidx⟩ := Option.ne_none_iff_exists'.mp hrow
    have hslots : ∀ slot, rids.map (σ.decodeRow rid slot).decodeSlot = rids.map σ.decodeSlot := by
      intro slot
      refine map_congr_left fun x hx => ?_
      obtain ⟨hxl, hxrow, -⟩ := hready x (mem_cons_of_mem _ hx)
      obtain ⟨i, hi⟩ := Option.ne_none_iff_exists'.mp hxrow
      have hne := h.row_ne hrid hidx hxl (hother x hx) hi
      have hreqs : (σ.decodeRow rid slot).reqs x = σ.reqs x := setReq_ne (hother x hx)
      simp only [decodeSlot, hreqs, hi, getD_some]
      simp only [decodeRow, hidx, getD_some, writeRow_ne hne]
    rw [take_add, ← coe_add] at h
    have hstep := decodeRow_inv hrid halloc (by omega) h
    simp only [map_cons, allocExtendKernel]
    rw [← decodeProgram_eq (n := (σ.decodeSlot rid).1) hps (Nat.succ_pos _), singleton_append,
      writeDecode, ← hslots]
    refine ih hnodup.2 (fun x hx => ?_) ?_ ?_
    · have hreqs : ∀ slot, (σ.decodeRow rid slot).reqs x = σ.reqs x := fun _ =>
        setReq_ne (hother x hx)
      rw [hreqs]
      exact hready x (mem_cons_of_mem _ hx)
    · rw [hslots, length_drop]
      omega
    · rw [hslots]
      exact hstep

/-- **`alloc_for_decode` keeps the invariant.** -/
theorem allocForDecode_inv (h : Inv cfg numPages 0 [] σ) (hnodup : rids.Nodup)
    (hrids : ∀ rid ∈ rids, rid ∈ σ.live ∧ (σ.reqs rid).reqPoolIdx ≠ none)
    (hrun : σ.allocForDecode cfg ties rids = .ok σ') : Inv cfg numPages 0 [] σ' := by
  obtain ⟨⟨σ₁, out⟩, hgrant, hrun⟩ := exists_of_bind_eq_ok hrun
  cases hrun
  obtain ⟨F, c, a, rfl, hF, rfl, h₁⟩ := allocSlotsDecode_granted h hgrant
  show Inv cfg numPages 0 [] (writeDecode rids (allocExtendKernel cfg.pageSize
    ((rids.map (decodeSlot { σ with cache := c, allocator := a })).map decodeReq) F) _)
  refine writeDecode_inv hnodup (fun rid hrid => ?_) hF h₁
  obtain ⟨hlive, hrow⟩ := hrids rid hrid
  exact ⟨hlive, hrow, h.rowed rid hlive not_mem_nil hrow⟩

end KVState

end SGLang.MemCache
