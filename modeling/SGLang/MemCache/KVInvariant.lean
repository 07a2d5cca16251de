/-
# SGLang.MemCache.KVInvariant — where the pages of the pool are.

Every page of the pool is with the allocator, in one node of the radix tree, or in the part of one
live request's row that the request owns alone (behind `cache_protected_len`). `Inv` states this as
one equation between multisets, next to what the slices of the source rely on: every row is laid out
on pages, the locked node of a request spells out the slots at the front of its row, and no two
requests share a row. During an operation some pages are in no place; `Inv` has a parameter for
these pages in hand, so that the loops over a batch can be followed request by request.
-/
import SGLang.MemCache.RadixCacheStore
import SGLang.MemCache.KVLifecycle
import SGLang.Lib.PageTreeSlots

namespace SGLang.MemCache

open SGLang.Lib SGLang.Lib.PageTree RadixKey List Finset NodeData
open KVState (radixKey)
open RadixCache (Accounting insertKey insertValue lookupKey)

/-! ## Pages and the operations of the cache -/

namespace RadixCache

variable {ps n L : ℕ} {c c' : RadixCache} {locks : List ℕ} {t t' : Tree} {key : RadixKey}
variable {value vs P : List ℕ} {us : List (Option String × Tok)} {freed : List (List ℕ)}

theorem QuietSteps.keepsPages (hq : QuietSteps ps t t') (wf : WF ps t) : KeepsPages ps NodeData.value t t' :=
  Quiet.keepsPages hq (fun _ hg d => (hg.plain d).1) (fun _ _ _ hh d => ⟨(hh.plain d).1, (hh.plain d).2.1⟩) wf

/-- `insert` keeps what every node spells. -/
theorem Inserted.spells (h : Inserted ps t key value t' L) (wf : WF ps t)
    (hs : t.Spells NodeData.value n us vs) : t'.Spells NodeData.value n us vs := by
  obtain ⟨t₁, w, l, rest, hq, hw, -, -, -, -, hcase⟩ := h.ex
  have hs₁ := (QuietSteps.keepsPages hq wf).spells n us vs hs
  rcases hcase with ⟨-, rfl⟩ | ⟨data, -, -, -, -, rfl⟩
  · exact hs₁
  · have wf₁ := hq.wf wf
    obtain ⟨wd, hwd⟩ := wf₁.node_of_path hw
    exact hs₁.addLeaf wf₁ hwd

/-- `insert` moves the pages behind the stored prefix into the tree. -/
theorem Inserted.pages (h : Inserted ps t key value t' L) (wf : WF ps t)
    (hp : t.HoldsPages ps NodeData.value) (hval : value = expand ps P)
    (hlen : value.length = key.len) : t'.HoldsPages ps NodeData.value ∧
      t'.slotPages ps NodeData.value = t.slotPages ps NodeData.value + P.drop (L / ps) := by
  obtain ⟨t₁, w, l, rest, hq, hw, happ, hL, -, hlong, hcase⟩ := h.ex
  obtain ⟨hp₁, hs₁⟩ := (QuietSteps.keepsPages hq wf).pages hp
  have hlens : L + rest.len = P.length * ps := by
    rw [← length_expand, ← hval, hlen, ← length_units key, ← happ, length_append, hL, length_units]
  obtain ⟨k, rfl⟩ : ps ∣ L := hlong.dvd
  rw [Nat.mul_div_cancel_left k wf.ps_pos]
  rcases hcase with ⟨hzero, rfl⟩ | ⟨data, -, hdata, -, -, rfl⟩
  · have hk : P.length ≤ k := by
      refine Nat.le_of_mul_le_mul_right ?_ wf.ps_pos
      rw [mul_comm k]
      omega
    rw [drop_of_length_le hk, Multiset.coe_nil, add_zero]
    exact ⟨hp₁, hs₁⟩
  · have wf₁ := hq.wf wf
    obtain ⟨wd, hwd⟩ := wf₁.node_of_path hw
    rw [← hs₁]
    exact hp₁.addLeaf wf₁ hwd (by rw [hdata, hval, mul_comm, drop_expand])

/-- Eviction leaves a locked node as it is, with its whole path. -/
theorem Evicted.spells (h : Evicted ps c c' freed) (hc : Accounting ps c locks) (hn : n ∈ locks)
    (hs : c.tree.Spells NodeData.value n us vs) : c'.tree.Spells NodeData.value n us vs := by
  refine h.rule (P := fun c' _ => c'.tree.Spells value n us vs) hc hs ?_
  intro c₁ c₂ x xd _ hacc _ hx hne hlock hchildless htree ih
  rw [htree]
  refine ih.removeLeaf hacc.wf hx hne hchildless ?_
  -- the node that is deleted carries no lock
  rintro rfl
  have hzero := hacc.lock_eq _ xd hx hne
  have hpos := hacc.wf.holds_pos_of_mem hx hne hn
  omega

/-- Eviction moves pages out of the tree. -/
theorem Evicted.pages (h : Evicted ps c c' freed) (hc : Accounting ps c locks)
    (hp : c.tree.HoldsPages ps NodeData.value) : c'.tree.HoldsPages ps NodeData.value ∧
      c'.tree.slotPages ps NodeData.value + (freed.flatMap (pagesOf ps) : List ℕ) =
        c.tree.slotPages ps NodeData.value ∧
      ∀ v ∈ freed, ∃ P, v = expand ps P := by
  refine h.rule (P := fun c' freed => c'.tree.HoldsPages ps value ∧
    c'.tree.slotPages ps value + (freed.flatMap (pagesOf ps) : List ℕ) = _ ∧
    ∀ v ∈ freed, ∃ P, v = expand ps P) hc ⟨hp, by simp, by simp⟩ ?_
  rintro c₁ c₂ x xd freed hacc - hx hne - - htree ⟨hp₁, hs₁, hf₁⟩
  obtain ⟨hp₂, hs₂⟩ := hp₁.removeLeaf hacc.wf hx hne
  rw [htree]
  refine ⟨hp₂, ?_, ?_⟩
  · rw [← hs₁, ← hs₂, flatMap_append, ← Multiset.coe_add]
    simp only [flatMap_cons, flatMap_nil, append_nil]
    abel
  · intro v hv
    rcases mem_append.mp hv with hv | hv
    · exact hf₁ v hv
    · rw [List.mem_singleton.mp hv]
      exact hp₁ _ _ hx hne

end RadixCache

/-! ## Rows -/

section Rows

variable {table : ℕ → ℕ → ℕ} {idx idx' n k start : ℕ} {vs : List ℕ}

@[simp] theorem length_readRow : (readRow table idx n).length = n := by simp [readRow]

theorem getElem?_readRow (h : k < n) : (readRow table idx n)[k]? = some (table idx k) := by
  simp [readRow, h]

theorem take_readRow (h : k ≤ n) : (readRow table idx n).take k = readRow table idx k := by
  rw [readRow, ← map_take, take_range, min_eq_left h, readRow]

theorem readRow_congr {table' : ℕ → ℕ → ℕ} (h : ∀ j, table' idx j = table idx j) :
    readRow table' idx n = readRow table idx n :=
  map_congr_left fun j _ => h j

theorem writeRow_ne (h : idx' ≠ idx) (j : ℕ) : writeRow table idx start vs idx' j = table idx' j := by
  simp [writeRow, h]

/-- Reading behind a write: the old front, what was written, the old rest. -/
theorem readRow_writeRow (h : start + vs.length ≤ n) : readRow (writeRow table idx start vs) idx n =
      readRow table idx start ++ vs ++ (readRow table idx n).drop (start + vs.length) := by
  refine ext_getElem? fun j => ?_
  rcases lt_or_ge j n with hj | hj
  · rw [getElem?_readRow hj]
    rcases lt_or_ge j start with h₁ | h₁
    · rw [append_assoc, getElem?_append_left (by simpa), getElem?_readRow h₁]
      simp [writeRow, not_le.mpr h₁]
    · rw [append_assoc, getElem?_append_right (by simpa), length_readRow]
      rcases lt_or_ge j (start + vs.length) with h₂ | h₂
      · rw [getElem?_append_left (by omega), getElem?_eq_getElem (by omega)]
        simp only [writeRow, true_and]
        rw [if_pos ⟨h₁, h₂⟩, getD_eq_getElem _ _ (by omega)]
      · rw [getElem?_append_right (by omega), getElem?_drop,
          show start + vs.length + (j - start - vs.length) = j by omega, getElem?_readRow hj]
        simp only [writeRow, true_and]
        rw [if_neg (by omega)]
  · rw [getElem?_eq_none (by simpa), getElem?_eq_none]
    simp only [length_append, length_readRow, length_drop]
    omega

end Rows

/-! ## Keys of a request -/

section Keys

variable {cfg : Config} {r : Req} {k : ℕ}

/-- How many units `k` tokens make in the view of the cache. -/
def viewLen (cfg : Config) (k : ℕ) : ℕ := if cfg.isEagle then k - 1 else k

/-- The units of all tokens of a request. -/
def reqUnits (cfg : Config) (r : Req) : List (Option String × Tok) :=
  (⟨r.tokens, r.extraKey, cfg.isEagle⟩ : RadixKey).units

theorem viewLen_mono {m : ℕ} (h : k ≤ m) : viewLen cfg k ≤ viewLen cfg m := by
  unfold viewLen
  split <;> omega

theorem viewLen_le : viewLen cfg k ≤ k := by
  unfold viewLen
  split <;> omega

theorem lt_of_viewLen {m : ℕ} (h : m < k) : m ≤ viewLen cfg k := by
  unfold viewLen
  split <;> omega

/-- The units of the first `k` tokens. -/
theorem units_take_tokens (tokens : List ℕ) (e : Option String) (k : ℕ) :
    (⟨tokens.take k, e, cfg.isEagle⟩ : RadixKey).units =
      (⟨tokens, e, cfg.isEagle⟩ : RadixKey).units.take (viewLen cfg k) := by
  simp only [units, toks, viewLen]
  cases cfg.isEagle
  · simp [map_take]
  · simp only [↓reduceIte]
    cases k with
    | zero => simp [bigrams]
    | succ k => rw [bigrams_take, Nat.add_sub_cancel, map_take, map_take]

theorem length_reqUnits : (reqUnits cfg r).length = viewLen cfg r.tokens.length := by
  rw [reqUnits, length_units, len, viewLen]
  dsimp only
  split
  · split <;> omega
  · rfl

/-- The length of the key of the first `k` tokens: whole pages. -/
def keyLen (cfg : Config) (k : ℕ) : ℕ := viewLen cfg k / cfg.pageSize * cfg.pageSize

theorem keyLen_le_viewLen : keyLen cfg k ≤ viewLen cfg k := Nat.div_mul_le_self _ _

theorem keyLen_le : keyLen cfg k ≤ k := keyLen_le_viewLen.trans viewLen_le

theorem dvd_keyLen : cfg.pageSize ∣ keyLen cfg k := Nat.dvd_mul_left _ _

theorem le_keyLen {m : ℕ} (hd : cfg.pageSize ∣ m) (h : m ≤ viewLen cfg k) : m ≤ keyLen cfg k :=
  le_floor_of_dvd hd h

/-- The key `cache_unfinished_req` and `cache_finished_req` hand over. -/
theorem units_radixKey (hk : k ≤ r.tokens.length) :
    (radixKey cfg r (r.tokens.take k)).units = (reqUnits cfg r).take (keyLen cfg k) := by
  have hlen : (⟨r.tokens.take k, r.extraKey, cfg.isEagle⟩ : RadixKey).len = viewLen cfg k := by
    rw [← length_units, units_take_tokens, length_take, show (⟨r.tokens, r.extraKey, cfg.isEagle⟩ :
      RadixKey).units.length = viewLen cfg r.tokens.length from length_reqUnits,
      min_eq_left (viewLen_mono hk)]
  rw [radixKey, units_pageAligned, hlen, units_take_tokens, take_take, min_eq_left (Nat.div_mul_le_self _ _)]
  rfl

theorem len_radixKey (hk : k ≤ r.tokens.length) : (radixKey cfg r (r.tokens.take k)).len = keyLen cfg k := by
  rw [← length_units, units_radixKey hk, length_take, length_reqUnits,
    min_eq_left (keyLen_le_viewLen.trans (viewLen_mono hk))]

theorem isBigram_radixKey (tokens : List ℕ) : (radixKey cfg r tokens).isBigram = cfg.isEagle := by
  unfold radixKey pageAligned
  split
  · rfl
  · rw [isBigram_take]

/-- A key that is in the view of the cache already is not changed by it. -/
theorem maybeToBigramView_radixKey {α : Type} (tokens : List ℕ) (value : List α) :
    (radixKey cfg r tokens).maybeToBigramView cfg.isEagle value = (radixKey cfg r tokens, value) := by
  unfold maybeToBigramView
  rw [isBigram_radixKey, Bool.and_not_self]
  rfl

/-- Aligning an aligned key again keeps its units. -/
theorem units_pageAligned_of_dvd {key : RadixKey} (hd : cfg.pageSize ∣ key.len) :
    (key.pageAligned cfg.pageSize).units = key.units := by
  rw [units_pageAligned, Nat.div_mul_cancel hd, ← length_units, take_length]

theorem dvd_len_radixKey (tokens : List ℕ) : cfg.pageSize ∣ (radixKey cfg r tokens).len :=
  dvd_len_pageAligned

theorem units_lookup_radixKey (tokens : List ℕ) :
    (lookupKey cfg (radixKey cfg r tokens)).units = (radixKey cfg r tokens).units := by
  rw [lookupKey, maybeToBigramView_radixKey]
  exact units_pageAligned_of_dvd (dvd_len_radixKey tokens)

theorem units_insert_radixKey (tokens value : List ℕ) (priority : Option ℤ) (chunked : Bool) :
    (insertKey cfg ⟨radixKey cfg r tokens, some value, priority, chunked⟩).units =
      (radixKey cfg r tokens).units := by
  simp only [insertKey, Option.getD_some, maybeToBigramView_radixKey]
  exact units_pageAligned_of_dvd (dvd_len_radixKey tokens)

theorem insertValue_radixKey (tokens value : List ℕ) (priority : Option ℤ) (chunked : Bool)
    (hlen : value.length = (radixKey cfg r tokens).len) :
    insertValue cfg ⟨radixKey cfg r tokens, some value, priority, chunked⟩ = value := by
  simp only [insertValue, maybeToBigramView_radixKey]
  refine take_of_length_le ?_
  rw [hlen, ← length_units, ← length_units, units_insert_radixKey]

end Keys

/-! ## The invariant -/

/-- The part of its row that a request owns alone. -/
def Req.ownedSlots (table : ℕ → ℕ → ℕ) (r : Req) : List ℕ :=
  match r.reqPoolIdx with
  | none => []
  | some idx => (readRow table idx r.kvAllocatedLen).drop r.cacheProtectedLen

/-- The pages of that part. -/
def Req.ownedPages (ps : ℕ) (table : ℕ → ℕ → ℕ) (r : Req) : Multiset ℕ :=
  (pagesOf ps (r.ownedSlots table) : List ℕ)

namespace KVState

/-- A request with KV in its row. -/
structure Held (cfg : Config) (table : ℕ → ℕ → ℕ) (r : Req) (idx : ℕ) : Prop where
  fill_eq : r.fillIds = r.tokens.take r.fillIds.length
  prot_le : r.cacheProtectedLen ≤ viewLen cfg r.fillIds.length
  fill_pos : 0 < r.fillIds.length
  fill_le : r.fillIds.length ≤ r.kvCommittedLen
  committed_le : r.kvCommittedLen ≤ r.kvAllocatedLen
  prefix_le : r.prefixIndices.length ≤ r.fillIds.length
  prefix_eq : r.prefixIndices = readRow table idx r.prefixIndices.length
  laid : ∃ P, Laid cfg.pageSize (readRow table idx r.kvAllocatedLen) P

/-- What holds about a live request: its locked node spells out the whole pages at the front of its
row, and it either has no KV of its own yet or has a row of it. -/
structure ReqInv (cfg : Config) (t : Tree) (table : ℕ → ℕ → ℕ) (r : Req) : Prop where
  prot_dvd : cfg.pageSize ∣ r.cacheProtectedLen
  prot_le : r.cacheProtectedLen ≤ r.prefixIndices.length
  spells : t.Spells NodeData.value r.lastNode ((reqUnits cfg r).take r.cacheProtectedLen)
    (r.prefixIndices.take r.cacheProtectedLen)
  not_freed : r.kvCommittedFreed = false ∧ r.kvOverallocatedFreed = false
  state : (r.kvAllocatedLen = 0 ∧ r.prefixIndices.length = r.cacheProtectedLen) ∨
    ∃ idx, r.reqPoolIdx = some idx ∧ Held cfg table r idx

/-- **The invariant**, with the pages in hand and the requests that have a row but nothing in it yet. -/
structure Inv (cfg : Config) (numPages : ℕ) (hand : Multiset ℕ) (pending : List ℕ) (σ : KVState) :
    Prop where
  settled : σ.allocator.Settled cfg.pageSize
  locks : ∃ locks : List ℕ, Accounting cfg.pageSize σ.cache locks ∧
    (locks : Multiset ℕ) = σ.live.val.map fun rid => (σ.reqs rid).lastNode
  pages : σ.cache.tree.HoldsPages cfg.pageSize NodeData.value
  req : ∀ rid ∈ σ.live, ReqInv cfg σ.cache.tree σ.reqToToken (σ.reqs rid)
  rowed : ∀ rid ∈ σ.live, rid ∉ pending → (σ.reqs rid).reqPoolIdx ≠ none →
    (σ.reqs rid).kvAllocatedLen ≠ 0
  row_inj : ∀ rid ∈ σ.live, ∀ rid' ∈ σ.live, (σ.reqs rid).reqPoolIdx ≠ none →
    (σ.reqs rid).reqPoolIdx = (σ.reqs rid').reqPoolIdx → rid = rid'
  row_taken : ∀ rid ∈ σ.live, ∀ idx, (σ.reqs rid).reqPoolIdx = some idx → idx ∉ σ.freeSlots
  slots_nodup : σ.freeSlots.Nodup
  conserved : σ.allocator.pages + σ.cache.tree.slotPages cfg.pageSize NodeData.value +
    ∑ rid ∈ σ.live, (σ.reqs rid).ownedPages cfg.pageSize σ.reqToToken + hand = (Icc 1 numPages).val

variable {cfg : Config} {numPages rid : ℕ} {hand : Multiset ℕ} {pending : List ℕ} {σ σ' : KVState}
variable {r : Req} {idx : ℕ} {t t' : Tree} {table table' : ℕ → ℕ → ℕ}

section

variable (h : Inv cfg numPages hand pending σ)
include h

theorem Inv.ps_pos : 0 < cfg.pageSize := by
  obtain ⟨locks, hacc, -⟩ := h.locks
  exact hacc.wf.ps_pos

theorem Inv.wf : WF cfg.pageSize σ.cache.tree := by
  obtain ⟨locks, hacc, -⟩ := h.locks
  exact hacc.wf

theorem Inv.fits : σ.cache.tree.Fits value := by
  obtain ⟨locks, hacc, -⟩ := h.locks
  exact hacc.fits

/-- Pages counted in the equation are distinct. -/
theorem Inv.nodup_owned (hrid : rid ∈ σ.live) : ((σ.reqs rid).ownedPages cfg.pageSize σ.reqToToken).Nodup := by
  have hle : (σ.reqs rid).ownedPages cfg.pageSize σ.reqToToken ≤ (Icc 1 numPages).val := by
    rw [← h.conserved, ← add_sum_erase _ _ hrid]
    refine le_trans ?_ (Multiset.le_add_right _ _)
    refine le_trans ?_ (Multiset.le_add_left _ _)
    exact Multiset.le_add_right _ _
  exact Multiset.nodup_of_le hle (nodup _)

end

/-- The front of the row of a request that holds KV. -/
theorem ReqInv.row_front (h : ReqInv cfg t table r) (hh : Held cfg table r idx) :
    readRow table idx r.cacheProtectedLen = r.prefixIndices.take r.cacheProtectedLen := by
  rw [hh.prefix_eq, take_readRow h.prot_le]

/-- What a request has to do with the tree and the table. -/
theorem ReqInv.frame (h : ReqInv cfg t table r)
    (hs : ∀ us vs, t.Spells value r.lastNode us vs → t'.Spells value r.lastNode us vs)
    (hrow : ∀ i, r.reqPoolIdx = some i → ∀ j, table' i j = table i j) : ReqInv cfg t' table' r := by
  refine ⟨h.prot_dvd, h.prot_le, hs _ _ h.spells, h.not_freed, ?_⟩
  rcases h.state with hfresh | ⟨i, hi, hh⟩
  · exact .inl hfresh
  · have hread : ∀ n, readRow table' i n = readRow table i n := fun n => readRow_congr (hrow i hi)
    refine .inr ⟨i, hi, { hh with prefix_eq := ?_, laid := ?_ }⟩
    · rw [hread]
      exact hh.prefix_eq
    · rw [hread]
      exact hh.laid

theorem ownedPages_congr {ps : ℕ} (hrow : ∀ i, r.reqPoolIdx = some i → ∀ j, table' i j = table i j) :
    r.ownedPages ps table' = r.ownedPages ps table := by
  unfold Req.ownedPages Req.ownedSlots
  split
  · rfl
  · next i hi => rw [readRow_congr (hrow i hi)]

/-- The pages a request owns are those of its row behind the protected ones. -/
theorem ownedPages_eq {P : List ℕ} (hps : 0 < cfg.pageSize) (hidx : r.reqPoolIdx = some idx)
    (hd : cfg.pageSize ∣ r.cacheProtectedLen) (hl : Laid cfg.pageSize (readRow table idx r.kvAllocatedLen) P) :
    r.ownedPages cfg.pageSize table = P.drop (r.cacheProtectedLen / cfg.pageSize) := by
  obtain ⟨k, hk⟩ := hd
  simp only [Req.ownedPages, Req.ownedSlots, hidx, hk, Nat.mul_div_cancel_left k hps]
  rw [mul_comm, (hl.drop hps).pagesOf_eq hps]

theorem ownedPages_of_zero {ps : ℕ} (hz : r.kvAllocatedLen = 0) : r.ownedPages ps table = 0 := by
  simp only [Req.ownedPages, Req.ownedSlots, hz]
  split <;> simp [readRow]

/-! ## One request changes -/

@[simp] theorem setReq_self : (σ.setReq rid r).reqs rid = r := Function.update_self ..

@[simp] theorem setReq_reqToToken : (σ.setReq rid r).reqToToken = σ.reqToToken := rfl

theorem setReq_ne {x : ℕ} (h : x ≠ rid) : (σ.setReq rid r).reqs x = σ.reqs x :=
  Function.update_of_ne h ..

/-- What an operation on the request `rid` does to the others: nothing. -/
structure Elsewhere (rid : ℕ) (σ σ' : KVState) : Prop where
  reqs : ∀ x ∈ σ.live, x ≠ rid → σ'.reqs x = σ.reqs x
  rows : ∀ x ∈ σ.live, x ≠ rid → ∀ i, (σ.reqs x).reqPoolIdx = some i →
    ∀ j, σ'.reqToToken i j = σ.reqToToken i j
  nodes : ∀ x ∈ σ.live, x ≠ rid → ∀ us vs,
    σ.cache.tree.Spells NodeData.value (σ.reqs x).lastNode us vs →
    σ'.cache.tree.Spells NodeData.value (σ.reqs x).lastNode us vs

theorem Elsewhere.req (he : Elsewhere rid σ σ') (h : Inv cfg numPages hand pending σ) {x : ℕ}
    (hx : x ∈ σ.live) (hne : x ≠ rid) : ReqInv cfg σ'.cache.tree σ'.reqToToken (σ'.reqs x) := by
  rw [he.reqs x hx hne]
  exact (h.req x hx).frame (he.nodes x hx hne) (he.rows x hx hne)

theorem Elsewhere.owned (he : Elsewhere rid σ σ') (ps : ℕ) :
    ∑ x ∈ σ.live.erase rid, (σ'.reqs x).ownedPages ps σ'.reqToToken =
      ∑ x ∈ σ.live.erase rid, (σ.reqs x).ownedPages ps σ.reqToToken := by
  refine sum_congr rfl fun x hx => ?_
  rw [mem_erase] at hx
  rw [he.reqs x hx.2 hx.1, ownedPages_congr (he.rows x hx.2 hx.1)]

theorem Elsewhere.lastNodes (he : Elsewhere rid σ σ') :
    ((σ.live.erase rid).val.map fun x => (σ'.reqs x).lastNode) =
      (σ.live.erase rid).val.map fun x => (σ.reqs x).lastNode := by
  refine Multiset.map_congr rfl fun x hx => ?_
  have hx' := mem_erase.mp hx
  rw [he.reqs x hx'.2 hx'.1]

/-- The row of one request is no row of another. -/
theorem Inv.row_ne (h : Inv cfg numPages hand pending σ) (hrid : rid ∈ σ.live)
    (hidx : (σ.reqs rid).reqPoolIdx = some idx) {x i : ℕ} (hx : x ∈ σ.live) (hne : x ≠ rid)
    (hi : (σ.reqs x).reqPoolIdx = some i) : i ≠ idx := by
  rintro rfl
  exact hne (h.row_inj x hx rid hrid (by simp [hi]) (by rw [hi, hidx]))

theorem map_lastNode_live (hrid : rid ∈ σ.live) (f : ℕ → ℕ) :
    σ.live.val.map f = f rid ::ₘ (σ.live.erase rid).val.map f := by
  rw [erase_val, ← Multiset.map_cons, Multiset.cons_erase hrid]

/-- The locks, of which one is the request's own. -/
theorem Inv.own_lock (h : Inv cfg numPages hand pending σ) (hrid : rid ∈ σ.live) :
    ∃ locks, Accounting cfg.pageSize σ.cache locks ∧ (σ.reqs rid).lastNode ∈ locks ∧
      (locks.erase (σ.reqs rid).lastNode : Multiset ℕ) = (σ.live.erase rid).val.map fun x =>
        (σ.reqs x).lastNode := by
  obtain ⟨locks, hacc, hlocks⟩ := h.locks
  rw [map_lastNode_live hrid] at hlocks
  refine ⟨locks, hacc, ?_, ?_⟩
  · rw [← Multiset.mem_coe, hlocks]
    exact Multiset.mem_cons_self _ _
  · rw [← Multiset.coe_erase, hlocks, Multiset.erase_cons_head]

/-- The pages of a request, if it is live. -/
def livePages (cfg : Config) (σ : KVState) (rid : ℕ) : Multiset ℕ :=
  if rid ∈ σ.live then (σ.reqs rid).ownedPages cfg.pageSize σ.reqToToken else 0

theorem sum_owned (cfg : Config) (σ : KVState) (rid : ℕ) :
    ∑ x ∈ σ.live, (σ.reqs x).ownedPages cfg.pageSize σ.reqToToken = σ.livePages cfg rid +
      ∑ x ∈ σ.live.erase rid, (σ.reqs x).ownedPages cfg.pageSize σ.reqToToken := by
  unfold livePages
  split
  · next hrid => exact (add_sum_erase _ _ hrid).symm
  · next hrid => rw [erase_eq_of_notMem hrid, zero_add]

section Change

variable {hand' : Multiset ℕ} {pending' locks : List ℕ} {r' : Req} (h : Inv cfg numPages hand pending σ)
  (he : Elsewhere rid σ σ') (hset : σ'.allocator.Settled cfg.pageSize)
  (hacc : Accounting cfg.pageSize σ'.cache locks) (hpages : σ'.cache.tree.HoldsPages cfg.pageSize value)

include h he hset hacc hpages

/-- **All but one request stay as they are.** The new state keeps the invariant if that request does, has a row
of its own, and the pages are accounted for. -/
theorem Inv.rebuild (hlive : σ'.live.erase rid = σ.live.erase rid)
    (hlocks : (locks : Multiset ℕ) = σ'.live.val.map fun x => (σ'.reqs x).lastNode)
    (hpend : ∀ x, x ≠ rid → x ∈ pending → x ∈ pending')
    (hself : rid ∈ σ'.live → ReqInv cfg σ'.cache.tree σ'.reqToToken (σ'.reqs rid) ∧
      (rid ∉ pending' → (σ'.reqs rid).reqPoolIdx ≠ none → (σ'.reqs rid).kvAllocatedLen ≠ 0) ∧
      ∀ i, (σ'.reqs rid).reqPoolIdx = some i → i ∉ σ'.freeSlots ∧
        ∀ x ∈ σ.live, x ≠ rid → (σ.reqs x).reqPoolIdx ≠ some i)
    (hfree : ∀ x ∈ σ.live, x ≠ rid → ∀ i, (σ.reqs x).reqPoolIdx = some i → i ∉ σ'.freeSlots)
    (hnodup : σ'.freeSlots.Nodup)
    (hcons : σ'.allocator.pages + σ'.cache.tree.slotPages cfg.pageSize value + σ'.livePages cfg rid + hand' =
      σ.allocator.pages + σ.cache.tree.slotPages cfg.pageSize value + σ.livePages cfg rid + hand) :
    Inv cfg numPages hand' pending' σ' := by
  have hold : ∀ x ∈ σ'.live, x ≠ rid → x ∈ σ.live ∧ σ'.reqs x = σ.reqs x := by
    intro x hx hne
    have hx' : x ∈ σ.live := mem_of_mem_erase (hlive ▸ mem_erase.mpr ⟨hne, hx⟩)
    exact ⟨hx', he.reqs x hx' hne⟩
  refine ⟨hset, ⟨locks, hacc, hlocks⟩, hpages, ?_, ?_, ?_, ?_, hnodup, ?_⟩
  · intro x hx
    rcases eq_or_ne x rid with rfl | hne
    · exact (hself hx).1
    · exact he.req h (hold x hx hne).1 hne
  · intro x hx hnp hnn
    rcases eq_or_ne x rid with rfl | hne
    · exact (hself hx).2.1 hnp hnn
    · obtain ⟨hx, heq⟩ := hold x hx hne
      rw [heq] at hnn ⊢
      exact h.rowed x hx (fun hp => hnp (hpend x hne hp)) hnn
  · intro x hx y hy hnn heq
    obtain ⟨i, hi⟩ := Option.ne_none_iff_exists'.mp hnn
    rw [hi] at heq
    by_cases hxr : x = rid <;> by_cases hyr : y = rid
    · exact hxr.trans hyr.symm
    · subst hxr
      obtain ⟨hy, hey⟩ := hold y hy hyr
      exact absurd (hey ▸ heq.symm) (((hself hx).2.2 i hi).2 y hy hyr)
    · subst hyr
      obtain ⟨hx, hex⟩ := hold x hx hxr
      exact absurd (hex ▸ hi) (((hself hy).2.2 i heq.symm).2 x hx hxr)
    · obtain ⟨hx, hex⟩ := hold x hx hxr
      obtain ⟨hy, hey⟩ := hold y hy hyr
      rw [hex] at hi
      rw [hey] at heq
      exact h.row_inj x hx y hy (by simp [hi]) (hi.trans heq)
  · intro x hx i hi
    rcases eq_or_ne x rid with rfl | hne
    · exact ((hself hx).2.2 i hi).1
    · obtain ⟨hx, heq⟩ := hold x hx hne
      exact hfree x hx hne i (heq ▸ hi)
  · rw [← h.conserved, sum_owned cfg σ' rid, sum_owned cfg σ rid, hlive, he.owned]
    simp only [← add_assoc, add_right_comm _ (∑ x ∈ _, _)]
    rw [hcons]

/-- **Changing one live request.** The new state keeps the invariant if the request itself does, and
the pages that left it are accounted for. -/
theorem Inv.change (hrid : rid ∈ σ.live) (hlive : σ'.live = σ.live) (hr' : σ'.reqs rid = r')
    (hlocks : (locks : Multiset ℕ) = r'.lastNode ::ₘ (σ.live.erase rid).val.map fun x => (σ.reqs x).lastNode)
    (hreq : ReqInv cfg σ'.cache.tree σ'.reqToToken r')
    (hrow : r'.reqPoolIdx = (σ.reqs rid).reqPoolIdx) (hslots : σ'.freeSlots = σ.freeSlots)
    (hpend : ∀ x, x ≠ rid → x ∈ pending → x ∈ pending')
    (hrowed : rid ∉ pending' → r'.reqPoolIdx ≠ none → r'.kvAllocatedLen ≠ 0)
    (hcons : σ'.allocator.pages + σ'.cache.tree.slotPages cfg.pageSize value +
        r'.ownedPages cfg.pageSize σ'.reqToToken + hand' =
      σ.allocator.pages + σ.cache.tree.slotPages cfg.pageSize value +
        (σ.reqs rid).ownedPages cfg.pageSize σ.reqToToken + hand) :
    Inv cfg numPages hand' pending' σ' := by
  subst hr'
  refine h.rebuild he hset hacc hpages (by rw [hlive]) ?_ hpend
    (fun _ => ⟨hreq, hrowed, fun i hi => ⟨?_, fun x hx hne hxi => ?_⟩⟩)
    (fun x hx _ i hi => hslots ▸ h.row_taken x hx i hi) (hslots ▸ h.slots_nodup) ?_
  · rw [hlive, map_lastNode_live hrid, hlocks, he.lastNodes]
  · rw [hslots]
    exact h.row_taken rid hrid i (hrow ▸ hi)
  · exact h.row_ne hrid (hrow ▸ hi) hx hne hxi rfl
  · unfold livePages
    rw [hlive, if_pos hrid, if_pos hrid]
    exact hcons

/-- **A request leaves** and gives its row back. -/
theorem Inv.remove (hrid : rid ∈ σ.live) (hlive : σ'.live = σ.live.erase rid)
    (hlocks : (locks : Multiset ℕ) = (σ.live.erase rid).val.map fun x => (σ.reqs x).lastNode)
    (hidx : (σ.reqs rid).reqPoolIdx = some idx) (hslots : σ'.freeSlots = σ.freeSlots ++ [idx])
    (hcons : σ'.allocator.pages + σ'.cache.tree.slotPages cfg.pageSize value + hand' =
      σ.allocator.pages + σ.cache.tree.slotPages cfg.pageSize value +
        (σ.reqs rid).ownedPages cfg.pageSize σ.reqToToken + hand) :
    Inv cfg numPages hand' pending σ' := by
  refine h.rebuild he hset hacc hpages (by rw [hlive, erase_idem]) (by rw [hlive, hlocks, he.lastNodes])
    (fun _ _ hx => hx) (fun hx => absurd hx (by simp [hlive])) ?_ ?_ ?_
  · intro x hx hne i hi
    rw [hslots, mem_append, List.mem_singleton, not_or]
    exact ⟨h.row_taken x hx i hi, h.row_ne hrid hidx hx hne hi⟩
  · rw [hslots, nodup_append]
    refine ⟨h.slots_nodup, nodup_singleton _, ?_⟩
    rintro a ha b hb rfl
    rw [List.mem_singleton.mp hb] at ha
    exact h.row_taken rid hrid idx hidx ha
  · unfold livePages
    rw [hlive, if_pos hrid, if_neg (notMem_erase rid _), add_zero]
    exact hcons

/-- **A request enters**, with nothing of its own. -/
theorem Inv.add (hrid : rid ∉ σ.live) (hlive : σ'.live = insert rid σ.live) (hr' : σ'.reqs rid = r')
    (halloc : σ'.allocator.pages = σ.allocator.pages)
    (hlocks : (locks : Multiset ℕ) = r'.lastNode ::ₘ σ.live.val.map fun x => (σ.reqs x).lastNode)
    (hreq : ReqInv cfg σ'.cache.tree σ'.reqToToken r') (hrow : r'.reqPoolIdx = none)
    (hslots : σ'.freeSlots = σ.freeSlots) (htree : σ'.cache.tree.slotPages cfg.pageSize value =
      σ.cache.tree.slotPages cfg.pageSize value) :
    Inv cfg numPages hand pending σ' := by
  subst hr'
  have herase : σ.live.erase rid = σ.live := erase_eq_of_notMem hrid
  refine h.rebuild he hset hacc hpages (by rw [hlive, erase_insert_eq_erase]) ?_ (fun _ _ hx => hx)
    (fun _ => ⟨hreq, fun _ hnn => absurd hrow hnn, fun i hi => by rw [hrow] at hi; cases hi⟩)
    (fun x hx _ i hi => hslots ▸ h.row_taken x hx i hi) (hslots ▸ h.slots_nodup) ?_
  · rw [hlive, insert_val_of_notMem hrid, Multiset.map_cons, hlocks, ← herase, he.lastNodes]
  · unfold livePages
    rw [hlive, if_pos (mem_insert_self rid _), if_neg hrid, halloc, htree]
    simp [Req.ownedPages, Req.ownedSlots, hrow]

end Change

end KVState

end SGLang.MemCache
