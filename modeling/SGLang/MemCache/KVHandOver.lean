/-
# SGLang.MemCache.KVHandOver — what requests give to the tree and to the pool.

Prefix match, `cache_unfinished_req`, `release_kv_cache` and `evict` keep `KVState.Inv`. The slices of
the source become statements about one layout `P` of the request's row: the duplicates that are freed,
what goes into the tree and what stays with the request are consecutive parts of `P`
(`drop_eq_parts`), so nothing falls between them and nothing is counted twice.
-/
import SGLang.MemCache.KVInvariant

namespace SGLang.MemCache

open SGLang.Lib SGLang.Lib.PageTree RadixKey RadixCache List
open Allocator (SameSettings free pages_free same_free)
open Multiset (coe_add coe_nil coe_nodup cons_coe)
open NodeData (value)

/-- A list from position `a` on, cut at `b` and at `c`. -/
theorem drop_eq_parts {l : List ℕ} {a b c : ℕ} (hab : a ≤ b) (hbc : b ≤ c) :
    l.drop a = (l.take b).drop a ++ ((l.take c).drop b ++ l.drop c) := by
  have cut : ∀ {m n : ℕ}, m ≤ n → l.drop m = (l.take n).drop m ++ l.drop n := by
    intro m n hmn
    have hcut := drop_take_append_drop l m (n - m)
    rwa [Nat.add_sub_cancel' hmn, ← drop_take, eq_comm] at hcut
  rw [cut hab, cut hbc]

namespace KVState

variable {cfg : Config} {numPages rid idx k : ℕ} {hand : Multiset ℕ} {pending : List ℕ}
variable {σ σ' : KVState} {r : Req} {c c' : RadixCache} {t : Tree} {locks P : List ℕ}
variable {table : ℕ → ℕ → ℕ} {slots : List ℕ} {a : Allocator} {now : ℤ} {numTokens : ℕ} {ties : ℕ → ℕ}

/-! ## Handing over to the tree -/

/-- The pages `P` of a request, from the position `L` to the end of the key of its first `k` tokens, go into the
tree. -/
structure Moved (cfg : Config) (c c' : RadixCache) (r : Req) (k : ℕ) (P : List ℕ) (L : ℕ) : Prop where
  holds : c'.tree.HoldsPages cfg.pageSize value
  pages : c'.tree.slotPages cfg.pageSize value =
    c.tree.slotPages cfg.pageSize value +
      ((P.take (keyLen cfg k / cfg.pageSize)).drop (L / cfg.pageSize) : List ℕ)
  prot_le : r.cacheProtectedLen ≤ L
  dvd : cfg.pageSize ∣ L

/-- What `insert` does with the first `k` tokens of a request and the slots of its row. `L` is the
length of the prefix that was in the tree already. -/
structure HandedOver (cfg : Config) (c c' : RadixCache) (locks : List ℕ) (r : Req) (k : ℕ)
    (slots P : List ℕ) (L : ℕ) : Prop extends Moved cfg c c' r k P L where
  acc : Accounting cfg.pageSize c' locks
  spells : ∀ n us vs, c.tree.Spells value n us vs → c'.tree.Spells value n us vs
  le : L ≤ keyLen cfg k
  stored : ∃ old : List ℕ, old.length = L ∧
    old.take r.cacheProtectedLen = r.prefixIndices.take r.cacheProtectedLen ∧
    c'.tree.Stores value ((reqUnits cfg r).take (keyLen cfg k))
      (old ++ (slots.take (keyLen cfg k)).drop L)

theorem keyLen_le_units (hk : k ≤ r.tokens.length) : keyLen cfg k ≤ (reqUnits cfg r).length := by
  rw [length_reqUnits]
  exact keyLen_le_viewLen.trans (viewLen_mono hk)

/-- `insert` of the first `k` tokens of a request, with slots of its row. -/
theorem insert_radixKey (now : ℤ) (chunked : Bool) (hacc : Accounting cfg.pageSize c locks)
    (hk : k ≤ r.tokens.length) (hlen : slots.length = k) :
    ∃ c' L key, c.insert cfg now ⟨radixKey cfg r (r.tokens.take k),
        some (slots.take (radixKey cfg r (r.tokens.take k)).len), some (r.priority.getD 0), chunked⟩ =
        .ok (c', L) ∧ Accounting cfg.pageSize c' locks ∧
      key.units = (reqUnits cfg r).take (keyLen cfg k) ∧ key.len = keyLen cfg k ∧
      Inserted cfg.pageSize c.tree key (slots.take (keyLen cfg k)) c'.tree L := by
  have hKU : keyLen cfg k ≤ (reqUnits cfg r).length := keyLen_le_units hk
  rw [len_radixKey hk]
  set values := slots.take (keyLen cfg k) with hvalues
  have hvlen : values.length = keyLen cfg k := by
    rw [length_take, min_eq_left (hlen ▸ keyLen_le)]
  have hunits : (insertKey cfg ⟨radixKey cfg r (r.tokens.take k), some values,
      some (r.priority.getD 0), chunked⟩).units = (reqUnits cfg r).take (keyLen cfg k) := by
    rw [units_insert_radixKey, units_radixKey hk]
  have hval := @insertValue_radixKey cfg r (r.tokens.take k) values
    (some (r.priority.getD 0)) chunked (by rw [hvlen, len_radixKey hk])
  have hkeyLen : (insertKey cfg ⟨radixKey cfg r (r.tokens.take k), some values,
      some (r.priority.getD 0), chunked⟩).len = keyLen cfg k := by
    rw [← length_units, hunits, length_take, min_eq_left hKU]
  obtain ⟨c', L, hrun, hacc', hins⟩ := insert_spec now hacc (p := ⟨radixKey cfg r
    (r.tokens.take k), some values, some (r.priority.getD 0), chunked⟩)
    (by rw [InsertParams.Fits, hkeyLen, hval, hvlen])
  rw [hval] at hins
  exact ⟨c', L, _, hrun, hacc', hunits, hkeyLen, hins⟩

/-- `insert` on behalf of a request that holds KV. -/
theorem handOver (now : ℤ) (chunked : Bool) (hacc : Accounting cfg.pageSize c locks)
    (hp : c.tree.HoldsPages cfg.pageSize value) (hreq : ReqInv cfg c.tree table r)
    (hprot : r.cacheProtectedLen ≤ viewLen cfg k) (hk : k ≤ r.tokens.length)
    (hslots : Laid cfg.pageSize slots P) (hlen : slots.length = k) :
    ∃ c' L, c.insert cfg now ⟨radixKey cfg r (r.tokens.take k),
        some (slots.take (radixKey cfg r (r.tokens.take k)).len), some (r.priority.getD 0), chunked⟩ =
        .ok (c', L) ∧ HandedOver cfg c c' locks r k slots P L := by
  have hps := hacc.wf.ps_pos
  have hKk : keyLen cfg k ≤ slots.length := hlen ▸ keyLen_le
  have hKU : keyLen cfg k ≤ (reqUnits cfg r).length := keyLen_le_units hk
  have hpK : r.cacheProtectedLen ≤ keyLen cfg k := le_keyLen hreq.prot_dvd hprot
  obtain ⟨c', L, key, hrun, hacc', hunits, hkeyLen, hins⟩ := insert_radixKey now chunked hacc hk hlen
  set values := slots.take (keyLen cfg k) with hvalues
  have hvlen : values.length = keyLen cfg k := by rw [length_take, min_eq_left hKk]
  have hvlaid : Laid cfg.pageSize values (P.take (keyLen cfg k / cfg.pageSize)) := by
    have := hslots.take hps hKk
    rwa [pageCount_of_dvd hps dvd_keyLen] at this
  obtain ⟨hlong, old, hold, hiff⟩ := hins.stores hacc.wf hacc.fits
  rw [hunits] at hlong hold hiff
  have hle : L ≤ keyLen cfg k := by
    have := hlong.le
    rwa [length_take, min_eq_left hKU] at this
  have htake : ∀ {j}, j ≤ keyLen cfg k →
      ((reqUnits cfg r).take (keyLen cfg k)).take j = (reqUnits cfg r).take j := fun hj => by
    rw [take_take, min_eq_left hj]
  have hfront := hreq.spells.stores hacc.fits
  -- the locked path is stored, so the longest stored prefix reaches at least as far
  have hpL : r.cacheProtectedLen ≤ L := by
    refine hlong.greatest _ hreq.prot_dvd ?_ ?_
    · rw [length_take, min_eq_left hKU]
      exact hpK
    · rw [htake hpK]
      exact hfront.present
  rw [htake hle] at hold
  have holdlen : old.length = L := by
    rw [hold.length_eq hacc.fits, length_take, min_eq_left (hle.trans hKU)]
  obtain ⟨hp', hs'⟩ := hins.pages hacc.wf hp (hvlaid.eq_expand hps (hvlen ▸ dvd_keyLen))
    (by rw [hvlen, hkeyLen])
  refine ⟨c', L, hrun, ⟨hp', hs', hpL, hlong.dvd⟩, hacc', fun n us vs hs => hins.spells hacc.wf hs, hle, old,
    holdlen, ?_, ?_⟩
  · have hpart : (reqUnits cfg r).take r.cacheProtectedLen <+: (reqUnits cfg r).take L := by
      rw [← min_eq_left hpL, ← take_take]
      exact take_prefix _ _
    have hcut := hold.of_prefix hpart
    rw [length_take, min_eq_left (hpL.trans (hle.trans hKU))] at hcut
    refine hcut.functional hacc.wf hacc.fits hfront ?_
    rw [length_take, min_eq_left (hpL.trans (hle.trans hKU))]
    exact hreq.prot_dvd
  · rw [hiff]
    rcases hle.lt_or_eq with hlt | heq
    · refine .inr ⟨prefix_rfl, ?_, ?_⟩
      · rw [length_take, min_eq_left hKU]
        exact hlt
      · rw [length_take, min_eq_left hKU]
        refine (take_of_length_le ?_).symm
        rw [length_append, length_drop, holdlen, hvlen]
        omega
    · have hnil : values.drop L = [] := drop_of_length_le (by omega)
      refine .inl ?_
      rw [show (slots.take (keyLen cfg k)).drop L = [] from hnil, append_nil, ← heq]
      exact hold

/-- `match_prefix` right after `insert` finds the whole key: the slots that were there and the new
ones. -/
theorem HandedOver.rematch {L : ℕ} (now : ℤ) (h : HandedOver cfg c c' locks r k slots P L)
    (hk : k ≤ r.tokens.length) :
    ∃ c₂ m, c'.matchPrefix cfg now (radixKey cfg r (r.tokens.take k)) = .ok (c₂, m) ∧
      Accounting cfg.pageSize c₂ locks ∧ KeepsPages cfg.pageSize value c'.tree c₂.tree ∧
      m.deviceIndices.length = keyLen cfg k ∧
      m.deviceIndices.take r.cacheProtectedLen = r.prefixIndices.take r.cacheProtectedLen ∧
      c₂.tree.Spells value m.lastNode ((reqUnits cfg r).take (keyLen cfg k)) m.deviceIndices ∧
      ∃ Q, m.deviceIndices = expand cfg.pageSize Q := by
  obtain ⟨old, holdlen, hfront, hstored⟩ := h.stored
  have hacc := h.acc
  have hKU : keyLen cfg k ≤ (reqUnits cfg r).length := keyLen_le_units hk
  have hUlen : ((reqUnits cfg r).take (keyLen cfg k)).length = keyLen cfg k := by
    rw [length_take, min_eq_left hKU]
  obtain ⟨c₂, m, hrun, hacc₂, ⟨l, hq, hl, hm, hpre, hlong⟩, -⟩ :=
    matchPrefix_spec now hacc (radixKey cfg r (r.tokens.take k))
  rw [units_lookup_radixKey, units_radixKey hk] at hpre hlong
  obtain ⟨wf₂, hf₂, hstores⟩ := hq.plain hacc.wf hacc.fits
  have hstored₂ := (hstores _ _).mpr hstored
  have hfull : (c₂.tree.labels l).length = keyLen cfg k := by
    refine le_antisymm (hUlen ▸ hpre.length_le) ?_
    refine hlong.greatest _ dvd_keyLen hUlen.ge ?_
    rw [take_of_length_le hUlen.le]
    exact hstored₂.present
  have hlabels : c₂.tree.labels l = (reqUnits cfg r).take (keyLen cfg k) :=
    hpre.eq_of_length (hfull.trans hUlen.symm)
  have hspells : c₂.tree.Spells value m.lastNode ((reqUnits cfg r).take (keyLen cfg k))
      m.deviceIndices := ⟨l, hl, hlabels, hm.symm⟩
  have hdev : m.deviceIndices = old ++ (slots.take (keyLen cfg k)).drop L :=
    (hspells.stores hf₂).functional wf₂ hf₂ hstored₂ (hUlen.symm ▸ dvd_keyLen)
  have hkeep := QuietSteps.keepsPages hq hacc.wf
  refine ⟨c₂, m, hrun, hacc₂, hkeep, ?_, ?_, hspells, ?_⟩
  · rw [hspells.length_eq hf₂, hUlen]
  · rw [hdev, take_append_of_le_length (by rw [holdlen]; exact h.prot_le), hfront]
  · rw [hm]
    exact (hkeep.pages h.holds).1.along hl

/-- The lock of a request moves from one node to another. -/
theorem relock {old new : ℕ} {us us' : List (Option String × Tok)} {vs vs' : List ℕ}
    (hacc : Accounting cfg.pageSize c locks) (hold : old ∈ locks)
    (ho : c.tree.Spells value old us vs) (hn : c.tree.Spells value new us' vs') :
    ∃ c₁ c₂ δ₁ δ₂, c.decLockRef old = (c₁, .ok δ₁) ∧ c₁.incLockRef new = (c₂, .ok δ₂) ∧
      Accounting cfg.pageSize c₂ (new :: locks.erase old) ∧ KeepsPages cfg.pageSize value c.tree c₂.tree := by
  obtain ⟨l, hl, -, -⟩ := ho
  obtain ⟨c₁, δ₁, hdec, hacc₁, htree₁⟩ := decLockRef_spec hacc hl hold
  have hkeep₁ : KeepsPages cfg.pageSize value c.tree c₁.tree := htree₁ ▸ keepsPages_modifyAll fun _ => rfl
  obtain ⟨l', hl', -, -⟩ := hkeep₁.spells _ _ _ hn
  obtain ⟨c₂, δ₂, hinc, hacc₂, htree₂⟩ := incLockRef_spec hacc₁ hl'
  exact ⟨c₁, c₂, δ₁, δ₂, hdec, hinc, hacc₂, hkeep₁.trans (htree₂ ▸ keepsPages_modifyAll fun _ => rfl)⟩

theorem Inv.held (h : Inv cfg numPages hand pending σ) (hrid : rid ∈ σ.live) (hnp : rid ∉ pending)
    (hidx : (σ.reqs rid).reqPoolIdx = some idx) : Held cfg σ.reqToToken (σ.reqs rid) idx := by
  rcases (h.req rid hrid).state with ⟨hz, -⟩ | ⟨i, hi, hh⟩
  · exact absurd hz (h.rowed rid hrid hnp (by simp [hidx]))
  · rw [hidx] at hi
    cases hi
    exact hh

/-- The slots of a request between two whole numbers of pages, as pages of its row. -/
theorem laid_part {a b : ℕ} (hps : 0 < cfg.pageSize) (h : Laid cfg.pageSize slots P) (ha : cfg.pageSize ∣ a)
    (hb : b ≤ slots.length) :
    Laid cfg.pageSize ((slots.take b).drop a)
      ((P.take (pageCount cfg.pageSize b)).drop (a / cfg.pageSize)) := by
  obtain ⟨q, rfl⟩ := ha
  rw [Nat.mul_div_cancel_left q hps, mul_comm]
  exact (h.take hps hb).drop hps

/-- The request's slots before `L` are freed, and the tree takes those after it: behind the key its pages are
its own. -/
theorem Moved.free {L : ℕ} (hm : Moved cfg c c' r k P L) (hle : L ≤ keyLen cfg k) (ha : a.Settled cfg.pageSize)
    (hps : 0 < cfg.pageSize) (hP : Laid cfg.pageSize slots P) (hk : k ≤ slots.length)
    (hdvd : cfg.pageSize ∣ r.cacheProtectedLen) (hnodup : (P.drop (r.cacheProtectedLen / cfg.pageSize)).Nodup) :
    (P.drop (keyLen cfg k / cfg.pageSize)).Nodup ∧
      (a.free ((slots.take L).drop r.cacheProtectedLen)).pages + c'.tree.slotPages cfg.pageSize value +
          (P.drop (keyLen cfg k / cfg.pageSize) : List ℕ) =
        a.pages + c.tree.slotPages cfg.pageSize value +
          (P.drop (r.cacheProtectedLen / cfg.pageSize) : List ℕ) := by
  have hparts := drop_eq_parts (l := P) (Nat.div_le_div_right (c := cfg.pageSize) hm.prot_le)
    (Nat.div_le_div_right (c := cfg.pageSize) hle)
  have hpart := laid_part hps hP hdvd (hle.trans (keyLen_le.trans hk))
  rw [pageCount_of_dvd hps hm.dvd] at hpart
  rw [hparts] at hnodup ⊢
  refine ⟨hnodup.of_append_right.of_append_right, ?_⟩
  rw [pages_free ha hps hpart hnodup.of_append_left, hm.pages, ← coe_add, ← coe_add]
  abel

/-- The row of a request after `cache_unfinished_req`: the tree's slots, then its own. -/
theorem Held.adopt {m : MatchResult} {Q : List ℕ} (hh : Held cfg table r idx)
    (hreq : ReqInv cfg t table r) (hps : 0 < cfg.pageSize)
    (hlen : m.deviceIndices.length = keyLen cfg r.fillIds.length)
    (hfront : m.deviceIndices.take r.cacheProtectedLen = r.prefixIndices.take r.cacheProtectedLen)
    (hQ : m.deviceIndices = expand cfg.pageSize Q)
    (hP : Laid cfg.pageSize (readRow table idx r.kvAllocatedLen) P) :
    let table' := writeRow table idx r.cacheProtectedLen (m.deviceIndices.drop r.cacheProtectedLen)
    let r' := KVState.adopt r (readRow table idx r.fillIds.length) m
    Held cfg table' r' idx ∧ r'.prefixIndices.take m.deviceIndices.length = m.deviceIndices ∧
      m.deviceIndices.length ≤ r'.prefixIndices.length ∧
      Laid cfg.pageSize (readRow table' idx r.kvAllocatedLen)
        (Q ++ P.drop (keyLen cfg r.fillIds.length / cfg.pageSize)) := by
  intro table' r'
  obtain ⟨dev, node⟩ := m
  dsimp only at hlen hfront hQ ⊢
  have hka : r.fillIds.length ≤ r.kvAllocatedLen := hh.fill_le.trans hh.committed_le
  have hKk : dev.length ≤ r.fillIds.length := hlen ▸ keyLen_le
  have hpK : r.cacheProtectedLen ≤ dev.length := hlen ▸ le_keyLen hreq.prot_dvd hh.prot_le
  -- what is read from the new row
  have hread : ∀ n, dev.length ≤ n → readRow table' idx n = dev ++ (readRow table idx n).drop dev.length := by
    intro n hn
    have hdrop : (dev.drop r.cacheProtectedLen).length = dev.length - r.cacheProtectedLen := by simp
    rw [readRow_writeRow (by rw [hdrop]; omega), hdrop, Nat.add_sub_cancel' hpK,
      hreq.row_front hh, ← hfront, take_append_drop]
  have hfront : r'.prefixIndices = dev ++ (readRow table idx r.fillIds.length).drop dev.length := by
    show (if _ then _ else _) = _
    split
    · rfl
    · next hge =>
      have hge' : ¬ dev.length < r.fillIds.length := by simpa using hge
      rw [drop_of_length_le (by rw [length_readRow]; omega), append_nil]
  have hplen : r'.prefixIndices.length = r.fillIds.length := by
    rw [hfront, length_append, length_drop, length_readRow]
    omega
  have hlaid : Laid cfg.pageSize (readRow table' idx r.kvAllocatedLen)
      (Q ++ P.drop (keyLen cfg r.fillIds.length / cfg.pageSize)) := by
    rw [hread _ (hKk.trans hka)]
    refine Laid.append (hQ ▸ laid_expand hps) ?_ hps (hlen ▸ dvd_keyLen)
    have hK : dev.length = keyLen cfg r.fillIds.length / cfg.pageSize * cfg.pageSize := by
      rw [hlen, Nat.div_mul_cancel dvd_keyLen]
    rw [hK]
    exact hP.drop hps
  refine ⟨⟨hh.fill_eq, ?_, hh.fill_pos, hh.fill_le, hh.committed_le, hplen.le, ?_, _, hlaid⟩, ?_, ?_, hlaid⟩
  · show dev.length ≤ _
    rw [hlen]
    exact keyLen_le_viewLen
  · rw [hplen, hfront, hread _ hKk]
  · rw [hfront, take_left']
    rfl
  · rw [hplen]
    exact hKk

/-- **`cache_unfinished_req` never fails and keeps the invariant.** -/
theorem cacheUnfinishedReq_spec (now now' : ℤ) (chunked : Bool)
    (h : Inv cfg numPages hand pending σ) (hrid : rid ∈ σ.live) (hnp : rid ∉ pending)
    (hidx : (σ.reqs rid).reqPoolIdx = some idx) :
    ∃ σ', σ.cacheUnfinishedReq cfg now now' rid chunked = .ok σ' ∧ Inv cfg numPages hand pending σ' := by
  have hps := h.ps_pos
  have hreq := h.req rid hrid
  have hh := h.held hrid hnp hidx
  have hnodup := h.nodup_owned hrid
  obtain ⟨locks, hacc, hold, hlocks⟩ := h.own_lock hrid
  obtain ⟨P, hP⟩ := hh.laid
  obtain ⟨r, hr⟩ : ∃ r, σ.reqs rid = r := ⟨_, rfl⟩
  rw [hr] at hreq hh hP hidx hnodup hold hlocks
  have howned := ownedPages_eq hps hidx hreq.prot_dvd hP
  rw [howned, coe_nodup] at hnodup
  have hk : r.fillIds.length ≤ r.tokens.length := by
    rw [hh.fill_eq, length_take]
    exact min_le_right _ _
  have hka : r.fillIds.length ≤ r.kvAllocatedLen := hh.fill_le.trans hh.committed_le
  have hslots := hP.take hps (show r.fillIds.length ≤
    (readRow σ.reqToToken idx r.kvAllocatedLen).length by simpa)
  rw [take_readRow hka] at hslots
  obtain ⟨c₁, L, hins, hover⟩ := handOver now chunked hacc h.pages hreq hh.prot_le hk hslots length_readRow
  obtain ⟨c₂, m, hmatch, hacc₂, hkeep₂, hmlen, hmfront, hmspells, Q, hQ⟩ := hover.rematch now' hk
  obtain ⟨c₃, c₄, δ₁, δ₂, hdec, hinc, hacc₄, hkeep₄⟩ :=
    relock hacc₂ hold (hkeep₂.spells _ _ _ (hover.spells _ _ _ hreq.spells)) hmspells
  have hkeep := hkeep₂.trans hkeep₄
  obtain ⟨hp₄, hs₄⟩ := hkeep.pages hover.holds
  obtain ⟨hheld', htake', hle', hlaid'⟩ := hh.adopt hreq hps hmlen hmfront hQ hP
  have hQlen : Q.length = keyLen cfg r.fillIds.length / cfg.pageSize := by
    rw [← hmlen, hQ, length_expand, Nat.mul_div_cancel _ hps]
  have hkey : radixKey cfg r r.fillIds = radixKey cfg r (r.tokens.take r.fillIds.length) := by
    rw [← hh.fill_eq]
  have hdvd : cfg.pageSize ∣ m.deviceIndices.length := hmlen ▸ dvd_keyLen
  refine ⟨{ σ.setReq rid (adopt r (readRow σ.reqToToken idx r.fillIds.length) m) with
      cache := c₄
      allocator := σ.allocator.free
        (((readRow σ.reqToToken idx r.fillIds.length).take L).drop r.cacheProtectedLen)
      reqToToken := writeRow σ.reqToToken idx r.cacheProtectedLen
        (m.deviceIndices.drop r.cacheProtectedLen) }, ?_, h.change
    ⟨fun x _ hx => setReq_ne hx, ?_, fun x _ _ us vs hs => hkeep.spells _ _ _ (hover.spells _ us vs hs)⟩
    (h.settled.same same_free) hacc₄ hp₄ hrid rfl setReq_self ?_ ⟨hdvd, hle', ?_, hreq.not_freed,
      .inr ⟨idx, hidx, hheld'⟩⟩ (hr ▸ rfl) rfl
    (fun _ _ hx => hx) (fun _ _ => ?_) ?_⟩
  · simp only [cacheUnfinishedReq, hr, hidx, hkey, hins, bind, Except.bind, hmatch, hdec, hinc, returned_ok]
    rw [if_pos (show m.deviceIndices.length = (radixKey cfg r (r.tokens.take r.fillIds.length)).len by
      rw [hmlen, len_radixKey hk])]
  · intro x hx hne i hi j
    exact writeRow_ne (h.row_ne hrid (hr ▸ hidx) hx hne hi) j
  · rw [← cons_coe, hlocks]
    rfl
  · show c₄.tree.Spells _ m.lastNode ((reqUnits cfg r).take m.deviceIndices.length)
      (take m.deviceIndices.length _)
    rw [htake', hmlen]
    exact hkeep₄.spells _ _ _ hmspells
  · exact (hh.fill_pos.trans_le hka).ne'
  · -- the pages the request owned, in three parts: freed, moved into the tree, kept
    have hLk : L ≤ r.fillIds.length := hover.le.trans keyLen_le
    have hmoved : Moved cfg σ.cache c₁ r r.fillIds.length P L := { hover with
      pages := by
        rw [hover.pages, take_take, min_eq_left]
        rw [← pageCount_of_dvd hps dvd_keyLen]
        exact pageCount_mono keyLen_le }
    obtain ⟨-, hpages⟩ := hmoved.free hover.le h.settled hps hP (by rwa [length_readRow]) hreq.prot_dvd hnodup
    rw [take_readRow (hLk.trans hka), ← take_readRow hLk] at hpages
    have hkept := ownedPages_eq (r := adopt r (readRow σ.reqToToken idx r.fillIds.length) m) hps
      hidx hdvd hlaid'
    rw [show (adopt r (readRow σ.reqToToken idx r.fillIds.length) m).cacheProtectedLen =
      keyLen cfg r.fillIds.length from hmlen, drop_left' hQlen] at hkept
    rw [hkept, hr, howned, hs₄, hpages]

/-- **`cache_finished_req` goes through**, with and without insertion: `E` ends the part of the key that is
freed. If the request covers the tree's slots, the tree takes the rest of the key. -/
theorem cacheFinishedReq_run (now : ℤ) (isInsert : Bool) (idx : ℕ) (h : Inv cfg numPages hand pending σ)
    (hrid : rid ∈ σ.live) (hk : k ≤ (σ.reqs rid).tokens.length) :
    ∃ c₁ E locks, σ.cacheFinishedReq cfg now rid idx k isInsert =
        .ok { σ.setReq rid { σ.reqs rid with kvCommittedFreed := true } with
          cache := c₁
          allocator := (σ.allocator.free
            (((readRow σ.reqToToken idx k).take E).drop (σ.reqs rid).cacheProtectedLen)).free
            ((readRow σ.reqToToken idx k).drop (keyLen cfg k)) } ∧
      Accounting cfg.pageSize c₁ locks ∧
      (locks : Multiset ℕ) = (σ.live.erase rid).val.map (fun x => (σ.reqs x).lastNode) ∧
      (∀ n us vs, σ.cache.tree.Spells value n us vs → c₁.tree.Spells value n us vs) ∧ E ≤ keyLen cfg k ∧
      ((σ.reqs rid).cacheProtectedLen ≤ viewLen cfg k → ∀ P, Laid cfg.pageSize (readRow σ.reqToToken idx k) P →
        Moved cfg σ.cache c₁ (σ.reqs rid) k P E) := by
  have hreq := h.req rid hrid
  obtain ⟨locks, hacc, hold, hlocks⟩ := h.own_lock hrid
  obtain ⟨r, hr⟩ : ∃ r, σ.reqs rid = r := ⟨_, rfl⟩
  rw [hr] at hreq hold hlocks hk ⊢
  obtain ⟨c', E, hins, hacc', hspells, hE, hmoved⟩ : ∃ c' E,
      insertFinished cfg now σ.cache r (radixKey cfg r (r.tokens.take k))
        ((readRow σ.reqToToken idx k).take (radixKey cfg r (r.tokens.take k)).len) isInsert = .ok (c', E) ∧
      Accounting cfg.pageSize c' locks ∧
      (∀ n us vs, σ.cache.tree.Spells value n us vs → c'.tree.Spells value n us vs) ∧ E ≤ keyLen cfg k ∧
      (r.cacheProtectedLen ≤ viewLen cfg k → ∀ P, Laid cfg.pageSize (readRow σ.reqToToken idx k) P →
        Moved cfg σ.cache c' r k P E) := by
    unfold insertFinished
    split
    · obtain ⟨c', L, key, hrun, hacc', -, hlen, hins⟩ :=
        insert_radixKey now false hacc hk (@length_readRow σ.reqToToken idx _)
      have hle := (hins.stores hacc.wf hacc.fits).1.le
      rw [length_units, hlen] at hle
      refine ⟨c', L, hrun, hacc', fun n us vs hs => hins.spells hacc.wf hs, hle, fun hprot P hP => ?_⟩
      obtain ⟨c₂, L₂, hrun₂, ho⟩ := handOver now false hacc h.pages hreq hprot hk hP length_readRow
      cases hrun.symm.trans hrun₂
      exact ho.toMoved
    · refine ⟨σ.cache, keyLen cfg k, by rw [len_radixKey hk], hacc, fun _ _ _ hs => hs, le_rfl, fun hprot P _ =>
        ⟨h.pages, ?_, le_keyLen hreq.prot_dvd hprot, dvd_keyLen⟩⟩
      rw [drop_of_length_le (length_take_le _ _), coe_nil, add_zero]
  obtain ⟨l, hl, -, -⟩ := hspells _ _ _ hreq.spells
  obtain ⟨c₁, δ, hdec, hacc₁, htree₁⟩ := decLockRef_spec hacc' hl hold
  have hkeep : KeepsPages cfg.pageSize value c'.tree c₁.tree := htree₁ ▸ keepsPages_modifyAll fun _ => rfl
  have htokens : (r.tokens.take k).length = k := by rw [length_take, min_eq_left hk]
  refine ⟨c₁, E, _, ?_, hacc₁, hlocks, fun n us vs hs => hkeep.spells n us vs (hspells n us vs hs), hE,
    fun hprot P hP => ?_⟩
  · rw [len_radixKey hk] at hins
    simp only [cacheFinishedReq, hr, hreq.not_freed.1, htokens, hins, Bool.false_eq_true, ↓reduceIte,
      bind, Except.bind, hdec, returned_ok, len_radixKey hk]
  · have hm := hmoved hprot P hP
    obtain ⟨hp, hs⟩ := hkeep.pages hm.holds
    exact { hm with holds := hp, pages := hs.trans hm.pages }

/-- For a request whose committed KV lies on the pages `P`, all of its own pages go to the allocator or into the
tree. -/
theorem cacheFinishedReq_spec (now : ℤ) (isInsert : Bool) (h : Inv cfg numPages hand pending σ)
    (hrid : rid ∈ σ.live) (hprot : (σ.reqs rid).cacheProtectedLen ≤ viewLen cfg k)
    (hk : k ≤ (σ.reqs rid).tokens.length) (hP : Laid cfg.pageSize (readRow σ.reqToToken idx k) P)
    (hnodup : (P.drop ((σ.reqs rid).cacheProtectedLen / cfg.pageSize)).Nodup) :
    ∃ c₁ a₁ locks, σ.cacheFinishedReq cfg now rid idx k isInsert =
        .ok { σ.setReq rid { σ.reqs rid with kvCommittedFreed := true } with
          cache := c₁, allocator := a₁ } ∧
      Accounting cfg.pageSize c₁ locks ∧
      (locks : Multiset ℕ) = (σ.live.erase rid).val.map (fun x => (σ.reqs x).lastNode) ∧
      c₁.tree.HoldsPages cfg.pageSize value ∧
      (∀ n us vs, σ.cache.tree.Spells value n us vs → c₁.tree.Spells value n us vs) ∧
      SameSettings σ.allocator a₁ ∧
      a₁.pages + c₁.tree.slotPages cfg.pageSize value =
        σ.allocator.pages + σ.cache.tree.slotPages cfg.pageSize value +
          (P.drop ((σ.reqs rid).cacheProtectedLen / cfg.pageSize) : List ℕ) := by
  have hps := h.ps_pos
  obtain ⟨c₁, E, locks, hrun, hacc, hlocks, hspells, hEK, hmoved⟩ :=
    cacheFinishedReq_run now isInsert idx h hrid hk
  have hm := hmoved hprot P hP
  obtain ⟨hrest, hpages⟩ :=
    hm.free hEK h.settled hps hP length_readRow.ge (h.req rid hrid).prot_dvd hnodup
  have hl := hP.drop (k := keyLen cfg k / cfg.pageSize) hps
  rw [Nat.div_mul_cancel dvd_keyLen] at hl
  refine ⟨c₁, _, locks, hrun, hacc, hlocks, hm.holds, hspells, same_free.trans same_free, ?_⟩
  rw [pages_free (h.settled.same same_free) hps hl hrest, ← hpages]
  abel

/-- The first slot `freeOverallocated` looks at. -/
theorem overallocated_start (hps : 0 < cfg.pageSize) :
    (if 1 < cfg.pageSize then pageCount cfg.pageSize k * cfg.pageSize else k) =
      pageCount cfg.pageSize k * cfg.pageSize := by
  split
  · rfl
  · next hone =>
    rw [show cfg.pageSize = 1 by omega]
    simp [pageCount]

/-- Behind the pages of the committed KV, everything goes back. -/
theorem freeOverallocated_spec (ha : a.Settled cfg.pageSize) (hps : 0 < cfg.pageSize)
    (hP : Laid cfg.pageSize (readRow table idx r.kvAllocatedLen) P)
    (hnodup : (P.drop (pageCount cfg.pageSize k)).Nodup) :
    SameSettings a (freeOverallocated cfg a table idx k r) ∧ (freeOverallocated cfg a table idx k r).pages =
        (P.drop (pageCount cfg.pageSize k) : List ℕ) + a.pages := by
  simp only [freeOverallocated, overallocated_start hps]
  split
  · exact ⟨same_free, pages_free ha hps (hP.drop hps) hnodup⟩
  · next hnone =>
    have hnil : P.drop (pageCount cfg.pageSize k) = [] := by
      refine drop_of_length_le ?_
      rw [hP.count, length_readRow]
      by_contra hgt
      exact hnone ((lt_pageCount_iff hps).mp (not_le.mp hgt))
    rw [hnil, coe_nil, zero_add]
    exact ⟨.refl a, rfl⟩

/-- **`release_kv_cache` keeps the invariant**, if the length it takes as committed covers the slots that are
the tree's. Its three calls of `free` and the insertion share out the pages the request owned. -/
theorem releaseFrom_inv {overallocates isInsert : Bool} (h : Inv cfg numPages hand [] σ) (hrid : rid ∈ σ.live)
    (hprot : (σ.reqs rid).cacheProtectedLen ≤ viewLen cfg k) (hk : k ≤ (σ.reqs rid).tokens.length)
    (hka : k ≤ (σ.reqs rid).kvAllocatedLen)
    (hrun : σ.releaseFrom cfg overallocates now rid k isInsert = .ok σ') : Inv cfg numPages hand [] σ' := by
  have hps := h.ps_pos
  have hreq := h.req rid hrid
  unfold releaseFrom at hrun
  split at hrun
  · cases hrun
  · next idx hidx =>
    have hh := h.held hrid not_mem_nil hidx
    obtain ⟨P, hP⟩ := hh.laid
    have howned := ownedPages_eq hps hidx hreq.prot_dvd hP
    have hnodup := h.nodup_owned hrid
    rw [howned, coe_nodup] at hnodup
    have hcommitted := hP.take hps (show k ≤ (readRow σ.reqToToken idx
      (σ.reqs rid).kvAllocatedLen).length by rw [length_readRow]; exact hka)
    rw [take_readRow hka] at hcommitted
    -- the pages of the committed KV, and those behind it
    have hcut : P.drop ((σ.reqs rid).cacheProtectedLen / cfg.pageSize) =
        (P.take (pageCount cfg.pageSize k)).drop ((σ.reqs rid).cacheProtectedLen / cfg.pageSize) ++
        P.drop (pageCount cfg.pageSize k) := by
      have hle : (σ.reqs rid).cacheProtectedLen / cfg.pageSize ≤ pageCount cfg.pageSize k := by
        rw [← pageCount_of_dvd hps hreq.prot_dvd]
        exact pageCount_mono (hprot.trans viewLen_le)
      rw [drop_eq_parts hle le_rfl, drop_of_length_le (length_take_le _ _), nil_append]
    rw [hcut] at hnodup
    obtain ⟨c₁, a₁, locks, hfin, hacc, hlocks, hp, hkeep, hsame, hpages⟩ :=
      cacheFinishedReq_spec now isInsert h hrid hprot hk hcommitted hnodup.of_append_left
    simp only [hfin, bind, Except.bind, setReq_self, setReq_reqToToken, hreq.not_freed.2,
      Bool.false_eq_true, ↓reduceIte] at hrun
    split at hrun
    · cases hrun
    · cases hrun
      obtain ⟨hsame', hfreed⟩ := freeOverallocated_spec (a := a₁) (k := k)
        (r := { σ.reqs rid with kvCommittedFreed := true, kvOverallocatedFreed := false })
          (h.settled.same hsame) hps hP
        hnodup.of_append_right
      refine h.remove ⟨fun x _ hx => ?_, fun _ _ _ _ _ _ => rfl, fun x _ _ => hkeep _⟩
        ((h.settled.same hsame).same hsame') hacc hp hrid rfl hlocks hidx rfl ?_
      · rw [setReq_ne hx, setReq_ne hx]
      · rw [howned, hcut, ← coe_add, hfreed]
        show _ + c₁.tree.slotPages _ _ + hand = _
        calc _ = a₁.pages + c₁.tree.slotPages cfg.pageSize value +
              (P.drop (pageCount cfg.pageSize k) : List ℕ) + hand := by abel
          _ = _ := by rw [hpages]; abel

/-- A request that reports all of its committed KV. -/
theorem releaseKvCache_inv {specAlgo isInsert : Bool} (h : Inv cfg numPages hand [] σ) (hrid : rid ∈ σ.live)
    (hcommit : (σ.reqs rid).kvCommittedLen ≤ (σ.reqs rid).tokens.length)
    (hrun : σ.releaseKvCache cfg specAlgo now rid isInsert = .ok σ') : Inv cfg numPages hand [] σ' := by
  cases hidx : (σ.reqs rid).reqPoolIdx with
  | none =>
    simp only [releaseKvCache, releaseFrom, hidx] at hrun
    cases hrun
  | some idx =>
    have hh := h.held hrid not_mem_nil hidx
    exact releaseFrom_inv h hrid (hh.prot_le.trans (viewLen_mono hh.fill_le)) hcommit hh.committed_le hrun

/-! ## Match, evict, and the bookkeeping of the scheduler -/

/-- The values an eviction frees come back page by page. -/
theorem pages_freeAll {freed : List (List ℕ)} (ha : a.Settled cfg.pageSize) (hps : 0 < cfg.pageSize)
    (hfreed : ∀ v ∈ freed, ∃ P, v = expand cfg.pageSize P)
    (hnodup : (freed.flatMap (pagesOf cfg.pageSize)).Nodup) :
    SameSettings a (freed.foldl free a) ∧ (freed.foldl free a).pages =
        (freed.flatMap (pagesOf cfg.pageSize) : List ℕ) + a.pages := by
  induction freed generalizing a with
  | nil => exact ⟨.refl a, by simp⟩
  | cons v freed ih =>
    obtain ⟨P, rfl⟩ := hfreed v mem_cons_self
    rw [flatMap_cons, pagesOf_expand hps] at hnodup ⊢
    have hsame : SameSettings a (a.free (expand cfg.pageSize P)) := same_free
    have hpages : (a.free (expand cfg.pageSize P)).pages = P + a.pages :=
      pages_free ha hps (laid_expand hps) hnodup.of_append_left
    obtain ⟨hsame', hrest⟩ := ih (ha.same hsame) (fun w hw => hfreed w (mem_cons_of_mem _ hw))
      hnodup.of_append_right
    refine ⟨hsame.trans hsame', ?_⟩
    rw [foldl_cons, hrest, hpages, ← coe_add]
    abel

section

variable (h : Inv cfg numPages hand pending σ)

include h

/-- A prefix match and its lock keep the invariant: the request enters with nothing of its own. -/
theorem matchAndLock_inv {tokens : List ℕ} {extraKey : Option String} {priority : Option ℤ} {maxPrefixLen : ℕ}
    (hrid : rid ∉ σ.live) (hrun : σ.matchAndLock cfg now rid tokens extraKey priority maxPrefixLen = .ok σ') :
    Inv cfg numPages hand pending σ' := by
  obtain ⟨locks, hacc, hlocks⟩ := h.locks
  obtain ⟨c₁, m, hmatch, hacc₁, ⟨l, hq, hl, hm, hpre, -⟩, -⟩ :=
    matchPrefix_spec now hacc ⟨tokens.take maxPrefixLen, extraKey, false⟩
  obtain ⟨c₂, δ, hinc, hacc₂, htree⟩ := incLockRef_spec hacc₁ hl
  simp only [matchAndLock, hmatch, bind, Except.bind, hinc, returned_ok] at hrun
  cases hrun
  have hlock : KeepsPages cfg.pageSize value c₁.tree c₂.tree := htree ▸ keepsPages_modifyAll fun _ => rfl
  have hkeep := (QuietSteps.keepsPages hq hacc.wf).trans hlock
  obtain ⟨hp₂, hs₂⟩ := hkeep.pages h.pages
  have hlen : m.deviceIndices.length = (c₁.tree.labels l).length := by
    rw [hm, hacc₁.fits.length_along hl]
  -- the matched units are a prefix of the units of the request
  have hunits : (⟨tokens, extraKey, cfg.isEagle⟩ : RadixKey).units.take m.deviceIndices.length =
      c₁.tree.labels l := by
    rw [hlen]
    refine (prefix_iff_eq_take.mp ?_).symm
    have hview : (viewKey cfg ⟨tokens.take maxPrefixLen, extraKey, false⟩).units =
        (⟨tokens.take maxPrefixLen, extraKey, cfg.isEagle⟩ : RadixKey).units := by
      unfold viewKey maybeToBigramView
      cases cfg.isEagle <;> rfl
    rw [units_lookupKey, hview, units_take_tokens] at hpre
    exact hpre.trans ((List.take_prefix _ _).trans (List.take_prefix _ _))
  refine h.add ⟨fun x _ hx => setReq_ne hx, fun _ _ _ _ _ _ => rfl, fun x _ _ =>
    hkeep.spells _⟩ h.settled hacc₂ hp₂
    hrid rfl setReq_self rfl ?_ ⟨?_, le_rfl, ?_, ⟨rfl, rfl⟩, .inl ⟨rfl, rfl⟩⟩ rfl rfl hs₂
  · rw [← cons_coe, hlocks]
  · rw [hlen]
    exact hacc₁.wf.dvd_labels hl
  · show c₂.tree.Spells _ m.lastNode (take m.deviceIndices.length
      (⟨tokens, extraKey, cfg.isEagle⟩ : RadixKey).units) (m.deviceIndices.take m.deviceIndices.length)
    rw [hunits, take_length]
    exact hlock.spells _ _ _ ⟨l, hl, rfl, hm.symm⟩

/-- **Eviction keeps the invariant** and touches the cache and the allocator only. -/
theorem evict_inv (hrun : σ.evict cfg ties numTokens = .ok σ') :
    Inv cfg numPages hand pending σ' ∧ ∃ c a, σ' = { σ with cache := c, allocator := a } := by
  have hps := h.ps_pos
  obtain ⟨locks, hacc, hlocks⟩ := h.locks
  obtain ⟨c₁, freed, hev, hevicted, hacc₁, -⟩ : ∃ c₁ freed, σ.cache.evict cfg ties numTokens =
      .ok (c₁, freed, freed.flatten.length) ∧
      EvictedInOrder cfg numTokens σ.cache c₁ freed ∧
      Accounting cfg.pageSize c₁ locks ∧ _ := evict_spec hacc
  replace hevicted := hevicted.evicted hacc
  simp only [KVState.evict, hev, bind, Except.bind] at hrun
  cases hrun
  obtain ⟨hp₁, hs₁, hfreed⟩ := hevicted.pages hacc h.pages
  have hmem : ∀ x ∈ σ.live, (σ.reqs x).lastNode ∈ locks := fun x hx => by
    rw [← Multiset.mem_coe, hlocks]
    exact Multiset.mem_map_of_mem _ hx
  have hnodup : (freed.flatMap (pagesOf cfg.pageSize)).Nodup := by
    have hle : ((freed.flatMap (pagesOf cfg.pageSize) : List ℕ) : Multiset ℕ) ≤
        (Finset.Icc 1 numPages).val := by
      rw [← h.conserved, ← hs₁]
      refine le_trans ?_ (Multiset.le_add_right _ _)
      refine le_trans ?_ (Multiset.le_add_right _ _)
      refine le_trans ?_ (Multiset.le_add_left _ _)
      exact Multiset.le_add_left _ _
    exact coe_nodup.mp (Multiset.nodup_of_le hle (Finset.nodup _))
  obtain ⟨hsame, hpages⟩ := pages_freeAll h.settled hps hfreed hnodup
  refine ⟨⟨h.settled.same hsame, ⟨locks, hacc₁, hlocks⟩, hp₁, ?_,
    h.rowed, h.row_inj, h.row_taken, h.slots_nodup, ?_⟩, _, _, rfl⟩
  · intro x hx
    exact (h.req x hx).frame (fun us vs hs => hevicted.spells hacc (hmem x hx) hs) fun _ _ _ => rfl
  · rw [← h.conserved, ← hs₁, hpages]
    abel

theorem evictFromTreeCache_inv
    (hrun : σ.evictFromTreeCache cfg ties numTokens = .ok σ') : Inv cfg numPages hand pending σ' ∧
      ∃ c a, σ' = { σ with cache := c, allocator := a } := by
  unfold evictFromTreeCache at hrun
  split at hrun
  · exact evict_inv h hrun
  · cases hrun
    exact ⟨h, _, _, rfl⟩

/-- The scheduler changes fields of a request that holds the same row and node as before. -/
theorem Inv.note {r' : Req} (hrid : rid ∈ σ.live)
    (hnode : r'.lastNode = (σ.reqs rid).lastNode) (hreq : ReqInv cfg σ.cache.tree σ.reqToToken r')
    (hrow : r'.reqPoolIdx = (σ.reqs rid).reqPoolIdx) (halloc : r'.kvAllocatedLen = (σ.reqs rid).kvAllocatedLen)
    (hprot : r'.cacheProtectedLen = (σ.reqs rid).cacheProtectedLen) :
    Inv cfg numPages hand pending (σ.setReq rid r') := by
  obtain ⟨locks, hacc, hlocks⟩ := h.locks
  refine h.change ⟨fun x _ hx => setReq_ne hx, fun _ _ _ _ _ _ => rfl, fun _ _ _ _ _ hs => hs⟩
    h.settled hacc h.pages hrid rfl setReq_self ?_ hreq hrow rfl (fun _ _ hx => hx) ?_ ?_
  · rw [hlocks, map_lastNode_live hrid, hnode]
  · rw [hrow, halloc]
    exact h.rowed rid hrid
  · have hown : r'.ownedPages cfg.pageSize σ.reqToToken =
        (σ.reqs rid).ownedPages cfg.pageSize σ.reqToToken := by
      simp only [Req.ownedPages, Req.ownedSlots, hrow, halloc, hprot]
    show _ + _ + r'.ownedPages cfg.pageSize σ.reqToToken + hand = _
    rw [hown]
    rfl

theorem appendOutput_inv {token : ℕ} (hrid : rid ∈ σ.live) :
    Inv cfg numPages hand pending (σ.appendOutput rid token) := by
  have hreq := h.req rid hrid
  refine h.note hrid rfl ⟨hreq.prot_dvd, hreq.prot_le, ?_, hreq.not_freed, ?_⟩ rfl rfl rfl
  · -- the units of the longer request start with the old ones
    have hle : (σ.reqs rid).cacheProtectedLen ≤ (reqUnits cfg (σ.reqs rid)).length := by
      have := hreq.spells.length_eq h.fits
      rw [length_take, length_take, min_eq_left hreq.prot_le] at this
      omega
    have hpre : reqUnits cfg (σ.reqs rid) = (reqUnits cfg { σ.reqs rid with
        tokens := (σ.reqs rid).tokens ++ [token] }).take (viewLen cfg (σ.reqs rid).tokens.length) := by
      have := @units_take_tokens cfg ((σ.reqs rid).tokens ++ [token]) (σ.reqs rid).extraKey
        (σ.reqs rid).tokens.length
      rwa [take_left'] at this
      rfl
    have hspells := hreq.spells
    rw [length_reqUnits] at hle
    rw [hpre, take_take, min_eq_left hle] at hspells
    exact hspells
  · rcases hreq.state with hfresh | ⟨i, hi, hh⟩
    · exact .inl hfresh
    · refine .inr ⟨i, hi, { hh with fill_eq := ?_ }⟩
      have hlen : (σ.reqs rid).fillIds.length ≤ (σ.reqs rid).tokens.length := by
        rw [hh.fill_eq, length_take]
        exact min_le_right _ _
      rw [take_append_of_le_length hlen]
      exact hh.fill_eq

theorem commit_inv {n : ℕ} (hrid : rid ∈ σ.live)
    (hfill : (σ.reqs rid).fillIds.length ≤ n) (hn : n ≤ (σ.reqs rid).kvAllocatedLen) :
    Inv cfg numPages hand pending (σ.commit rid n) := by
  have hreq := h.req rid hrid
  refine h.note hrid rfl ⟨hreq.prot_dvd, hreq.prot_le, hreq.spells, hreq.not_freed, ?_⟩ rfl rfl rfl
  rcases hreq.state with hfresh | ⟨i, hi, hh⟩
  · exact .inl hfresh
  · exact .inr ⟨i, hi, { hh with fill_le := hfill, committed_le := hn }⟩

end

end KVState

end SGLang.MemCache
