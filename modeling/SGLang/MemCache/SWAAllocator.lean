/-
# SGLang.MemCache.SWAAllocator — one allocator over a full and a sliding-window pool.

`SWATokenToKVPoolAllocator` hands out slots of the full pool and keeps, in `full_to_swa_index_mapping`, the
slot of the SWA pool that goes with each. The SWA part of a page can be freed long before the page itself.

`alloc` and `alloc_extend` look at both pools first. `alloc_decode` does not: it lets both pools advance and
then gives up if one of them failed, so that a failed call loses the pages of the pool that had room
(`failed_allocation_atomic_iff`). If that is the SWA pool, no mapping leads to these pages and they never come
back; apart from that the pools stay in step (`pools_in_step`), by the rules of `Lib.TwinPools`.
-/
import SGLang.Lib.TwinPools
import SGLang.MemCache.KVRoom

namespace SGLang.MemCache

open SGLang.Lib List Allocator
open ExtendReq (numNewPages)
open Finset (mem_filter mem_sdiff)
open Multiset (card cons_add cons_coe)
open Pools (Grow begin grown_inv)
open Relation (ReflTransGen)

/-- `SWATokenToKVPoolAllocator`. The mapping is a function with default `0`; its last entry, which maps `-1`
to `-1`, is in `translate`. -/
structure SWAAllocator where
  full : Allocator
  swa : Allocator
  sizeFull : ℕ
  sizeSwa : ℕ
  mapping : ℕ → ℕ
  isNotInFreeGroup : Bool
  freeGroup : List (List ℕ)

/-- `mapping[keys] = values`. -/
def assign (m : ℕ → ℕ) (keys values : List ℕ) : ℕ → ℕ :=
  (keys.zip values).foldl (fun m kv => Function.update m kv.1 kv.2) m

/-- `translate_loc_from_full_to_swa`, at one location. -/
def translate (m : ℕ → ℕ) (loc : ℤ) : ℤ := if loc = -1 then -1 else m loc.toNat

namespace SWAAllocator

/-- `__init__` and `clear`. -/
def clear (pageSize : ℕ) (needSort : Bool) (sizeFull sizeSwa : ℕ) : SWAAllocator :=
  ⟨.clear pageSize needSort (sizeFull / pageSize), .clear pageSize needSort (sizeSwa / pageSize),
    sizeFull, sizeSwa, fun _ => 0, true, []⟩

/-- The end of the three allocation methods. -/
def mapSlots (s : SWAAllocator) (full swa : Allocator) (outFull outSwa : List ℕ) :
    SWAAllocator × Option (List ℕ) :=
  ({ s with full := full, swa := swa, mapping := assign s.mapping outFull outSwa }, some outFull)

/-- `alloc`. The outer `none` is a failed assertion. -/
def alloc (s : SWAAllocator) (needSize : ℕ) : Option (SWAAllocator × Option (List ℕ)) :=
  if s.full.pageSize ≠ 1 then none
  else if s.full.availableSize < needSize then some (s, none)
  else if s.swa.availableSize < needSize then some (s, none)
  else
    match s.full.alloc needSize, s.swa.alloc needSize with
    | (full, some outFull), (swa, some outSwa) => some (s.mapSlots full swa outFull outSwa)
    | _, _ => none

/-- The request for the SWA pool. -/
def toSwa (m : ℕ → ℕ) (r : ExtendReq) : ExtendReq := { r with lastLoc := translate m r.lastLoc }

/-- `alloc_extend`. -/
def allocExtend (s : SWAAllocator) (rs : List ExtendReq) (extendNumTokens : ℕ) :
    Option (SWAAllocator × Option (List ℕ)) :=
  let ps := s.full.pageSize
  let numNewPages := (rs.map (numNewPages ps)).sum
  if ps ≤ 1 then none
  else if s.full.availableSize / ps < numNewPages then some (s, none)
  else if s.swa.availableSize / ps < numNewPages then some (s, none)
  else
    match s.full.allocExtend rs extendNumTokens,
      s.swa.allocExtend (rs.map (toSwa s.mapping)) extendNumTokens with
    | (full, some outFull), (swa, some outSwa) => some (s.mapSlots full swa outFull outSwa)
    | _, _ => none

/-- `alloc_decode`. Both pools have advanced before either result is looked at. -/
def allocDecode (s : SWAAllocator) (ds : List (ℕ × ℤ)) : Option (SWAAllocator × Option (List ℕ)) :=
  if s.full.pageSize ≤ 1 then none
  else
    match s.full.allocDecode ds, s.swa.allocDecode (ds.map fun d => (d.1, translate s.mapping d.2)) with
    | (full, some outFull), (swa, some outSwa) => some (s.mapSlots full swa outFull outSwa)
    | (full, _), (swa, _) => some ({ s with full := full, swa := swa }, none)

/-- `free_swa`. -/
def freeSwa (s : SWAAllocator) (freeIndex : List ℕ) : SWAAllocator :=
  { s with
    swa := s.swa.free ((freeIndex.map s.mapping).filter (0 < ·))
    mapping := fun x => if x ∈ freeIndex then 0 else s.mapping x }

/-- `free`, with its two assertions. -/
def free (s : SWAAllocator) (freeIndex : List ℕ) : Option SWAAllocator :=
  if freeIndex = [] then some s
  else
    let s' :=
      if s.isNotInFreeGroup then freeSwa { s with full := s.full.free freeIndex } freeIndex
      else { s with freeGroup := s.freeGroup ++ [freeIndex] }
    if s'.full.availableSize ≤ s'.sizeFull ∧ s'.swa.availableSize ≤ s'.sizeSwa then some s' else none

variable (s : SWAAllocator)

/-- `free_group_begin`. -/
def freeGroupBegin : SWAAllocator := { s with isNotInFreeGroup := false, freeGroup := [] }

/-- `free_group_end`. -/
def freeGroupEnd : Option SWAAllocator :=
  let s := { s with isNotInFreeGroup := true }
  if s.freeGroup = [] then some s else s.free s.freeGroup.flatten

/-- The methods. -/
inductive Call
  | alloc (needSize : ℕ)
  | allocExtend (rs : List ExtendReq) (extendNumTokens : ℕ)
  | allocDecode (ds : List (ℕ × ℤ))
  | free (freeIndex : List ℕ)
  | freeSwa (freeIndex : List ℕ)
  | freeGroupBegin
  | freeGroupEnd

/-- One call; only the first three return slots, or `None`. -/
def call : Call → Option (SWAAllocator × Option (List ℕ))
  | .alloc n => s.alloc n
  | .allocExtend rs n => s.allocExtend rs n
  | .allocDecode ds => s.allocDecode ds
  | .free vs => (s.free vs).map (·, some [])
  | .freeSwa vs => some (s.freeSwa vs, some [])
  | .freeGroupBegin => some (s.freeGroupBegin, some [])
  | .freeGroupEnd => s.freeGroupEnd.map (·, some [])

end SWAAllocator

/-! ## Failed calls -/

namespace Allocator

variable {a : Allocator}

/-- Freed slots come back by pages. -/
theorem pages_free_image {vs : List ℕ} (hgroup : a.isNotInFreeGroup = true) (hvs : vs.Nodup) :
    (a.free vs).pages = (vs.toFinset.image (· / a.pageSize)).val + a.pages := by
  rw [pages_free_eq hgroup]
  split
  · next hone =>
    have hid : (fun x : ℕ => x / a.pageSize) = id := by
      funext x
      rw [hone, Nat.div_one, id]
    rw [hid, Finset.image_id, toFinset_val, hvs.dedup]
  · rw [coe_unique]
    congr 2
    ext p
    simp

end Allocator

namespace SWAAllocator

variable {s s' : SWAAllocator} {c : Call}

/-- Both pools have the same page size and are in no free group of their own. -/
structure Sound (ps : ℕ) (s : SWAAllocator) : Prop where
  full : s.full.Settled ps
  swa : s.swa.Settled ps

/-- A new page is a matter of the lengths. -/
theorem short_map {a : Allocator} (m : ℕ → ℕ) (ds : List (ℕ × ℤ)) :
    a.Short (ds.map fun d => (d.1, translate m d.2)) ↔ a.Short ds := by
  unfold Short
  rw [countP_map]
  rfl

/-- What a failed `alloc_decode` leaves: the pool that was not short has lost pages. -/
theorem allocDecode_none {ps : ℕ} {ds : List (ℕ × ℤ)} (hs : s.Sound ps)
    (h : s.allocDecode ds = some (s', none)) :
    (∃ full swa, s' = { s with full := full, swa := swa }) ∧ s'.Sound ps ∧
      s'.full.pages ≤ s.full.pages ∧ s'.swa.pages ≤ s.swa.pages ∧ (s.full.Short ds ∨ s.swa.Short ds) ∧
      (s'.full.pages = s.full.pages ↔ s.full.Short ds) ∧
      (s'.swa.pages = s.swa.pages ↔ s.swa.Short ds) := by
  set ds' := ds.map fun d => (d.1, translate s.mapping d.2)
  obtain ⟨hsame, hle, hfull⟩ := allocDecode_cases hs.full.released ds
  obtain ⟨hsame', hle', hswa⟩ := allocDecode_cases hs.swa.released ds'
  have hcount : (ds'.countP fun d => d.1 % s.swa.pageSize = 1) = ds.countP fun d => d.1 % ps = 1 := by
    rw [countP_map, hs.swa.pageSize_eq]
    rfl
  rw [show s.swa.Short ds' ↔ s.swa.Short ds from short_map s.mapping ds, hcount] at hswa
  rw [hs.full.pageSize_eq] at hfull
  have hpos : s.full.Short ds ∨ s.swa.Short ds → 0 < ds.countP fun d => d.1 % ps = 1 := by
    rintro (hshort | hshort)
    · exact hs.full.pageSize_eq ▸ hshort.pos
    · exact hs.swa.pageSize_eq ▸ hshort.pos
  have hresult : s' = { s with full := (s.full.allocDecode ds).1, swa := (s.swa.allocDecode ds').1 } ∧
      ¬ ((∃ out, (s.full.allocDecode ds).2 = some out) ∧ ∃ out, (s.swa.allocDecode ds').2 = some out) := by
    unfold allocDecode at h
    split at h
    · cases h
    · rcases hF : s.full.allocDecode ds with ⟨full, _ | out⟩ <;>
        rcases hG : s.swa.allocDecode ds' with ⟨swa, _ | out'⟩ <;> rw [hF, hG] at h <;> cases h <;> simp
  obtain ⟨rfl, hnot⟩ := hresult
  have hone : s.full.Short ds ∨ s.swa.Short ds := by
    by_contra hboth
    rw [not_or] at hboth
    exact hnot ⟨(hfull.resolve_left fun h => hboth.1 h.1).2.1, (hswa.resolve_left fun h => hboth.2 h.1).2.1⟩
  have hiff : ∀ {P P' : Multiset ℕ} {short some : Prop} {none : Prop}, (short ∧ none ∧ P' = P ∨ ¬ short ∧ some ∧
        card P = (ds.countP fun d => d.1 % ps = 1) + card P') → (P' = P ↔ short) := by
    rintro P P' short some none (⟨hshort, -, heq⟩ | ⟨hroom, -, hcard⟩)
    · exact iff_of_true heq hshort
    · refine iff_of_false (fun heq => ?_) hroom
      have := hpos hone
      rw [heq] at hcard
      omega
  exact ⟨⟨_, _, rfl⟩, ⟨hs.full.same hsame, hs.swa.same hsame'⟩, hle, hle', hone, hiff hfull, hiff hswa⟩

/-- The other two methods look before they take. -/
theorem alloc_none {n : ℕ} (h : s.alloc n = some (s', none)) : s' = s := by
  unfold alloc at h
  split_ifs at h
  · cases h
    rfl
  · cases h
    rfl
  · split at h <;> cases h

theorem allocExtend_none {rs : List ExtendReq} {n : ℕ} (h : s.allocExtend rs n = some (s', none)) : s' = s := by
  unfold allocExtend at h
  dsimp only at h
  split_ifs at h
  · cases h
    rfl
  · cases h
    rfl
  · split at h <;> cases h

/-- **A failed allocation is atomic**, except for an `alloc_decode` that finds exactly one pool short. -/
theorem failed_allocation_atomic_iff {ps : ℕ} (hs : s.Sound ps) (h : s.call c = some (s', none)) :
    (s'.full.pages = s.full.pages ∧ s'.swa.pages = s.swa.pages ∧ s'.mapping = s.mapping) ↔
      ¬ ∃ ds, c = .allocDecode ds ∧ ¬ (s.full.Short ds ↔ s.swa.Short ds) := by
  cases c with
  | alloc n =>
    obtain rfl := alloc_none h
    simp
  | allocExtend rs n =>
    obtain rfl := allocExtend_none h
    simp
  | allocDecode ds =>
    obtain ⟨⟨full, swa, hs'⟩, -, -, -, hone, hfull, hswa⟩ := allocDecode_none hs h
    have hmap : s'.mapping = s.mapping := by rw [hs']
    simp only [hmap, hfull, hswa, Call.allocDecode.injEq, exists_eq_left', and_true]
    tauto
  | free | freeSwa | freeGroupBegin | freeGroupEnd => simp [call] at h

/-- Pages of two slots. The full pool has handed out its only page; the SWA pool has another one. -/
def fullShort : SWAAllocator :=
  ⟨⟨2, false, [], [], true, []⟩, ⟨2, false, [2], [], true, []⟩, 2, 4, assign (fun _ => 0) [2, 3] [2, 3],
    true, []⟩

/-- The third token of the sequence gets no slot, and page 2 of the SWA pool is gone. -/
theorem failed_decode_takes_swa_page :
    ∃ s', fullShort.call (.allocDecode [(3, 3)]) = some (s', none) ∧ fullShort.swa.pages = {2} ∧
      s'.swa.pages = 0 :=
  ⟨_, rfl, rfl, rfl⟩

/-- Two sequences come to a new page, and neither pool has two: nothing is lost. -/
theorem failed_allocation_atomic_both_short :
    ∃ s', fullShort.call (.allocDecode [(3, 3), (5, 3)]) = some (s', none) ∧
      s'.swa.pages = fullShort.swa.pages := by
  have hsound : fullShort.Sound 2 := ⟨⟨rfl, rfl, fun _ => rfl⟩, rfl, rfl, fun _ => rfl⟩
  have hrun : fullShort.call (.allocDecode [(3, 3), (5, 3)]) = some (_, none) := rfl
  refine ⟨_, hrun, ((failed_allocation_atomic_iff hsound hrun).mpr ?_).2.1⟩
  rintro ⟨ds, hds, hne⟩
  cases hds
  exact hne (by decide)

end SWAAllocator

/-! ## New slots are linked one by one -/

section Growth

variable {ps N n : ℕ} {r : ExtendReq} {z : ℤ} {F G : List ℕ} {R R' : Multiset ℕ} {closed held : Finset ℕ}
  {P P' : Pools} {m : ℕ → ℕ}

theorem assign_snoc {f g : ℕ → ℕ} : assign m ((range (n + 1)).map f) ((range (n + 1)).map g) =
      Function.update (assign m ((range n).map f) ((range n).map g)) (f n) (g n) := by
  unfold assign
  rw [range_succ, map_append, map_append, zip_append (by simp), foldl_append]
  rfl

theorem assign_append {ks vs ks' vs' : List ℕ} (h : ks.length = vs.length) :
    assign m (ks ++ ks') (vs ++ vs') = assign (assign m ks vs) ks' vs' := by
  unfold assign
  rw [zip_append h, foldl_append]

/-- How many new pages the first `n` slots of a request are on. -/
def begun (ps : ℕ) (r : ExtendReq) (n : ℕ) : ℕ := pageCount ps (r.prefixLen + n) - pageCount ps r.prefixLen

/-- At a page boundary the extension begins the next new page. -/
theorem extendSlot_begin (hps : 0 < ps) (hm : (r.prefixLen + n) % ps = 0) :
    extendSlot ps r F n = F.getD (begun ps r n) 0 * ps := by
  have hdvd : ps ∣ r.prefixLen + n := Nat.dvd_of_mod_eq_zero hm
  have hcount := pageCount_of_dvd hps hdvd
  have hmono : pageCount ps r.prefixLen ≤ pageCount ps (r.prefixLen + n) := pageCount_mono (by omega)
  have hmul := Nat.mul_le_mul_right ps (hcount ▸ hmono)
  rw [Nat.div_mul_cancel hdvd] at hmul
  rw [extendSlot, if_neg (by omega), hm, Nat.add_zero, begun, hcount]

theorem extendSlot_zero (hps : 0 < ps) (hm : r.prefixLen % ps ≠ 0) :
    extendSlot ps r F 0 = (r.lastLoc + 1).toNat := by
  have hle : r.prefixLen ≤ pageCount ps r.prefixLen * ps := le_pageCount_mul hps
  have hne : r.prefixLen ≠ pageCount ps r.prefixLen * ps := fun heq => hm (by
    rw [heq, Nat.mul_mod_left])
  rw [extendSlot, if_pos (by omega), Nat.cast_zero, add_zero]

theorem take_drop_getD {K j : ℕ} (hK : K ≤ F.length) (hj : j < K) :
    (F.take K).drop j = F.getD j 0 :: (F.take K).drop (j + 1) := by
  rw [drop_eq_getElem_cons (by simp; omega), getElem_take, getD_eq_getElem _ _ (by omega)]

/-- The request goes on behind its prefix: the last slot of a partial page is the last one in use there,
and is not about to be freed. -/
def Behind (ps : ℕ) (used held : Finset ℕ) (r : ExtendReq) : Prop :=
  r.prefixLen ≤ r.seqLen ∧ (r.prefixLen % ps ≠ 0 → 0 ≤ r.lastLoc ∧ Last ps used r.lastLoc.toNat ∧
    r.lastLoc.toNat ∉ held ∧ (r.lastLoc.toNat + 1) % ps = r.prefixLen % ps)

/-- `n` slots of a request have been handed out; `F` and `G` are the free pages of the two pools. -/
structure Handed (ps : ℕ) (held : Finset ℕ) (r : ExtendReq) (z : ℤ) (F G : List ℕ) (R R' : Multiset ℕ)
    (n : ℕ) (P P' : Pools) : Prop where
  grown : ReflTransGen (Grow ps held) P P'
  first : P'.first = ((F.take (r.numNewPages ps)).drop (begun ps r n) :) + R
  second : P'.second = ((G.take (r.numNewPages ps)).drop (begun ps r n) :) + R'
  link : P'.link = assign P.link ((List.range n).map (extendSlot ps r F))
    ((List.range n).map (extendSlot ps { r with lastLoc := z } G))
  used : P'.used = P.used ∪ ((List.range n).map (extendSlot ps r F)).toFinset
  tip : (r.prefixLen + n) % ps ≠ 0 → ∃ x, extendSlot ps r F n = x + 1 ∧
    extendSlot ps { r with lastLoc := z } G n = P'.link x + 1 ∧ Last ps P'.used x ∧ x ∉ held ∧
    (x + 1) % ps = (r.prefixLen + n) % ps

theorem handed_zero (hps : 0 < ps) (hb : Behind ps P.used held r)
    (hz : r.prefixLen % ps ≠ 0 → z = P.link r.lastLoc.toNat)
    (hfirst : P.first = (F.take (r.numNewPages ps) : Multiset ℕ) + R)
    (hsecond : P.second = (G.take (r.numNewPages ps) : Multiset ℕ) + R') :
    Handed ps held r z F G R R' 0 P P := by
  refine ⟨.refl, by simpa [begun] using hfirst, by simpa [begun] using hsecond, rfl, by simp, fun hm => ?_⟩
  rw [Nat.add_zero] at hm ⊢
  obtain ⟨hlast, htop, hheld, hmod⟩ := hb.2 hm
  refine ⟨r.lastLoc.toNat, ?_, ?_, htop, hheld, hmod⟩
  · rw [extendSlot_zero hps hm]
    omega
  · rw [extendSlot_zero (r := { r with lastLoc := z }) hps hm, hz hm]
    dsimp only
    omega

section

variable (hinv : P.Inv ps N closed held) (hb : Behind ps P.used held r)
  (hz : r.prefixLen % ps ≠ 0 → z = P.link r.lastLoc.toNat) (hF : r.numNewPages ps ≤ F.length)
  (hG : r.numNewPages ps ≤ G.length)
include hinv hb hz hF hG

omit hF hG in
/-- The next slot of the request is `y`, linked to `w`. -/
theorem Handed.grow {P₂ : Pools} {y w : ℕ} (h : Handed ps held r z F G R R' n P P') (hg : Grow ps held P' P₂)
    (hy : extendSlot ps r F n = y) (hw : extendSlot ps { r with lastLoc := z } G n = w)
    (hlink : P₂.link = Function.update P'.link y w) (hused : P₂.used = insert y P'.used)
    (hfirst : P₂.first = ((F.take (r.numNewPages ps)).drop (begun ps r (n + 1)) :) + R)
    (hsecond : P₂.second = ((G.take (r.numNewPages ps)).drop (begun ps r (n + 1)) :) + R')
    (hlast : ∀ x ∈ P'.used, x / ps = y / ps → x ≤ y) (hheld : y ∉ held)
    (hmod : y % ps = (r.prefixLen + n) % ps) : Handed ps held r z F G R R' (n + 1) P P₂ := by
  refine ⟨h.grown.tail hg, hfirst, hsecond, ?_, ?_, fun hm => ⟨y, ?_, ?_, ?_, hheld, ?_⟩⟩
  · rw [assign_snoc, ← h.link, hy, hw, hlink]
  · rw [hused, h.used, range_succ, map_append, toFinset_append, ← Finset.union_assoc, Finset.insert_eq,
      Finset.union_comm, ← hy]
    rfl
  · rw [extendSlot_succ hinv.ps_pos (fun h₀ => (hb.2 h₀).1) hm, hy]
  · rw [extendSlot_succ (r := { r with lastLoc := z }) hinv.ps_pos (fun h₀ =>
      by simp only [hz h₀, Nat.cast_nonneg]) hm,
      hw, hlink, Function.update_self]
  · rw [hused]
    exact ⟨Finset.mem_insert_self _ _, (Finset.forall_mem_insert _ _ _).mpr ⟨fun _ => le_rfl, hlast⟩⟩
  · rw [← Nat.add_assoc, Nat.add_mod, hmod, ← Nat.add_mod]

/-- One more slot: a fresh page of each pool at a page boundary, else the next slot. -/
theorem Handed.succ (h : Handed ps held r z F G R R' n P P')
    (hn : r.prefixLen + n < r.seqLen) : ∃ P₂, Handed ps held r z F G R R' (n + 1) P P₂ := by
  have hps := hinv.ps_pos
  obtain ⟨hinv', -, -⟩ := grown_inv hinv h.grown
  have hcount : pageCount ps (r.prefixLen + (n + 1)) = (r.prefixLen + n) / ps + 1 := pageCount_succ hps
  by_cases hm : (r.prefixLen + n) % ps = 0
  · have hj := pageCount_of_dvd hps (Nat.dvd_of_mod_eq_zero hm)
    have hmono : pageCount ps r.prefixLen ≤ pageCount ps (r.prefixLen + n) := pageCount_mono (by omega)
    have hlt := div_lt_pageCount hps hn
    have hstep : begun ps r (n + 1) = begun ps r n + 1 := by
      unfold begun
      omega
    have hjK : begun ps r n < r.numNewPages ps := by
      unfold numNewPages begun
      omega
    have hfirst := h.first
    have hsecond := h.second
    rw [take_drop_getD hF hjK, ← cons_coe, cons_add] at hfirst
    rw [take_drop_getD hG hjK, ← cons_coe, cons_add] at hsecond
    set p := F.getD (begun ps r n) 0
    set q := G.getD (begun ps r n) 0
    have hp : p ∈ P'.first := hfirst ▸ Multiset.mem_cons_self _ _
    have hq : q ∈ P'.second := hsecond ▸ Multiset.mem_cons_self _ _
    have hfree : ∀ y ∈ P'.used, y / ps ≠ p := fun y hy heq => hinv'.first_unused y hy (heq ▸ hp)
    have hdiv : p * ps / ps = p := Nat.mul_div_cancel p hps
    refine ⟨P'.begin ps p q, h.grow hinv hb hz (.begin hp hq) (extendSlot_begin hps hm)
      (extendSlot_begin (r := { r with lastLoc := z }) hps hm) rfl rfl ?_ ?_
      (fun x hx heq => ?_) (fun hheld => ?_) ?_⟩
    · rw [hstep, begin, hfirst, Multiset.erase_cons_head]
    · rw [hstep, begin, hsecond, Multiset.erase_cons_head]
    · exact absurd (heq.trans hdiv) (hfree x hx)
    · exact hfree _ (hinv'.held_whole.1 hheld) hdiv
    · rw [Nat.mul_mod_left, hm]
  · obtain ⟨x, hslot, hslot', hlast, hheld, hmod⟩ := h.tip hm
    have hstep : begun ps r (n + 1) = begun ps r n := by
      obtain ⟨k, hk⟩ : ∃ k, r.prefixLen + n = k + 1 := Nat.exists_eq_succ_of_ne_zero fun h₀ => hm (by
        rw [h₀, Nat.zero_mod])
      have hne : ¬ ps ∣ k + 1 := fun hd => hm (hk ▸ Nat.mod_eq_zero_of_dvd hd)
      rw [begun, begun, hcount, hk, pageCount_succ hps, Nat.succ_div, if_neg hne, Nat.add_zero]
    have hdiv : (x + 1) / ps = x / ps := by
      rw [Nat.succ_div, if_neg fun hd => hm (hmod ▸ Nat.mod_eq_zero_of_dvd hd), Nat.add_zero]
    have hnew : x + 1 ∉ P'.used := fun hmem => absurd (hlast.2 _ hmem hdiv) (by omega)
    refine ⟨P'.next x, h.grow hinv hb hz (.next hlast hheld (hmod ▸ hm)) hslot hslot' rfl rfl ?_ ?_
      (fun y hy heq => ?_)
      (fun hmem => hnew (hinv'.held_whole.1 hmem)) hmod⟩
    · rw [hstep]
      exact h.first
    · rw [hstep]
      exact h.second
    · exact (hlast.2 y hy (heq.trans hdiv)).trans (Nat.le_succ x)

/-- A request of the batch gets its slots. -/
theorem grow_request (hfirst : P.first = (F.take (r.numNewPages ps) : Multiset ℕ) + R)
    (hsecond : P.second = (G.take (r.numNewPages ps) : Multiset ℕ) + R') :
    ∃ P', ReflTransGen (Grow ps held) P P' ∧ P'.first = R ∧ P'.second = R' ∧
      P'.link = assign P.link (extendProgram ps r F) (extendProgram ps { r with lastLoc := z } G) ∧
      P'.used = P.used ∪ (extendProgram ps r F).toFinset := by
  have hrun : ∀ n, r.prefixLen + n ≤ r.seqLen → ∃ P', Handed ps held r z F G R R' n P P' := by
    intro n
    induction n with
    | zero => exact fun _ => ⟨P, handed_zero hinv.ps_pos hb hz hfirst hsecond⟩
    | succ n ih =>
      intro hn
      obtain ⟨P', h⟩ := ih (by omega)
      exact h.succ hinv hb hz hF hG (by omega)
  have hle := hb.1
  obtain ⟨P', h⟩ := hrun (r.seqLen - r.prefixLen) (by omega)
  have hall : begun ps r (r.seqLen - r.prefixLen) = r.numNewPages ps := by
    rw [begun, Nat.add_sub_cancel' hle]
    rfl
  have hfirst' := h.first
  have hsecond' := h.second
  rw [hall, drop_of_length_le (by simp), Multiset.coe_nil, zero_add] at hfirst' hsecond'
  rw [extendProgram_eq hinv.ps_pos hle, extendProgram_eq (r := { r with lastLoc := z }) hinv.ps_pos hle]
  exact ⟨P', h.grown, hfirst', hsecond', h.link, h.used⟩

end

/-- The requests of a batch go on behind their prefixes, on different pages. -/
structure Continues (ps : ℕ) (used held : Finset ℕ) (rs : List ExtendReq) : Prop where
  behind : ∀ r ∈ rs, Behind ps used held r
  apart : rs.Pairwise fun r r' => r.prefixLen % ps ≠ 0 → r'.prefixLen % ps ≠ 0 →
    r.lastLoc.toNat / ps ≠ r'.lastLoc.toNat / ps

/-- **A batch gets its slots one by one.** `t` gives the last locations in the second pool. -/
theorem grow_batch {t : ExtendReq → ℤ} {rs : List ExtendReq} (hinv : P.Inv ps N closed held)
    (hb : Continues ps P.used held rs) (ht : ∀ r ∈ rs, r.prefixLen % ps ≠ 0 → t r = P.link r.lastLoc.toNat)
    (hF : (rs.map (numNewPages ps)).sum ≤ F.length)
    (hG : (rs.map (numNewPages ps)).sum ≤ G.length)
    (hfirst : P.first = (F.take (rs.map (numNewPages ps)).sum : Multiset ℕ) + R)
    (hsecond : P.second = (G.take (rs.map (numNewPages ps)).sum : Multiset ℕ) + R') :
    ∃ P', ReflTransGen (Grow ps held) P P' ∧ P'.first = R ∧ P'.second = R' ∧
      P'.link = assign P.link (allocExtendKernel ps rs F)
        (allocExtendKernel ps (rs.map fun r => { r with lastLoc := t r }) G) ∧
      P'.used = P.used ∪ (allocExtendKernel ps rs F).toFinset := by
  induction rs generalizing P F G with
  | nil => exact ⟨P, .refl, by simpa using hfirst, by simpa using hsecond, rfl, by simp [allocExtendKernel]⟩
  | cons r rs ih =>
    rw [map_cons, sum_cons] at hF hG hfirst hsecond
    rw [take_add, ← Multiset.coe_add, add_assoc] at hfirst hsecond
    obtain ⟨hapart, hpw⟩ := pairwise_cons.mp hb.apart
    -- while the first request grows, the pages of the others are held
    set T := P.used.filter fun y => ∃ r' ∈ rs, r'.prefixLen % ps ≠ 0 ∧ y / ps = r'.lastLoc.toNat / ps
    have hwhole : Whole ps P.used (held ∪ T) := by
      refine hinv.held_whole.union ⟨Finset.filter_subset _ _, fun x hx y hy heq => ?_⟩
      obtain ⟨-, r', hr', hpart, hpage⟩ := mem_filter.mp hx
      exact mem_filter.mpr ⟨hy, r', hr', hpart, heq.trans hpage⟩
    have hbehind : Behind ps P.used (held ∪ T) r := by
      refine ⟨(hb.behind r (.head _)).1, fun hpart => ?_⟩
      obtain ⟨hlast, htop, hheld, hmod⟩ := (hb.behind r (.head _)).2 hpart
      refine ⟨hlast, htop, fun hmem => ?_, hmod⟩
      rcases Finset.mem_union.mp hmem with hmem | hmem
      · exact hheld hmem
      · obtain ⟨-, r', hr', hpart', hpage⟩ := mem_filter.mp hmem
        exact hapart r' hr' hpart hpart' hpage
    obtain ⟨P₁, hgrown, hfirst₁, hsecond₁, hlink₁, hused₁⟩ := grow_request (hinv.hold hwhole) hbehind
      (ht r (.head _)) (by omega) (by omega) hfirst hsecond
    obtain ⟨hinv₁, hsub₁, hstay₁⟩ := grown_inv (hinv.hold hwhole) hgrown
    have hgrown' : ReflTransGen (Grow ps held) P P₁ :=
      Relation.ReflTransGen.mono (fun _ _ => Pools.Grow.mono Finset.subset_union_left) _ _ hgrown
    have hcont : Continues ps P₁.used held rs := by
      refine ⟨fun r' hr' => ⟨(hb.behind r' (.tail _ hr')).1, fun hpart => ?_⟩, hpw⟩
      obtain ⟨hlast, htop, hheld, hmod⟩ := (hb.behind r' (.tail _ hr')).2 hpart
      refine ⟨hlast, ⟨hsub₁ htop.1, fun y hy heq => ?_⟩, hheld, hmod⟩
      have hT : r'.lastLoc.toNat ∈ held ∪ T :=
        Finset.mem_union_right _ (mem_filter.mpr ⟨htop.1, r', hr', hpart, rfl⟩)
      exact htop.2 y (hwhole.1 (hinv₁.held_whole.2 _ hT y hy heq)) heq
    have ht₁ : ∀ r' ∈ rs, r'.prefixLen % ps ≠ 0 → t r' = P₁.link r'.lastLoc.toNat := by
      intro r' hr' hpart
      rw [ht r' (.tail _ hr') hpart, hstay₁ _ ((hb.behind r' (.tail _ hr')).2 hpart).2.1.1]
    obtain ⟨P', hrest, hfirst', hsecond', hlink', hused'⟩ := ih (grown_inv hinv hgrown').1 hcont ht₁
      (by rw [length_drop]; omega) (by rw [length_drop]; omega) hfirst₁ hsecond₁
    have hlen : (extendProgram ps r F).length = (extendProgram ps { r with lastLoc := t r } G).length := by
      rw [length_extendProgram hinv.ps_pos hbehind.1,
        length_extendProgram (r := { r with lastLoc := t r }) hinv.ps_pos hbehind.1]
    refine ⟨P', hgrown'.trans hrest, hfirst', hsecond', ?_, ?_⟩
    · rw [hlink', hlink₁, map_cons, allocExtendKernel, allocExtendKernel, assign_append hlen]
      rfl
    · rw [hused', hused₁, allocExtendKernel, toFinset_append, Finset.union_assoc]

end Growth

/-! ## Runs -/

namespace SWAAllocator

/-- The allocator with the full slots in use, and those among them whose SWA part was freed. -/
structure Tracked where
  alloc : SWAAllocator
  used : Finset ℕ
  closed : Finset ℕ

/-- The slots freed in the current free group. -/
def held (s : SWAAllocator) : Finset ℕ := if s.isNotInFreeGroup then ∅ else s.freeGroup.flatten.toFinset

/-- How the methods are called: slots are freed by pages and once, an extension goes on where its sequence
ended, a free group is ended once. -/
def Legal (ps : ℕ) (σ : Tracked) : Call → Prop
  | .alloc _ => True
  | .allocExtend rs n => Continues ps σ.used σ.alloc.held rs ∧ n = (rs.map fun r => r.seqLen - r.prefixLen).sum
  | .allocDecode ds => (∀ d ∈ ds, 0 < d.1) ∧ Continues ps σ.used σ.alloc.held (ds.map decodeReq)
  | .free vs => vs.Nodup ∧ Whole ps σ.used vs.toFinset ∧ Disjoint vs.toFinset σ.alloc.held
  | .freeSwa vs => vs.Nodup ∧ vs.toFinset ⊆ σ.used ∧ ∀ x ∈ vs, ∀ y, y / ps = x / ps → y ∈ vs
  | .freeGroupBegin => True
  | .freeGroupEnd => σ.alloc.isNotInFreeGroup = false

/-- What is in use after a call. -/
def Tracked.after (σ : Tracked) (s' : SWAAllocator) (out : Option (List ℕ)) : Call → Tracked
  | .free vs =>
    if σ.alloc.isNotInFreeGroup then ⟨s', σ.used \ vs.toFinset, σ.closed \ vs.toFinset⟩
    else ⟨s', σ.used, σ.closed⟩
  | .freeSwa vs => ⟨s', σ.used, σ.closed ∪ vs.toFinset⟩
  | .freeGroupBegin => ⟨s', σ.used, σ.closed⟩
  | .freeGroupEnd => ⟨s', σ.used \ σ.alloc.held, σ.closed \ σ.alloc.held⟩
  | _ => ⟨s', σ.used ∪ (out.getD []).toFinset, σ.closed⟩

/-- A legal call that raises nothing. -/
def Step (ps : ℕ) (σ : Tracked) (c : Call) (σ' : Tracked) : Prop :=
  Legal ps σ c ∧ ∃ s' out, σ.alloc.call c = some (s', out) ∧ σ' = σ.after s' out c

/-- `alloc_decode` finds the full pool short and the SWA pool not. -/
def FullAloneShort (s : SWAAllocator) (c : Call) : Prop :=
  ∃ ds, c = .allocDecode ds ∧ s.full.Short ds ∧ ¬ s.swa.Short ds

/-- The states of runs in which this does not happen. -/
def Reachable (ps : ℕ) (needSort : Bool) (sizeFull sizeSwa : ℕ) : Tracked → Prop :=
  ReflTransGen (fun σ σ' => ∃ c, Step ps σ c σ' ∧ ¬ FullAloneShort σ.alloc c)
    ⟨clear ps needSort sizeFull sizeSwa, ∅, ∅⟩

/-- The mapping and the SWA pool agree. `N` is the number of SWA pages. -/
structure InStep (ps N : ℕ) (σ : Tracked) : Prop where
  injOn : Set.InjOn σ.alloc.mapping (σ.used \ σ.closed : Finset ℕ)
  allocated : ∀ x ∈ σ.used \ σ.closed, 1 ≤ σ.alloc.mapping x / ps ∧ σ.alloc.mapping x / ps ≤ N ∧
    σ.alloc.mapping x / ps ∉ σ.alloc.swa.pages
  zero : ∀ x, x ∉ σ.used \ σ.closed → σ.alloc.mapping x = 0
  free_iff : ∀ q, 1 ≤ q → q ≤ N → (q ∈ σ.alloc.swa.pages ↔ ∀ x ∈ σ.used, σ.alloc.mapping x / ps ≠ q)

def Tracked.pools (σ : Tracked) : Pools := ⟨σ.alloc.full.pages, σ.alloc.swa.pages, σ.alloc.mapping, σ.used⟩

/-- The invariant of the runs. -/
structure Books (ps N : ℕ) (σ : Tracked) : Prop where
  sound : σ.alloc.Sound ps
  inv : σ.pools.Inv ps N σ.closed σ.alloc.held
  group : σ.alloc.isNotInFreeGroup = false → σ.alloc.freeGroup.flatten.Nodup

variable {ps N : ℕ} {σ σ' : Tracked} {s s' : SWAAllocator} {c : Call} {rs : List ExtendReq} {live : Finset ℕ}
  {vs out : List ℕ}

theorem Books.inStep (h : Books ps N σ) : InStep ps N σ := by
  have hlink : Linked ps N σ.alloc.swa.pages σ.alloc.mapping (σ.used \ σ.closed) := h.inv.linked
  refine ⟨fun x hx y hy heq => hlink.injective hx hy heq, hlink.page, hlink.zero, fun q h₁ h₂ => ?_⟩
  refine (hlink.mem_free_iff h₁ h₂).trans ⟨fun hno x hx => ?_, fun hno x hx => ?_⟩
  · by_cases hc : x ∈ σ.closed
    · rw [hlink.zero x fun hm => (mem_sdiff.mp hm).2 hc, Nat.zero_div]
      omega
    · exact hno x (mem_sdiff.mpr ⟨hx, hc⟩)
  · exact hno x (mem_sdiff.mp hx).1

theorem books_clear (hps : 1 ≤ ps) (needSort : Bool) (sizeFull sizeSwa : ℕ) :
    Books ps (sizeSwa / ps) ⟨clear ps needSort sizeFull sizeSwa, ∅, ∅⟩ := by
  have hinv := Pools.inv_fresh hps (sizeFull / ps) (sizeSwa / ps)
  refine ⟨⟨⟨rfl, rfl, fun _ => rfl⟩, rfl, rfl, fun _ => rfl⟩, ?_, fun h => by cases h⟩
  simpa [Tracked.pools, clear, Allocator.clear, Allocator.pages, held] using hinv

/-- **New slots keep the books**, whichever of the three methods hands them out. -/
theorem Books.grow (h : Books ps N σ) {full swa : Allocator} {k : ℕ} {F G outFull outSwa : List ℕ}
    (hb : Continues ps σ.used σ.alloc.held rs) (hk : k = (rs.map (numNewPages ps)).sum)
    (hfull : Takes σ.alloc.full full k F) (hswa : Takes σ.alloc.swa swa k G)
    (hout : outFull = allocExtendKernel ps rs F)
    (hout' : outSwa = allocExtendKernel ps (rs.map (toSwa σ.alloc.mapping)) G) :
    Books ps N ⟨(σ.alloc.mapSlots full swa outFull outSwa).1, σ.used ∪ outFull.toFinset, σ.closed⟩ := by
  subst hk
  have ht : ∀ r ∈ rs, r.prefixLen % ps ≠ 0 →
      translate σ.alloc.mapping r.lastLoc = σ.pools.link r.lastLoc.toNat := by
    intro r hr hpart
    have := ((hb.behind r hr).2 hpart).1
    rw [translate, if_neg (by omega)]
    rfl
  obtain ⟨P', hgrown, hfirst, hsecond, hlink, hused⟩ :=
    grow_batch h.inv hb ht hfull.le hswa.le hfull.pages_eq hswa.pages_eq
  have hinv := (grown_inv h.inv hgrown).1
  obtain rfl : P' = ⟨full.pages, swa.pages, assign σ.alloc.mapping outFull outSwa,
    σ.used ∪ outFull.toFinset⟩ := by
    cases P'
    cases hfirst
    cases hsecond
    cases hlink
    cases hused
    rw [hout, hout']
    rfl
  exact ⟨⟨h.sound.full.same hfull.same, h.sound.swa.same hswa.same⟩, hinv, h.group⟩

/-- The mapped slots that `free_swa` finds are those of the live slots. -/
theorem freed_swa {free : Multiset ℕ} {m : ℕ → ℕ} (h : Linked ps N free m live) (hvs : vs.Nodup) :
    ((vs.map m).filter (0 < ·)).Nodup ∧ ((vs.map m).filter (0 < ·)).toFinset =
      (vs.toFinset ∩ live).image m := by
  have hpos : ∀ x, 0 < m x ↔ x ∈ live := fun x =>
    ⟨fun hx => by_contra fun hno => absurd (h.zero x hno) hx.ne', fun hx => h.pos hx⟩
  rw [filter_map]
  refine ⟨(hvs.filter _).map_on fun x hx y hy heq => ?_, ?_⟩
  · simp only [mem_filter, Function.comp_apply, decide_eq_true_eq, hpos] at hx hy
    exact h.injective hx.2 hy.2 heq
  · ext q
    simp [hpos, and_assoc]

/-- `free_swa` gives the SWA pages of the live slots back and cuts their links. -/
theorem pages_freeSwa (hs : s.Sound ps) (h : Linked ps N s.swa.pages s.mapping live) (hvs : vs.Nodup) :
    (s.freeSwa vs).Sound ps ∧ (s.freeSwa vs).swa.pages =
      ((vs.toFinset ∩ live).image fun x => s.mapping x / ps).val + s.swa.pages ∧
      (s.freeSwa vs).mapping = fun x => if x ∈ vs.toFinset then 0 else s.mapping x := by
  obtain ⟨hnodup, hset⟩ := freed_swa h hvs
  refine ⟨⟨hs.full, hs.swa.same same_free⟩, ?_, ?_⟩
  · rw [freeSwa, pages_free_image hs.swa.no_group hnodup, hset, hs.swa.pageSize_eq, Finset.image_image]
    rfl
  · simp [freeSwa]

theorem alloc_some {n : ℕ} (h : s.alloc n = some (s', some out)) :
    s.full.pageSize = 1 ∧ ∃ full swa outSwa, s.full.alloc n = (full, some out) ∧
      s.swa.alloc n = (swa, some outSwa) ∧ s' = (s.mapSlots full swa out outSwa).1 := by
  unfold alloc at h
  split_ifs at h with hps
  · cases h
  · cases h
  · split at h <;> cases h
    next hswa hfull => exact ⟨not_not.mp hps, _, _, _, hfull, hswa, rfl⟩

theorem allocExtend_some {n : ℕ} (h : s.allocExtend rs n = some (s', some out)) :
    ∃ full swa outSwa, s.full.allocExtend rs n = (full, some out) ∧
      s.swa.allocExtend (rs.map (toSwa s.mapping)) n = (swa, some outSwa) ∧
      s' = (s.mapSlots full swa out outSwa).1 := by
  unfold allocExtend at h
  dsimp only at h
  split_ifs at h
  · cases h
  · cases h
  · split at h <;> cases h
    next hswa hfull => exact ⟨_, _, _, hfull, hswa, rfl⟩

theorem allocDecode_some {ds : List (ℕ × ℤ)} (h : s.allocDecode ds = some (s', some out)) :
    1 < s.full.pageSize ∧ ∃ full swa outSwa, s.full.allocDecode ds = (full, some out) ∧
      s.swa.allocDecode (ds.map fun d => (d.1, translate s.mapping d.2)) = (swa, some outSwa) ∧
      s' = (s.mapSlots full swa out outSwa).1 := by
  unfold allocDecode at h
  split_ifs at h with hps
  split at h <;> cases h
  next hswa hfull => exact ⟨not_le.mp hps, _, _, _, hfull, hswa, rfl⟩

theorem free_spec (h : s.free vs = some s') : s' = if vs = [] then s
      else if s.isNotInFreeGroup then freeSwa { s with full := s.full.free vs } vs
      else { s with freeGroup := s.freeGroup ++ [vs] } := by
  unfold free at h
  dsimp only at h
  split_ifs at h ⊢ <;> exact (Option.some.inj h).symm

/-- **Slots given back outside a group keep the books.** -/
theorem books_give {used closed H : Finset ℕ} (hs : s.Sound ps)
    (hinv : Pools.Inv ps N closed H ⟨s.full.pages, s.swa.pages, s.mapping, used⟩) (hvs : vs.Nodup)
    (hw : Whole ps used vs.toFinset) (hflag : s.isNotInFreeGroup = true) (hrun : s.free vs = some s') :
    Books ps N ⟨s', used \ vs.toFinset, closed \ vs.toFinset⟩ := by
  have hs' := free_spec hrun
  by_cases hnil : vs = []
  · rw [if_pos hnil] at hs'
    subst hs' hnil
    refine ⟨hs, ?_, fun h => by rw [hflag] at h; cases h⟩
    have hempty : Whole ps used ∅ := by simp [Whole]
    simpa [held, hflag, Tracked.pools] using hinv.hold hempty
  · rw [if_neg hnil, if_pos hflag] at hs'
    have hs₁ : Sound ps { s with full := s.full.free vs } := ⟨hs.full.same same_free, hs.swa⟩
    obtain ⟨hsound, hpages, hmap⟩ := pages_freeSwa hs₁ hinv.linked hvs
    have hfull : s'.full.pages = (vs.toFinset.image (· / ps)).val + s.full.pages := by
      rw [hs']
      dsimp only [freeSwa]
      rw [pages_free_image hs.full.no_group hvs, hs.full.pageSize_eq]
    have hgroup : s'.isNotInFreeGroup = true := by rw [hs']; exact hflag
    rw [← hs'] at hsound hpages hmap
    refine ⟨hsound, ?_, fun h => by rw [hgroup] at h; cases h⟩
    rw [Tracked.pools, held, if_pos hgroup, hfull, hpages, hmap]
    exact hinv.give hw

/-- **Every legal call keeps the books**, unless `alloc_decode` finds the full pool alone short. -/
theorem Books.step (h : Books ps N σ) (hstep : Step ps σ c σ') (hok : ¬ FullAloneShort σ.alloc c) :
    Books ps N σ' := by
  obtain ⟨hlegal, s', out, hrun, rfl⟩ := hstep
  cases c with
  | alloc n =>
    cases out with
    | none =>
      obtain rfl := alloc_none hrun
      simpa [Tracked.after] using h
    | some out =>
      obtain ⟨hone, full, swa, outSwa, hfull, hswa, rfl⟩ := alloc_some hrun
      obtain ⟨F, htakes, hout⟩ := alloc_spec hfull
      obtain ⟨G, htakes', hout'⟩ := alloc_spec hswa
      obtain rfl : 1 = ps := hone.symm.trans h.sound.full.pageSize_eq
      -- slots of one page each: an extension of an empty prefix
      have hnum : ∀ z, ([⟨0, n, z⟩] : List ExtendReq).map (numNewPages 1) = [n] := fun z => by
        simp [numNewPages, pageCount]
      have hkernel : ∀ z F, n ≤ F.length → allocExtendKernel 1 [⟨0, n, z⟩] F = F.take n := by
        intro z F hF
        rw [allocExtendKernel_one (by simp) (by simpa [hnum] using hF), hnum, sum_singleton]
      have hcont : Continues 1 σ.used σ.alloc.held [⟨0, n, -1⟩] := ⟨by simp [Behind, Nat.mod_one], by simp⟩
      refine h.grow hcont (by rw [hnum, sum_singleton]) htakes htakes'
        (by rw [hout, hkernel _ _ htakes.le]) ?_
      rw [hout', map_singleton]
      exact (hkernel _ _ htakes'.le).symm
  | allocExtend rs n =>
    cases out with
    | none =>
      obtain rfl := allocExtend_none hrun
      simpa [Tracked.after] using h
    | some out =>
      obtain ⟨full, swa, outSwa, hfull, hswa, rfl⟩ := allocExtend_some hrun
      obtain ⟨F, htakes, hout⟩ := allocExtend_spec hfull
      obtain ⟨G, htakes', hout'⟩ := allocExtend_spec hswa
      rw [h.sound.full.pageSize_eq] at htakes hout
      rw [h.sound.swa.pageSize_eq, map_map] at htakes'
      rw [h.sound.swa.pageSize_eq] at hout'
      exact h.grow hlegal.1 rfl htakes htakes' hout hout'
  | allocDecode ds =>
    cases out with
    | none =>
      obtain ⟨⟨full, swa, rfl⟩, hsound, hle, -, hone, -, hswa⟩ := allocDecode_none h.sound hrun
      have hshort : σ.alloc.swa.Short ds := by
        by_contra hroom
        exact hok ⟨ds, rfl, hone.resolve_right hroom, hroom⟩
      have hlose := h.inv.lose hle
      have hafter : ∀ s', σ.after s' none (.allocDecode ds) = ⟨s', σ.used, σ.closed⟩ := fun s' => by
        simp [Tracked.after]
      rw [hafter]
      refine ⟨hsound, ?_, h.group⟩
      rw [Tracked.pools, hswa.mpr hshort]
      exact hlose
    | some out =>
      obtain ⟨hps, full, swa, outSwa, hfull, hswa, rfl⟩ := allocDecode_some hrun
      set ds' := ds.map fun d => (d.1, translate σ.alloc.mapping d.2)
      have hps' : 1 < σ.alloc.swa.pageSize := by rwa [h.sound.swa.pageSize_eq, ← h.sound.full.pageSize_eq]
      have hpos : ∀ d ∈ ds', 0 < d.1 := by
        intro d hd
        obtain ⟨d₀, hd₀, rfl⟩ := mem_map.mp hd
        exact hlegal.1 d₀ hd₀
      obtain ⟨F, htakes, hout⟩ := allocDecode_spec hps hlegal.1 hfull
      obtain ⟨G, htakes', hout'⟩ := allocDecode_spec hps' hpos hswa
      rw [h.sound.full.pageSize_eq] at htakes hout
      have hreqs : ds'.map decodeReq = (ds.map decodeReq).map (toSwa σ.alloc.mapping) := by
        rw [map_map, map_map]
        rfl
      rw [h.sound.swa.pageSize_eq, hreqs] at htakes' hout'
      rw [map_map] at htakes'
      exact h.grow hlegal.2 rfl htakes htakes' hout hout'
  | free vs =>
    obtain ⟨hvs, hw, hdisj⟩ := hlegal
    obtain ⟨s₁, hfree, heq⟩ := Option.map_eq_some_iff.mp hrun
    cases heq
    unfold Tracked.after
    dsimp only
    split
    · next hflag => exact books_give h.sound h.inv hvs hw hflag hfree
    · next hflag =>
      have hs' := free_spec hfree
      by_cases hnil : vs = []
      · rw [if_pos hnil] at hs'
        subst hs'
        exact h
      · rw [if_neg hnil, if_neg hflag] at hs'
        subst hs'
        have hheld : σ.alloc.held = σ.alloc.freeGroup.flatten.toFinset := by simp [held, hflag]
        have hheld' : held { σ.alloc with freeGroup := σ.alloc.freeGroup ++ [vs] } =
            σ.alloc.held ∪ vs.toFinset := by simp [held, hflag]
        refine ⟨{ h.sound with }, ?_, fun _ => ?_⟩
        · exact h.inv.hold (hheld' ▸ h.inv.held_whole.union hw)
        · have hgroup := h.group (by simpa using hflag)
          rw [hheld, Finset.disjoint_left] at hdisj
          rw [flatten_append, flatten_singleton]
          refine hgroup.append hvs fun x hx hx' => ?_
          exact hdisj (mem_toFinset.mpr hx') (mem_toFinset.mpr hx)
  | freeSwa vs =>
    obtain ⟨hvs, hsub, hfull⟩ := hlegal
    cases hrun
    obtain ⟨hsound, hpages, hmap⟩ := pages_freeSwa h.sound h.inv.linked hvs
    refine ⟨hsound, ?_, h.group⟩
    have hclose := h.inv.close hsub fun x hx y heq => mem_toFinset.mpr (hfull x (mem_toFinset.mp hx) y heq)
    unfold Tracked.pools Tracked.after
    rw [hpages, hmap]
    exact hclose
  | freeGroupBegin =>
    cases hrun
    refine ⟨{ h.sound with }, ?_, by simp [Tracked.after, freeGroupBegin]⟩
    exact h.inv.hold (by simp [Whole, held, Tracked.after, freeGroupBegin])
  | freeGroupEnd =>
    obtain ⟨s₁, hend, heq⟩ := Option.map_eq_some_iff.mp hrun
    cases heq
    have hheld : σ.alloc.held = σ.alloc.freeGroup.flatten.toFinset := by
      simp [held, show σ.alloc.isNotInFreeGroup = false from hlegal]
    set s₀ : SWAAllocator := { σ.alloc with isNotInFreeGroup := true }
    have hs₀ : s₀.Sound ps := { h.sound with }
    have hfree : s₀.free σ.alloc.freeGroup.flatten = some s' := by
      unfold freeGroupEnd at hend
      dsimp only at hend
      split at hend
      · next hnil =>
        rw [hnil]
        exact hend
      · exact hend
    have hinv := h.inv
    unfold Tracked.after
    rw [hheld] at hinv ⊢
    exact books_give hs₀ hinv (h.group hlegal) hinv.held_whole rfl hfree

theorem Reachable.books {needSort : Bool} {sizeFull sizeSwa : ℕ} (hps : 1 ≤ ps)
    (h : Reachable ps needSort sizeFull sizeSwa σ) : Books ps (sizeSwa / ps) σ := by
  induction h with
  | refl => exact books_clear hps needSort sizeFull sizeSwa
  | tail _ hstep ih =>
    obtain ⟨c, hstep, hok⟩ := hstep
    exact ih.step hstep hok

/-- When the full pool alone is short, a page of the SWA pool goes without a link. -/
theorem Books.broken (h : Books ps N σ) (hstep : Step ps σ c σ') (hbad : FullAloneShort σ.alloc c) :
    ¬ InStep ps N σ' := by
  intro hin
  obtain ⟨ds, rfl, hshort, hroom⟩ := hbad
  obtain ⟨-, s', out, hrun, rfl⟩ := hstep
  cases out with
  | some out =>
    obtain ⟨-, full, swa, outSwa, hfull, -, -⟩ := allocDecode_some hrun
    obtain ⟨-, -, ⟨-, hnone, -⟩ | ⟨hno, -⟩⟩ := allocDecode_cases h.sound.full.released ds
    · rw [hfull] at hnone
      cases hnone
    · exact hno hshort
  | none =>
    obtain ⟨⟨full, swa, rfl⟩, -, -, hle, -, -, hswa⟩ := allocDecode_none h.sound hrun
    have hafter : ∀ s', σ.after s' none (.allocDecode ds) = ⟨s', σ.used, σ.closed⟩ := fun s' => by
      simp [Tracked.after]
    rw [hafter] at hin
    refine hroom (hswa.mp (le_antisymm hle ?_))
    refine (Multiset.le_iff_subset h.inv.linked.nodup).mpr fun q hq => ?_
    obtain ⟨h₁, h₂⟩ := h.inv.linked.range q hq
    exact (hin.free_iff q h₁ h₂).mpr ((h.inStep.free_iff q h₁ h₂).mp hq)

/-- **The pools stay in step** in every run in which no `alloc_decode` finds the full pool short and the SWA
pool not; such a call always breaks them. -/
theorem pools_in_step {needSort : Bool} {sizeFull sizeSwa : ℕ} (hps : 1 ≤ ps)
    (h : Reachable ps needSort sizeFull sizeSwa σ) :
    InStep ps (sizeSwa / ps) σ ∧
      ∀ c σ', Step ps σ c σ' → (InStep ps (sizeSwa / ps) σ' ↔ ¬ FullAloneShort σ.alloc c) := by
  have hbooks := h.books hps
  refine ⟨hbooks.inStep, fun c σ' hstep => ⟨fun hin hbad => hbooks.broken hstep hbad hin, fun hok => ?_⟩⟩
  exact (hbooks.step hstep hok).inStep

/-- One page of the full pool and two of the SWA pool, of two slots each; a prompt of two tokens. -/
theorem step_prompt : Step 2 ⟨clear 2 false 2 4, ∅, ∅⟩ (.allocExtend [⟨0, 2, -1⟩] 2) ⟨fullShort, {2, 3}, ∅⟩ :=
  ⟨⟨⟨by simp [Behind], by simp⟩, rfl⟩, _, some [2, 3], rfl, rfl⟩

theorem pools_in_step_after_prompt :
    Reachable 2 false 2 4 ⟨fullShort, {2, 3}, ∅⟩ ∧ InStep 2 2 ⟨fullShort, {2, 3}, ∅⟩ := by
  have hreach : Reachable 2 false 2 4 ⟨fullShort, {2, 3}, ∅⟩ :=
    .tail .refl ⟨_, step_prompt, by rintro ⟨ds, hds, -⟩; cases hds⟩
  exact ⟨hreach, (pools_in_step (by decide) hreach).1⟩

/-- The third token finds the full pool empty: page 2 of the SWA pool is neither free nor mapped to. -/
theorem pools_out_of_step :
    ∃ σ, Step 2 ⟨clear 2 false 2 4, ∅, ∅⟩ (.allocExtend [⟨0, 2, -1⟩] 2) ⟨fullShort, {2, 3}, ∅⟩ ∧
      Step 2 ⟨fullShort, {2, 3}, ∅⟩ (.allocDecode [(3, 3)]) σ ∧ ¬ InStep 2 2 σ := by
  have hdecode : Step 2 ⟨fullShort, {2, 3}, ∅⟩ (.allocDecode [(3, 3)]) _ :=
    ⟨⟨by simp, by simp [Behind, decodeReq], by simp⟩, _, none, rfl, rfl⟩
  have hbooks := (books_clear (by decide) false 2 4).step step_prompt (by rintro ⟨ds, hds, -⟩; cases hds)
  exact ⟨_, step_prompt, hdecode, hbooks.broken hdecode ⟨_, rfl, by decide⟩⟩

end SWAAllocator

end SGLang.MemCache
