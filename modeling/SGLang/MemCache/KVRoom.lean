/-
# SGLang.MemCache.KVRoom — how much an allocation can get.

`evict_from_tree_cache` followed by an allocation reaches every page that is free or evictable: the eviction
loop stops early only when no leaf is evictable, and then no node is (`evictableSize_eq_zero`). So an extend
allocation goes through exactly if its new pages are no more than the available and the evictable ones
(`allocSlotsExtend_iff`), however much it asks the tree to evict.
-/
import SGLang.MemCache.KVConservation

namespace SGLang.MemCache

open SGLang.Lib SGLang.Lib.PageTree Allocator List
open ExtendReq (numNewPages)
open Multiset (card)

/-! ## Room in the allocator -/

namespace Allocator

variable {a : Allocator} {k n w : ℕ} {vs : List ℕ}

theorem availableSize_eq : a.availableSize = card a.pages * a.pageSize := by
  simp [availableSize, pages]

/-- As many pages as there are can be had, if no more were announced. -/
theorem Released.le_mergeIfShort (h : a.Released) (hk : k ≤ card a.pages) (hw : k ≤ w) :
    k ≤ (a.mergeIfShort w).freePages.length := by
  have hcard : card a.pages = a.freePages.length + a.releasePages.length := by simp [pages]
  unfold Allocator.mergeIfShort mergeAndSortFree
  split
  · split
    · simp only [length_insertionSort, length_append]
      omega
    · omega
  · next hno =>
    rcases Bool.eq_false_or_eq_true a.needSort with hsort | hsort
    · have : ¬ a.freePages.length < w := fun hlt => hno ⟨hsort, hlt⟩
      omega
    · rw [h hsort, length_nil] at hcard
      omega

/-- An allocation does not take more pages than there are. -/
theorem mergeIfShort_le : (a.mergeIfShort w).freePages.length ≤ card a.pages := by
  rw [← pages_mergeIfShort (a := a) (n := w)]
  simp [pages]

theorem alloc_isSome_iff (h : a.Released) : (∃ a' out, a.alloc n = (a', some out)) ↔ n ≤ card a.pages := by
  simp only [alloc]
  constructor
  · rintro ⟨a', out, hrun⟩
    split at hrun
    · cases hrun
    · next hroom => exact (not_lt.mp hroom).trans mergeIfShort_le
  · intro hn
    exact ⟨_, _, if_neg (not_lt.mpr (h.le_mergeIfShort hn le_rfl))⟩

theorem allocExtend_isSome_iff {rs : List ExtendReq} (h : a.Released)
    (hw : (rs.map (numNewPages a.pageSize)).sum ≤ n / a.pageSize + rs.length + 1) :
    (∃ a' out, a.allocExtend rs n = (a', some out)) ↔ (rs.map (numNewPages a.pageSize)).sum ≤ card a.pages := by
  simp only [allocExtend, pageSize_mergeIfShort]
  constructor
  · rintro ⟨a', out, hrun⟩
    split at hrun
    · cases hrun
    · next hroom => exact (not_lt.mp hroom).trans mergeIfShort_le
  · intro hn
    exact ⟨_, _, if_neg (not_lt.mpr (h.le_mergeIfShort hn hw))⟩

variable {ds : List (ℕ × ℤ)}

/-- The pool has fewer pages than the sequences that come to a new page. -/
def Short (a : Allocator) (ds : List (ℕ × ℤ)) : Prop :=
  card a.pages < ds.countP fun d => d.1 % a.pageSize = 1

instance : Decidable (a.Short ds) := inferInstanceAs (Decidable (_ < _))

/-- `alloc_decode` fails, and keeps its pages, exactly when the pool is short. -/
theorem allocDecode_cases (h : a.Released) (ds : List (ℕ × ℤ)) :
    SameSettings a (a.allocDecode ds).1 ∧ (a.allocDecode ds).1.pages ≤ a.pages ∧
    (a.Short ds ∧ (a.allocDecode ds).2 = none ∧ (a.allocDecode ds).1.pages = a.pages ∨
      ¬ a.Short ds ∧ (∃ out, (a.allocDecode ds).2 = some out) ∧ card a.pages =
          (ds.countP fun d => d.1 % a.pageSize = 1) + card (a.allocDecode ds).1.pages) := by
  have hps : (ds.countP fun d => d.1 % (a.mergeIfShort ds.length).pageSize = 1) =
      ds.countP fun d => d.1 % a.pageSize = 1 := by rw [same_mergeIfShort.1]
  unfold allocDecode Short
  dsimp only
  rw [hps]
  split
  · next hshort =>
    refine ⟨same_mergeIfShort, pages_mergeIfShort.le, .inl ⟨?_, rfl, pages_mergeIfShort⟩⟩
    by_contra hroom
    exact absurd (h.le_mergeIfShort (not_lt.mp hroom) countP_le_length) (by omega)
  · next hroom =>
    have htakes := takes_drop hroom rfl
    have hcard := congrArg card htakes.pages_eq
    rw [Multiset.card_add, Multiset.coe_card, length_take, min_eq_left htakes.le] at hcard
    refine ⟨htakes.same, ?_, .inr ⟨by omega, ⟨_, rfl⟩, hcard⟩⟩
    rw [htakes.pages_eq]
    exact Multiset.le_add_left _ _

end Allocator

/-! ## Pages an extension takes -/

section NewPages

variable {ps : ℕ} {rs : List ExtendReq}

theorem pageCount_le_add {m n : ℕ} (hps : 0 < ps) : pageCount ps (m + n) ≤ pageCount ps m + pageCount ps n := by
  by_contra hlt
  have h := (lt_pageCount_iff hps).mp (not_le.mp hlt)
  have hm := le_pageCount_mul (n := m) hps
  have hn := le_pageCount_mul (n := n) hps
  rw [Nat.add_mul] at h
  omega

theorem numNewPages_le {r : ExtendReq} (hps : 0 < ps) (hle : r.prefixLen ≤ r.seqLen) :
    r.numNewPages ps ≤ pageCount ps (r.seqLen - r.prefixLen) := by
  have h := @pageCount_le_add ps r.prefixLen (r.seqLen - r.prefixLen) hps
  rw [Nat.add_sub_cancel' hle] at h
  unfold numNewPages
  omega

/-- The over-estimate `alloc_extend` and `alloc_paged_token_slots_extend` work with. -/
theorem sum_numNewPages_le (hps : 0 < ps) (hle : ∀ r ∈ rs, r.prefixLen ≤ r.seqLen) :
    (rs.map (numNewPages ps)).sum ≤ (rs.map fun r => r.seqLen - r.prefixLen).sum / ps + rs.length := by
  induction rs with
  | nil => simp
  | cons r rs ih =>
    have hr := numNewPages_le hps (hle r mem_cons_self)
    have hdiv := pageCount_le_div (n := r.seqLen - r.prefixLen) hps
    have hrest := ih fun r' hr' => hle r' (mem_cons_of_mem _ hr')
    have hadd := @Nat.div_add_div_le_add_div (r.seqLen - r.prefixLen)
      (rs.map fun r => r.seqLen - r.prefixLen).sum ps
    simp only [map_cons, sum_cons, length_cons]
    omega

end NewPages

/-! ## Room in the tree -/

namespace RadixCache

variable {ps : ℕ} {c c' : RadixCache} {locks : List ℕ} {freed : List (List ℕ)}

theorem Accounting.evictableSize_nonneg (h : Accounting ps c locks) : 0 ≤ c.evictableSize := by
  rw [h.evictable_eq]
  refine sum_induction evictableLen (fun _ _ => add_nonneg) le_rfl fun x nd _ _ => ?_
  unfold evictableLen
  split <;> positivity

/-- Evictable tokens come in whole pages. -/
theorem Accounting.dvd_evictableSize (h : Accounting ps c locks) : (ps : ℤ) ∣ c.evictableSize := by
  rw [h.evictable_eq]
  refine sum_induction evictableLen (fun _ _ => dvd_add) (dvd_zero _) fun x nd hx hne => ?_
  unfold evictableLen
  split
  · have hkey : ps ∣ nd.key.len := by simpa using h.wf.key_dvd hx hne
    exact Int.natCast_dvd_natCast.mpr hkey
  · exact dvd_zero _

/-- What eviction frees was evictable. -/
theorem Evicted.evictableSize_eq (h : Evicted ps c c' freed) (hc : Accounting ps c locks) :
    c'.evictableSize + freed.flatten.length = c.evictableSize := by
  refine h.rule (P := fun c' freed => c'.evictableSize + freed.flatten.length = c.evictableSize) hc (by simp) ?_
  intro c₁ c₂ n nd freed hacc hacc' hn hne hfree _ htree ih
  have hsum := sum_removeLeaf evictableLen hacc.wf hn hne
  rw [← htree, ← hacc'.evictable_eq, ← hacc.evictable_eq] at hsum
  have hlen : (evictableLen nd.key nd.data : ℤ) = nd.data.value.length := by
    rw [evictableLen, if_pos hfree, hacc.fits n nd hn hne]
    simp [RadixKey.length_units, PagedKey.units]
  rw [flatten_append, length_append, flatten_singleton]
  push_cast
  omega

end RadixCache

namespace KVState

variable {cfg : Config} {σ σ' : KVState} {ties : ℕ → ℕ} {n numPages : ℕ} {hand : Multiset ℕ}
variable {pending : List ℕ}

/-- Cache and allocator as the scheduler finds them: the books of the cache are right for some locks, its
nodes hold whole pages, each page once, and the allocator is outside of a free group. -/
structure Consistent (cfg : Config) (σ : KVState) : Prop where
  settled : σ.allocator.Settled cfg.pageSize
  acc : ∃ locks, RadixCache.Accounting cfg.pageSize σ.cache locks
  holds : σ.cache.tree.HoldsPages cfg.pageSize NodeData.value
  nodup : (σ.cache.tree.slotPages cfg.pageSize NodeData.value).Nodup

theorem Inv.consistent (h : Inv cfg numPages hand pending σ) : Consistent cfg σ := by
  obtain ⟨locks, hacc, -⟩ := h.locks
  refine ⟨h.settled, ⟨locks, hacc⟩, h.pages, ?_⟩
  refine Multiset.nodup_of_le ?_ (h.conserved ▸ (Finset.Icc 1 numPages).nodup)
  rw [add_assoc, add_assoc]
  exact (Multiset.le_add_right _ _).trans (Multiset.le_add_left _ _)

theorem length_flatten_expand {ps : ℕ} {freed : List (List ℕ)} (hps : 0 < ps)
    (hfreed : ∀ v ∈ freed, ∃ P, v = expand ps P) :
    freed.flatten.length = (freed.flatMap (pagesOf ps)).length * ps := by
  induction freed with
  | nil => simp
  | cons v freed ih =>
    obtain ⟨P, rfl⟩ := hfreed v mem_cons_self
    have hrest := ih fun w hw => hfreed w (mem_cons_of_mem _ hw)
    rw [flatten_cons, length_append, flatMap_cons, length_append, hrest,
      length_expand, pagesOf_expand hps, Nat.add_mul]

/-- **Eviction makes what it evicts available**, and reaches what it is asked for or everything that is
evictable. -/
theorem evict_frees (h : Consistent cfg σ) (ties : ℕ → ℕ) (n : ℕ) :
    ∃ c' freed, σ.cache.evict cfg ties n = .ok (c', freed, freed.flatten.length) ∧
      (freed.foldl Allocator.free σ.allocator).Settled cfg.pageSize ∧
      (freed.foldl Allocator.free σ.allocator).availableSize =
        σ.allocator.availableSize + freed.flatten.length ∧
      (freed.flatten.length : ℤ) ≤ σ.cache.evictableSize ∧
      (n ≤ freed.flatten.length ∨ (freed.flatten.length : ℤ) = σ.cache.evictableSize) := by
  obtain ⟨locks, hacc⟩ := h.acc
  have hps := hacc.wf.ps_pos
  obtain ⟨c₁, freed, hrun, horder, hacc₁, hdone⟩ : ∃ c₁ freed, σ.cache.evict cfg ties n =
      .ok (c₁, freed, freed.flatten.length) ∧ RadixCache.EvictedInOrder cfg n σ.cache c₁ freed ∧
      RadixCache.Accounting cfg.pageSize c₁ locks ∧ _ := RadixCache.evict_spec hacc
  have hev := horder.evicted hacc
  obtain ⟨-, hs₁, hfreed⟩ := hev.pages hacc h.holds
  have hnodup : (freed.flatMap (pagesOf cfg.pageSize)).Nodup := by
    rw [← Multiset.coe_nodup]
    exact Multiset.nodup_of_le (Multiset.le_add_left _ _) (hs₁ ▸ h.nodup)
  obtain ⟨hsame, hpages⟩ := pages_freeAll h.settled hps hfreed hnodup
  have hsize := hev.evictableSize_eq hacc
  have hnonneg := hacc₁.evictableSize_nonneg
  refine ⟨c₁, freed, hrun, h.settled.same hsame, ?_, by omega, ?_⟩
  · rw [availableSize_eq, availableSize_eq, hpages, hsame.1, h.settled.pageSize_eq,
      Multiset.card_add, Multiset.coe_card, length_flatten_expand hps hfreed, Nat.add_mul, Nat.add_comm]
  · rcases hdone with hn | hempty
    · exact .inl hn
    · right
      rw [hacc₁.evictableSize_eq_zero hempty] at hsize
      omega

/-- The same for `evict_from_tree_cache`, which evicts only when it has to. -/
theorem evictFromTreeCache_room (h : Consistent cfg σ) (ties : ℕ → ℕ) (n : ℕ) :
    ∃ σ' k, σ.evictFromTreeCache cfg ties n = .ok σ' ∧ σ'.allocator.Settled cfg.pageSize ∧
      σ'.allocator.availableSize = σ.allocator.availableSize + k ∧
      (k : ℤ) ≤ σ.cache.evictableSize ∧
      (n ≤ σ'.allocator.availableSize ∨ (k : ℤ) = σ.cache.evictableSize) := by
  unfold evictFromTreeCache
  split
  · obtain ⟨c', freed, hrun, hset, havail, hle, hdone⟩ := evict_frees h ties n
    exact ⟨{ σ with cache := c', allocator := freed.foldl Allocator.free σ.allocator }, _,
      by simp only [KVState.evict, hrun, bind, Except.bind], hset, havail, hle,
      hdone.imp (fun hn => havail.symm ▸ hn.trans (Nat.le_add_left _ _)) id⟩
  · next henough =>
    obtain ⟨_, freed, -, -, -, hle, -⟩ := evict_frees h ties n
    exact ⟨σ, 0, rfl, h.settled, rfl, by omega, .inl (not_lt.mp henough)⟩

theorem orOutOfMemory_ok_iff {message : String} {p : Allocator × Option (List ℕ)} :
    (∃ σ' out, σ.orOutOfMemory message p = .ok (σ', out)) ↔ ∃ a out, p = (a, some out) := by
  obtain ⟨a, out⟩ := p
  cases out with
  | none =>
    refine iff_of_false ?_ ?_
    · rintro ⟨σ', out, hrun⟩
      cases hrun
    · rintro ⟨a', out, heq⟩
      cases heq
  | some out => exact iff_of_true ⟨_, _, rfl⟩ ⟨_, _, rfl⟩

/-- **When an extend allocation goes through:** exactly if the pages it takes are available or evictable. -/
theorem allocSlotsExtend_iff {rs : List ExtendReq} (h : Consistent cfg σ)
    (hle : ∀ r ∈ rs, r.prefixLen ≤ r.seqLen) :
    (∃ σ' out, σ.allocSlotsExtend cfg ties rs (rs.map fun r => r.seqLen - r.prefixLen).sum =
        .ok (σ', out)) ↔ (((rs.map (numNewPages cfg.pageSize)).sum * cfg.pageSize : ℕ) : ℤ) ≤
        σ.allocator.availableSize + σ.cache.evictableSize := by
  have hps : 0 < cfg.pageSize := h.acc.choose_spec.wf.ps_pos
  have hcount := sum_numNewPages_le hps hle
  set need := (rs.map (numNewPages cfg.pageSize)).sum with hneed
  set n := (rs.map fun r => r.seqLen - r.prefixLen).sum with hn
  -- what the eviction is asked for is enough for the new pages
  have hover : need * cfg.pageSize ≤ n + rs.length * cfg.pageSize := by
    have hdiv := Nat.div_mul_le_self n cfg.pageSize
    have := Nat.mul_le_mul_right cfg.pageSize hcount
    rw [Nat.add_mul] at this
    omega
  unfold allocSlotsExtend
  split
  · next hone =>
    obtain ⟨σ₁, k, hrun, ⟨hsize, -, hrel⟩, havail, hk, hdone⟩ := evictFromTreeCache_room h ties n
    have hneedn : need = n := by rw [hneed, hone, sum_numNewPages_one]
    simp only [allocTokenSlots, hrun, bind, Except.bind]
    rw [orOutOfMemory_ok_iff, alloc_isSome_iff hrel]
    rw [availableSize_eq, hsize, hone, Nat.mul_one] at havail hdone
    rw [hneedn, hone, Nat.mul_one, havail]
    rw [havail] at hdone
    omega
  · obtain ⟨σ₁, k, hrun, ⟨hsize, -, hrel⟩, havail, hk, hdone⟩ :=
      evictFromTreeCache_room h ties (n + rs.length * σ.allocator.pageSize)
    simp only [allocPagedTokenSlotsExtend, hrun, bind, Except.bind]
    rw [orOutOfMemory_ok_iff, allocExtend_isSome_iff hrel (by rw [hsize]; omega), hsize,
      ← Nat.mul_le_mul_right_iff hps, ← hneed]
    rw [h.settled.pageSize_eq] at hdone
    rw [availableSize_eq, hsize] at havail hdone
    rw [havail]
    rw [havail] at hdone
    omega

/-! ## Reachable states -/

/-- **Every state of a server is consistent.** -/
theorem Reachable.consistent {specAlgo needSort : Bool} (hps : 0 < cfg.pageSize)
    (h : Reachable cfg specAlgo needSort numPages σ) : Consistent cfg σ := by
  exact (h.inv hps).consistent

end KVState

end SGLang.MemCache
