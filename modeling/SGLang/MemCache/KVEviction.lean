/-
# SGLang.MemCache.KVEviction — eviction frees enough, and only what it may.

`evict(n)` deletes unlocked leaves in the order of the eviction strategy (`EvictedInOrder`), a parent joining
the heap when its last child goes. It frees at least `min(n, evictable_size)` tokens: when the heap runs
empty no node is evictable any more. What it frees is available to the allocator at once, so
`alloc_token_slots` raises only if the available and the evictable tokens together are too few.
-/
import SGLang.MemCache.KVRoom

namespace SGLang.MemCache

open SGLang.Lib SGLang.Lib.PageTree RadixKey
open RadixCache (pairConfig)

namespace RadixCache

variable {ps : ℕ} {c c' : RadixCache} {locks : List ℕ} {freed : List (List ℕ)} {cfg : Config}

/-- A locked node stays, with its value. -/
theorem Evicted.keeps_locked (h : Evicted ps c c' freed) (hc : Accounting ps c locks) {x : ℕ}
    {xd : Node RadixKey ChildKey NodeData} (hx : c.tree.nodes x = some xd) (hlock : 0 < xd.data.lockRef) :
    ∃ xd', c'.tree.nodes x = some xd' ∧ xd'.data = xd.data := by
  refine h.rule (P := fun c' _ => ∃ xd', c'.tree.nodes x = some xd' ∧ xd'.data = xd.data) hc ⟨xd, hx, rfl⟩ ?_
  rintro c₁ c₂ n nd _ hacc - hn hne hfree - htree ⟨xd₁, hx₁, heq⟩
  have hxn : x ≠ n := by
    rintro rfl
    obtain rfl : xd₁ = nd := Option.some.inj (hx₁.symm.trans hn)
    rw [heq] at hfree
    omega
  obtain ⟨xd₂, hx₂, hcore⟩ := core_some (core_removeLeaf hacc.wf hn hne hxn).symm hx₁
  exact ⟨xd₂, htree ▸ hx₂, (core_eq hcore).2.trans heq⟩

/-- **What one call of `evict` does to a cache in use.** -/
theorem Accounting.evict_enough (h : Accounting cfg.pageSize c locks) (ties : ℕ → ℕ) (n : ℕ) :
    ∃ c' freed, c.evict cfg ties n = .ok (c', freed, freed.flatten.length) ∧
      min (n : ℤ) c.evictableSize ≤ freed.flatten.length ∧ EvictedInOrder cfg n c c' freed ∧
      ∀ x xd, c.tree.nodes x = some xd → 0 < xd.data.lockRef →
        ∃ xd', c'.tree.nodes x = some xd' ∧ xd'.data = xd.data := by
  obtain ⟨c', freed, hrun, horder, hacc', hdone⟩ := @evict_spec c locks n cfg ties h
  have hev := horder.evicted h
  refine ⟨c', freed, hrun, ?_, horder, fun x xd hx => hev.keeps_locked h hx⟩
  have hsize := hev.evictableSize_eq h
  rcases hdone with hn | hempty
  · exact (min_le_left _ _).trans (by exact_mod_cast hn)
  · rw [hacc'.evictableSize_eq_zero hempty] at hsize
    exact (min_le_right _ _).trans (by omega)

end RadixCache

namespace Allocator

variable {a : Allocator} {n : ℕ}

theorem allocPages_isSome (h : a.Released) (hn : n / a.pageSize ≤ Multiset.card a.pages) :
    ∃ a' out, a.allocPages n = (a', some out) :=
  ⟨_, _, if_neg (not_lt.mpr (h.le_mergeIfShort hn le_rfl))⟩

end Allocator

namespace KVState

variable {cfg : Config} {σ : KVState} {ties : ℕ → ℕ} {n : ℕ}

/-- Available and evictable tokens together are enough for `alloc_token_slots`. -/
theorem allocTokenSlotsOf_ok (h : Consistent cfg σ)
    (hn : (n : ℤ) ≤ σ.allocator.availableSize + σ.cache.evictableSize) :
    ∃ σ' out, σ.allocTokenSlotsOf cfg ties n = .ok (σ', out) := by
  have hps : 0 < cfg.pageSize := h.acc.choose_spec.wf.ps_pos
  obtain ⟨σ₁, k, hrun, ⟨hsize, -, hrel⟩, havail, hk, hdone⟩ := evictFromTreeCache_room h ties n
  have hroom : n ≤ Multiset.card σ₁.allocator.pages * cfg.pageSize := by
    rw [← hsize, ← Allocator.availableSize_eq]
    omega
  unfold allocTokenSlotsOf
  split
  · next hone =>
    simp only [allocTokenSlots, hrun, bind, Except.bind]
    rw [orOutOfMemory_ok_iff, Allocator.alloc_isSome_iff hrel]
    rwa [hone, Nat.mul_one] at hroom
  · simp only [hrun, bind, Except.bind]
    rw [orOutOfMemory_ok_iff]
    apply Allocator.allocPages_isSome hrel
    rw [hsize]
    exact (Nat.div_le_div_right hroom).trans_eq (Nat.mul_div_cancel _ hps)

/-- **Eviction frees enough and only what it may.** Whatever calls led to the state of the cache, and for
every strategy, `evict(n)` returns the number of tokens it hands to the allocator, at least
`min(n, evictable_size)`; as long as fewer than `n` are freed it deletes an unlocked leaf whose priority is
least among all evictable leaves of that moment, and every locked node keeps its value. In every state of a
server the freed tokens become available, and `alloc_token_slots` raises only if the available and the
evictable tokens are fewer than the request. -/
theorem evict_in_order_and_enough (hps : 0 < cfg.pageSize) (ties : ℕ → ℕ) (n : ℕ) :
    (∀ s, RadixCache.Reachable cfg s → ∃ c' freed, s.cache.evict cfg ties n =
      .ok (c', freed, freed.flatten.length) ∧
      min (n : ℤ) s.cache.evictableSize ≤ freed.flatten.length ∧
        RadixCache.EvictedInOrder cfg n s.cache c' freed ∧
      ∀ x xd, s.cache.tree.nodes x = some xd → 0 < xd.data.lockRef →
        ∃ xd', c'.tree.nodes x = some xd' ∧ xd'.data = xd.data) ∧
    ∀ specAlgo needSort numPages σ, Reachable cfg specAlgo needSort numPages σ →
      (∃ σ' freed, σ.cache.evict cfg ties n = .ok (σ'.cache, freed, freed.flatten.length) ∧
        σ.evict cfg ties n = .ok σ' ∧
          σ'.allocator.availableSize = σ.allocator.availableSize + freed.flatten.length) ∧
      ((∀ σ' out, σ.allocTokenSlotsOf cfg ties n ≠ .ok (σ', out)) →
        σ.allocator.availableSize + σ.cache.evictableSize < n) := by
  refine ⟨fun s hs => (hs.accounting hps).evict_enough ties n, ?_⟩
  intro specAlgo needSort numPages σ hσ
  have h := hσ.consistent hps
  refine ⟨?_, fun hraise => ?_⟩
  · obtain ⟨c', freed, hrun, -, havail, -⟩ := evict_frees h ties n
    exact ⟨{ σ with cache := c', allocator := freed.foldl Allocator.free σ.allocator }, freed, hrun,
      by simp only [KVState.evict, hrun, bind, Except.bind], havail⟩
  · by_contra hroom
    obtain ⟨σ', out, hok⟩ : ∃ σ' out, σ.allocTokenSlotsOf cfg ties n = .ok (σ', out) :=
      allocTokenSlotsOf_ok h (not_lt.mp hroom)
    exact hraise σ' out hok

/-- The first prompt is locked, the second shares a page with it: of five tokens asked for, the two of
the second prompt alone go. -/
theorem evict_in_order_and_enough_beside_lock :
    ∃ s : RadixCache.Session, RadixCache.Reachable pairConfig s ∧ s.locks = [1] ∧
      ∃ c' freed, s.cache.evict pairConfig id 5 = .ok (c', freed, freed.flatten.length) ∧
        2 ≤ freed.flatten.length ∧ ∃ xd, c'.tree.nodes 1 = some xd ∧ xd.data.value = [12, 13] := by
  have h₁ := (Relation.ReflTransGen.refl (a := (⟨RadixCache.init 0, [], []⟩ : RadixCache.Session))).tail
    (RadixCache.Call.insert (by decide)
      (rfl : (RadixCache.init 0).insert pairConfig 1 RadixCache.firstPrompt = .ok (_, _)))
  have h₂ := h₁.tail (.incLockRef (n := 1) rfl rfl)
  have h₃ := h₂.tail (.insert (by decide)
    (rfl : RadixCache.insert pairConfig 2 _ RadixCache.secondPrompt = .ok (_, _)))
  obtain ⟨c', freed, hrun, hmin, -, hkeep⟩ :=
    (evict_in_order_and_enough (by decide) id 5).1 _ ⟨0, h₃⟩
  obtain ⟨xd, hxd, heq⟩ := hkeep 1 _ rfl (by decide)
  have htwo : min (5 : ℤ) 2 ≤ freed.flatten.length := hmin
  exact ⟨_, ⟨0, h₃⟩, rfl, c', freed, hrun, by exact_mod_cast htwo, xd, hxd, by rw [heq]; rfl⟩

end KVState

end SGLang.MemCache
