/-
# SGLang.Managers.RuntimeChecker — the scheduler's memory check never reports a leak.

While requests run and whenever it is idle, the scheduler adds up what is available in the pool, what the radix
cache counts as evictable and as protected, and what the requests of its batches hold beyond the cache, and
reports a leak unless this is the size of the pool. Both sides count the same pages.
-/
import SGLang.MemCache.KVRoom

namespace SGLang.MemCache

open SGLang.Lib SGLang.Lib.PageTree Allocator List
open RadixCache (pairConfig)

/-- `_check_pool_invariant`: whether the pool leaks, and the message. -/
def checkPoolInvariant (poolName : String) (available evictable protectedSize sessionHeld total uncached : ℤ) :
    Bool × String :=
  let totalAccounted := available + evictable + protectedSize + sessionHeld + uncached
  (decide (totalAccounted ≠ total),
    s!"[{poolName}] total={total}, available={available}, evictable={evictable}, " ++
    s!"protected={protectedSize}, session_held={sessionHeld}, uncached={uncached}")

/-- The body of the loop of `_get_total_uncached_sizes`; `none` is a failed assertion. -/
def Req.uncachedSize (pageSize : ℕ) (req : Req) : Option ℤ :=
  if req.kvCommittedFreed ≠ req.kvOverallocatedFreed then none
  else if req.kvCommittedFreed ∨ req.reqPoolIdx = none then some 0
  else
    let allocatedLen := if 1 < pageSize then pageCount pageSize req.kvAllocatedLen * pageSize
      else req.kvAllocatedLen
    if 1 < pageSize ∧ req.cacheProtectedLen % pageSize ≠ 0 then none
    else some (allocatedLen - req.cacheProtectedLen)

namespace KVState

/-- The requests of the last batch, and of the running batch if that is another one. -/
def countedReqs (lastBatch : List ℕ) (runningBatch : Option (List ℕ)) : List ℕ :=
  lastBatch ++ (runningBatch.filter (· ≠ lastBatch)).getD []

/-- `_get_total_uncached_sizes` of the full pool. -/
def getTotalUncachedSizes (cfg : Config) (σ : KVState) (reqs : List ℕ) : Option ℤ :=
  (reqs.mapM fun rid => (σ.reqs rid).uncachedSize cfg.pageSize).map List.sum

/-- `self_check_during_busy` for the full pool, without sessions. With no requests it is the check of
`on_idle`. -/
def selfCheckDuringBusy (cfg : Config) (maxTotalNumTokens : ℕ) (σ : KVState) (lastBatch : List ℕ)
    (runningBatch : Option (List ℕ)) : Option (Bool × String) :=
  (σ.getTotalUncachedSizes cfg (countedReqs lastBatch runningBatch)).map fun uncached =>
    checkPoolInvariant "full"
    σ.allocator.availableSize σ.cache.evictableSize σ.cache.protectedSize 0 maxTotalNumTokens uncached

/-- The batches hold every request that has a row, once, and else only requests that are released. -/
structure HoldsRows (σ : KVState) (reqs : List ℕ) : Prop where
  nodup : reqs.Nodup
  live : ∀ rid ∈ reqs, rid ∈ σ.live ∨ (σ.reqs rid).kvCommittedFreed ∧ (σ.reqs rid).kvOverallocatedFreed
  rows : ∀ rid ∈ σ.live, (σ.reqs rid).reqPoolIdx ≠ none → rid ∈ reqs

variable {cfg : Config} {numPages rid : ℕ} {σ : KVState} {hand : Multiset ℕ} {pending : List ℕ}

/-- What the cache counts are the tokens of its pages. -/
theorem Inv.cached_eq (h : Inv cfg numPages hand pending σ) : σ.cache.evictableSize + σ.cache.protectedSize =
    ((σ.cache.tree.slotPages cfg.pageSize NodeData.value).card * cfg.pageSize : ℕ) := by
  obtain ⟨locks, hacc, -⟩ := h.locks
  rw [hacc.evictable_eq, hacc.protected_eq, slotPages, PageTree.sum, PageTree.sum, PageTree.sum,
    ← Finset.sum_add_distrib, Multiset.card_sum, Finset.sum_mul, Nat.cast_sum]
  refine Finset.sum_congr rfl fun n _ => ?_
  by_cases hr : n = σ.cache.tree.root
  · simp [contrib, hr]
  cases hn : σ.cache.tree.nodes n with
  | none => simp [contrib, hn]
  | some nd =>
    rw [contrib_eq _ hn hr, contrib_eq _ hn hr, contrib_eq _ hn hr]
    obtain ⟨P, hP⟩ := h.pages n nd hn hr
    have hlen : nd.data.value.length = nd.key.len := by simpa using hacc.fits n nd hn hr
    have hlock := hacc.lock_nonneg n nd hn
    rw [hP, length_expand] at hlen
    rw [hP, pagesOf_expand h.ps_pos, Multiset.coe_card, hlen, RadixCache.evictableLen, RadixCache.protectedLen]
    split_ifs <;> omega

/-- What a live request adds to the count are the tokens of its pages. -/
theorem Inv.uncachedSize_eq (h : Inv cfg numPages hand [] σ) (hrid : rid ∈ σ.live) :
    (σ.reqs rid).uncachedSize cfg.pageSize =
      some (((σ.reqs rid).ownedPages cfg.pageSize σ.reqToToken).card * cfg.pageSize : ℤ) := by
  have hreq := h.req rid hrid
  have hps := h.ps_pos
  simp only [Req.uncachedSize, hreq.not_freed.1, hreq.not_freed.2, overallocated_start hps]
  cases hidx : (σ.reqs rid).reqPoolIdx with
  | none =>
    have hz := hreq.state.resolve_right (by simp [hidx])
    simp [ownedPages_of_zero hz.1]
  | some idx =>
    have hh := h.held hrid not_mem_nil hidx
    obtain ⟨P, hP⟩ := hh.laid
    -- the protected pages are the first of its row
    have hle : (σ.reqs rid).cacheProtectedLen ≤ pageCount cfg.pageSize (σ.reqs rid).kvAllocatedLen *
        cfg.pageSize :=
      (hreq.prot_le.trans (hh.prefix_le.trans (hh.fill_le.trans hh.committed_le))).trans (le_pageCount_mul hps)
    rw [ownedPages_eq hps hidx hreq.prot_dvd hP, Multiset.coe_card, length_drop, hP.count, length_readRow,
      ← Nat.cast_mul, Nat.sub_mul, Nat.div_mul_cancel hreq.prot_dvd, Nat.cast_sub hle]
    simp [Nat.mod_eq_zero_of_dvd hreq.prot_dvd]

/-- The uncached tokens are those of the pages of the live requests. -/
theorem Inv.getTotalUncachedSizes_eq (h : Inv cfg numPages hand [] σ) {reqs : List ℕ}
    (hreqs : σ.HoldsRows reqs) : σ.getTotalUncachedSizes cfg reqs =
      some ((∑ rid ∈ σ.live, ((σ.reqs rid).ownedPages cfg.pageSize σ.reqToToken).card : ℕ) *
        cfg.pageSize : ℤ) := by
  set owned := fun rid => ((σ.reqs rid).ownedPages cfg.pageSize σ.reqToToken).card
  -- a live request that is in no batch has no row, so it holds no page
  have hsub : ∑ rid ∈ reqs.toFinset, (if rid ∈ σ.live then owned rid else 0) = ∑ rid ∈ σ.live, owned rid := by
    rw [← Finset.sum_filter]
    refine Finset.sum_subset (fun rid hrid => (Finset.mem_filter.mp hrid).2) fun rid hrid hnot => ?_
    have hidx : (σ.reqs rid).reqPoolIdx = none := by
      by_contra hne
      exact hnot (Finset.mem_filter.mpr ⟨mem_toFinset.mpr (hreqs.rows rid hrid hne), hrid⟩)
    have hz := (h.req rid hrid).state.resolve_right (by simp [hidx])
    exact congrArg Multiset.card (ownedPages_of_zero hz.1)
  have hone : ∀ rid ∈ reqs, (σ.reqs rid).uncachedSize cfg.pageSize =
      some ((if rid ∈ σ.live then owned rid else 0 : ℕ) * cfg.pageSize : ℤ) := by
    intro rid hrid
    split
    · next hin => exact h.uncachedSize_eq hin
    · next hout =>
      obtain ⟨hc, ho⟩ := (hreqs.live rid hrid).resolve_left hout
      simp [Req.uncachedSize, hc, ho]
  rw [getTotalUncachedSizes, mapM_eq_map hone, Option.map_some, ← hsub, sum_toFinset _ hreqs.nodup,
    Nat.cast_list_sum, map_map, ← sum_map_mul_right]
  rfl

/-- What the checker adds up is the size of the pool. -/
theorem Inv.accounted (h : Inv cfg numPages 0 [] σ) :
    (σ.allocator.availableSize : ℤ) + σ.cache.evictableSize + σ.cache.protectedSize + 0 +
      (∑ rid ∈ σ.live, ((σ.reqs rid).ownedPages cfg.pageSize σ.reqToToken).card : ℕ) * cfg.pageSize =
        (numPages * cfg.pageSize : ℕ) := by
  have hcard := congrArg Multiset.card h.conserved
  simp only [Multiset.card_add, Multiset.card_sum, add_zero, Finset.card_val, Nat.card_Icc, Nat.add_sub_cancel]
    at hcard
  rw [availableSize_eq, h.settled.pageSize_eq, add_zero, add_assoc _ σ.cache.evictableSize,
    h.cached_eq, ← hcard]
  push_cast
  ring

/-- **The memory check passes.** In every state of a server, if the batches hold the requests that have rows,
then no assertion of the count fails and no leak is reported. -/
theorem self_check_reports_no_leak {specAlgo needSort : Bool} (hps : 0 < cfg.pageSize)
    (h : Reachable cfg specAlgo needSort numPages σ) {lastBatch : List ℕ} {runningBatch : Option (List ℕ)}
    (hreqs : σ.HoldsRows (countedReqs lastBatch runningBatch)) :
    (σ.selfCheckDuringBusy cfg (numPages * cfg.pageSize) lastBatch runningBatch).map Prod.fst = some false := by
  have hinv := h.inv hps
  rw [selfCheckDuringBusy, hinv.getTotalUncachedSizes_eq hreqs, Option.map_some, Option.map_some,
    checkPoolInvariant]
  exact congrArg some (decide_eq_false (not_not.mpr hinv.accounted))

/-- A request that holds a page and a half of a pool of four pages. -/
theorem self_check_reports_no_leak_of_three_tokens : ∃ σ : KVState, Reachable pairConfig false false 4 σ ∧
    0 ∈ σ.live ∧ σ.getTotalUncachedSizes pairConfig [0] = some 4 ∧
    (σ.selfCheckDuringBusy pairConfig (4 * 2) [0] none).map Prod.fst = some false := by
  have h : Reachable pairConfig false false 4 threeTokens := ⟨0, 2, _, reached_threeTokens⟩
  exact ⟨_, h, by decide, by decide, self_check_reports_no_leak (by decide) h ⟨by decide, by decide, by decide⟩⟩

/-- **An idle server drains.** Without live requests, evicting all that is evictable brings back the whole
pool. -/
theorem idle_server_drains {specAlgo needSort : Bool} (hps : 0 < cfg.pageSize)
    (h : Reachable cfg specAlgo needSort numPages σ) (hidle : σ.live = ∅) (ties : ℕ → ℕ) {n : ℕ}
    (hn : σ.cache.evictableSize ≤ n) :
    ∃ σ', σ.evict cfg ties n = .ok σ' ∧ σ'.allocator.availableSize = numPages * cfg.pageSize := by
  have hinv := h.inv hps
  obtain ⟨locks, hacc, hlocks⟩ := hinv.locks
  rw [hidle] at hlocks
  obtain rfl : locks = [] := (Multiset.coe_eq_zero _).mp hlocks
  have hprot : σ.cache.protectedSize = 0 := by
    rw [hacc.protected_eq, PageTree.sum]
    refine Finset.sum_eq_zero fun x _ => ?_
    by_cases hr : x = σ.cache.tree.root
    · simp [contrib, hr]
    cases hx : σ.cache.tree.nodes x with
    | none => simp [contrib, hx]
    | some xd => simp [contrib_eq _ hx hr, RadixCache.protectedLen, hacc.lock_eq x xd hx hr, holds]
  have htotal := hinv.accounted
  rw [hprot, hidle, Finset.sum_empty] at htotal
  obtain ⟨c', freed, hrun, -, havail, hle, hdone⟩ := evict_frees (h.consistent hps) ties n
  refine ⟨{ σ with cache := c', allocator := freed.foldl free σ.allocator }, ?_, ?_⟩
  · simp only [evict, hrun, bind, Except.bind]
  · push_cast at htotal
    rw [havail]
    zify
    omega

/-- The request is released, and its whole page stays in the cache. -/
theorem idle_server_drains_of_released : ∃ σ : KVState, Reachable pairConfig false false 4 σ ∧ σ.live = ∅ ∧
    σ.allocator.availableSize = 6 ∧
    ∃ σ', σ.evict pairConfig id 2 = .ok σ' ∧ σ'.allocator.availableSize = 4 * 2 := by
  have h := reached_threeTokens.tail (.releaseKvCache (by decide) (by decide)
    (rfl : releaseKvCache pairConfig false 2 _ 0 true = .ok _))
  exact ⟨_, ⟨0, 2, _, h⟩, by decide, by decide,
    idle_server_drains (by decide) ⟨0, 2, _, h⟩ (by decide) id (by decide)⟩

end KVState

end SGLang.MemCache
