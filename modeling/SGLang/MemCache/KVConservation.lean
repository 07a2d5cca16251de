/-
# SGLang.MemCache.KVConservation — no page is lost, and none is in two places.

Every step of the scheduler on the memory of its requests keeps `KVState.Inv` with nothing in hand, so
the multiset equation of the invariant holds in every reachable state. Read place by place it says that
each page of the pool is in exactly one of them.
-/
import SGLang.MemCache.KVAllocation

namespace SGLang.MemCache

open SGLang.Lib SGLang.Lib.PageTree Finset
open RadixCache (pairConfig)

namespace KVState

variable {cfg : Config} {specAlgo needSort : Bool} {numPages : ℕ} {σ σ' : KVState}

/-! ## Runs -/

/-- **Every step keeps the invariant.** -/
theorem Step.inv (hstep : Step cfg specAlgo σ σ') (h : Inv cfg numPages 0 [] σ) : Inv cfg numPages 0 [] σ' := by
  cases hstep with
  | matchAndLock hrid hrun => exact matchAndLock_inv h hrid hrun
  | allocForExtend hnodup hcan hrun => exact allocForExtend_inv h hnodup hcan hrun
  | @cacheUnfinishedReq _ now now' rid chunked hrid hrun =>
    cases hidx : (σ.reqs rid).reqPoolIdx with
    | none =>
      simp only [KVState.cacheUnfinishedReq, hidx] at hrun
      cases hrun
    | some idx =>
      obtain ⟨σ₁, hrun₁, h₁⟩ :=
        cacheUnfinishedReq_spec now now' chunked h hrid List.not_mem_nil hidx
      rw [hrun] at hrun₁
      cases hrun₁
      exact h₁
  | allocForDecode hnodup hrids hrun => exact allocForDecode_inv h hnodup hrids hrun
  | appendOutput hrid => exact appendOutput_inv h hrid
  | commit hrid hfill hn => exact commit_inv h hrid hfill hn
  | releaseKvCache hrid hle hrun => exact releaseKvCache_inv h hrid hle hrun
  | evict hrun => exact (evict_inv h hrun).1

theorem init_inv (now : ℤ) (numReqs : ℕ) (reqs : ℕ → Req) (hps : 0 < cfg.pageSize) :
    Inv cfg numPages 0 [] (init cfg now needSort numPages numReqs reqs) := by
  refine ⟨⟨rfl, rfl, fun _ => rfl⟩, ⟨[], RadixCache.accounting_fresh hps (by simp), rfl⟩, ?_, ?_, ?_, ?_, ?_,
    List.nodup_range', ?_⟩
  · exact fun n nd hn hne => absurd (nodes_single hn).1 hne
  -- no request is live
  iterate 4 exact fun rid hrid => absurd hrid (notMem_empty rid)
  · have htree : (init cfg now needSort numPages numReqs reqs).cache.tree.slotPages cfg.pageSize
        NodeData.value = 0 := sum_single _
    rw [htree]
    show ((List.range' 1 numPages : List ℕ) : Multiset ℕ) + ([] : List ℕ) + 0 + ∑ rid ∈
        (∅ : Finset ℕ), _ + 0 = _
    rw [sum_empty]
    simp only [Multiset.coe_nil, add_zero]
    rfl

theorem Reachable.inv (hps : 0 < cfg.pageSize) (h : Reachable cfg specAlgo needSort numPages σ) :
    Inv cfg numPages 0 [] σ := by
  obtain ⟨now, numReqs, reqs, hrun⟩ := h
  induction hrun with
  | refl => exact init_inv now numReqs reqs hps
  | tail _ hstep ih => exact hstep.inv ih

/-! ## Places -/

/-- Where a page can be: in the pool, in the value of a tree node, or with a live request. -/
inductive Place where
  | pool
  | node (n : ℕ)
  | request (rid : ℕ)
deriving DecidableEq, Repr

/-- The pages in a place, each as often as it occurs: `free_pages` and `release_pages`, the pages of a
node's `value`, or those of the slots of a request's row from `cache_protected_len` on. -/
def pagesAt (cfg : Config) (σ : KVState) : Place → Multiset ℕ
  | .pool => (σ.allocator.freePages : Multiset ℕ) + σ.allocator.releasePages
  | .node n => σ.cache.tree.contrib (fun _ d => (pagesOf cfg.pageSize d.value : Multiset ℕ)) n
  | .request rid =>
    if rid ∈ σ.live then (σ.reqs rid).ownedPages cfg.pageSize σ.reqToToken else 0

/-- The places that can hold pages. -/
def places (σ : KVState) : Finset Place :=
  insert .pool ((Finset.range σ.cache.tree.next).image .node ∪ σ.live.image .request)

theorem sum_pagesAt : ∑ place ∈ σ.places, σ.pagesAt cfg place =
    σ.allocator.pages + σ.cache.tree.slotPages cfg.pageSize NodeData.value +
      ∑ rid ∈ σ.live, (σ.reqs rid).ownedPages cfg.pageSize σ.reqToToken := by
  have hdisj : Disjoint ((range σ.cache.tree.next).image Place.node) (σ.live.image Place.request) := by
    rw [disjoint_left]
    intro place h₁ h₂
    obtain ⟨n, -, rfl⟩ := mem_image.mp h₁
    obtain ⟨rid, -, h⟩ := mem_image.mp h₂
    cases h
  have hpool : Place.pool ∉ (range σ.cache.tree.next).image Place.node ∪ σ.live.image Place.request := by
    simp
  rw [places, sum_insert hpool, sum_union hdisj, sum_image (by simp), sum_image (by simp), add_assoc]
  congr 2
  exact sum_congr rfl fun rid hrid => if_pos hrid

theorem pagesAt_eq_zero (wf : WF cfg.pageSize σ.cache.tree) {place : Place}
    (h : place ∉ σ.places) : σ.pagesAt cfg place = 0 := by
  cases place with
  | pool => exact absurd (mem_insert_self _ _) h
  | node n =>
    cases hn : σ.cache.tree.nodes n with
    | none => simp [pagesAt, contrib, hn]
    | some nd =>
      refine absurd ?_ h
      have := wf.lt_next hn
      simp [places, this]
  | request rid =>
    refine if_neg fun hrid => h ?_
    simp [places, hrid]

/-- A server with four pages of two slots and two rows. -/
def smallServer : KVState :=
  init pairConfig 0 false 4 2 fun _ =>
    ⟨[], none, none, [], [], 0, 0, 0, 0, false, false, none⟩

/-- The server after the prefill of a prompt of three tokens. -/
def threeTokens : KVState :=
  ((smallServer.matchAndLock pairConfig 1 0 [1, 2, 3] none none 2).bind
    (allocForExtend pairConfig id · [(0, 3)])).toOption.getD smallServer

theorem reached_threeTokens : Relation.ReflTransGen (Step pairConfig false) smallServer threeTokens :=
  .tail (.single (.matchAndLock (by decide)
      (rfl : smallServer.matchAndLock pairConfig 1 0 [1, 2, 3] none none 2 = .ok _)))
    (.allocForExtend (by decide) (by unfold CanExtend; decide)
      (rfl : allocForExtend pairConfig id _ [(0, 3)] = .ok _))

end KVState

end SGLang.MemCache
