/-
# SGLang.MemCache.StripThinking — releasing requests whose reasoning is not cached.

With `strip_thinking_cache`, a request that has produced reasoning tokens reports no more than its prompt as
committed (`_cache_commit_len`): `cache_finished_req` inserts the prompt, and `release_kv_cache` frees what
lies behind it as over-allocated. A retracted request is prefilled again with its prompt *and* its output,
so `cache_unfinished_req` may already have given slots behind the prompt to the tree.

`release_frees_no_tree_slot_iff` says when a release frees none of the tree's slots: if the slots the tree
has of the request (`cache_protected_len`) do not reach behind its prompt, or it has no reasoning tokens.
-/
import SGLang.MemCache.KVConservation

namespace SGLang.MemCache

open SGLang.Lib SGLang.Lib.PageTree RadixKey KVState List
open RadixCache (pairConfig)
open Multiset (mem_of_le zero_le)
open NodeData (value)
open Relation (ReflTransGen)

/-! ## The model -/

/-- The fields of `Req` about its prompt and its reasoning. -/
structure Thinking where
  /-- `len(origin_input_ids)` -/
  promptLen : ℕ
  requireReasoning : Bool
  isReasoningOver : Bool
  reasoningTokens : ℕ
deriving DecidableEq, Repr

namespace Thinking

/-- `Req.update_reasoning_tokens`. -/
def updateReasoningTokens (th : Thinking) (tokenId : List ℕ) (thinkEndId : ℕ) : Thinking :=
  if th.isReasoningOver then th
  else match tokenId.findIdx? (· = thinkEndId) with
    | some endPos =>
      { th with reasoningTokens := th.reasoningTokens + (endPos + 1), isReasoningOver := true }
    | none => { th with reasoningTokens := th.reasoningTokens + tokenId.length }

/-- `Scheduler._maybe_update_reasoning_tokens`. -/
def maybeUpdateReasoningTokens (th : Thinking) (tokenId : List ℕ) (thinkEndId : Option ℕ) : Thinking :=
  match thinkEndId with
  | some thinkEndId => if th.requireReasoning then th.updateReasoningTokens tokenId thinkEndId else th
  | none => th

/-- `Req._cache_commit_len`. -/
def cacheCommitLen (strip : Bool) (th : Thinking) (r : Req) : ℕ :=
  if strip ∧ 0 < th.reasoningTokens then min r.kvCommittedLen th.promptLen else r.kvCommittedLen

end Thinking

/-- The memory of the scheduler, what it knows of the requests' reasoning, and the requests that wait to be
prefilled again. -/
structure ThinkingServer where
  kv : KVState
  thinking : ℕ → Thinking
  retracted : Finset ℕ

namespace ThinkingServer

/-- `release_kv_cache`. -/
def releaseKvCache (cfg : Config) (strip specAlgo : Bool) (now : ℤ) (s : ThinkingServer) (rid : ℕ)
    (isInsert : Bool) : Except Error KVState :=
  s.kv.releaseFrom cfg (specAlgo || strip) now rid
    ((s.thinking rid).cacheCommitLen strip (s.kv.reqs rid)) isInsert

/-- A step of the scheduler; every release is of a request that `meets` a condition. -/
inductive Step (cfg : Config) (strip specAlgo : Bool) (thinkEndId : Option ℕ)
    (meets : Thinking → Req → Prop) : ThinkingServer → ThinkingServer → Prop
  /-- a new request -/
  | arrive {σ σ' : KVState} {th : ℕ → Thinking} {ret : Finset ℕ} {now : ℤ} {rid : ℕ}
      {tokens : List ℕ} {extraKey : Option String} {priority : Option ℤ} {maxPrefixLen : ℕ}
      (requireReasoning : Bool) : rid ∉ σ.live → rid ∉ ret →
      σ.matchAndLock cfg now rid tokens extraKey priority maxPrefixLen = .ok σ' →
      Step cfg strip specAlgo thinkEndId meets ⟨σ, th, ret⟩
        ⟨σ', Function.update th rid ⟨tokens.length, requireReasoning, false, 0⟩, ret⟩
  /-- a retracted request starts over, with its prompt and its output -/
  | resume {σ σ' : KVState} {th : ℕ → Thinking} {ret : Finset ℕ} {now : ℤ} {rid maxPrefixLen : ℕ} :
      rid ∉ σ.live → rid ∈ ret →
      σ.matchAndLock cfg now rid (σ.reqs rid).tokens (σ.reqs rid).extraKey (σ.reqs rid).priority
        maxPrefixLen = .ok σ' →
      Step cfg strip specAlgo thinkEndId meets ⟨σ, th, ret⟩ ⟨σ', th, ret.erase rid⟩
  | allocForExtend {σ σ' : KVState} {th : ℕ → Thinking} {ret : Finset ℕ} {ties : ℕ → ℕ}
      {batch : List (ℕ × ℕ)} : (batch.map Prod.fst).Nodup → (∀ b ∈ batch, σ.CanExtend b) →
      σ.allocForExtend cfg ties batch = .ok σ' →
      Step cfg strip specAlgo thinkEndId meets ⟨σ, th, ret⟩ ⟨σ', th, ret⟩
  | cacheUnfinishedReq {σ σ' : KVState} {th : ℕ → Thinking} {ret : Finset ℕ} {now now' : ℤ} {rid : ℕ}
      {chunked : Bool} : rid ∈ σ.live → σ.cacheUnfinishedReq cfg now now' rid chunked = .ok σ' →
      Step cfg strip specAlgo thinkEndId meets ⟨σ, th, ret⟩ ⟨σ', th, ret⟩
  | allocForDecode {σ σ' : KVState} {th : ℕ → Thinking} {ret : Finset ℕ} {ties : ℕ → ℕ}
      {rids : List ℕ} : rids.Nodup →
      (∀ rid ∈ rids, rid ∈ σ.live ∧ (σ.reqs rid).reqPoolIdx ≠ none) →
      σ.allocForDecode cfg ties rids = .ok σ' →
      Step cfg strip specAlgo thinkEndId meets ⟨σ, th, ret⟩ ⟨σ', th, ret⟩
  /-- the tokens of one forward pass -/
  | output {σ : KVState} {th : ℕ → Thinking} {ret : Finset ℕ} (rid : ℕ) (tokenId : List ℕ) :
      rid ∈ σ.live →
      Step cfg strip specAlgo thinkEndId meets ⟨σ, th, ret⟩
        ⟨tokenId.foldl (fun σ token => σ.appendOutput rid token) σ,
          Function.update th rid ((th rid).maybeUpdateReasoningTokens tokenId thinkEndId), ret⟩
  | commit {σ : KVState} {th : ℕ → Thinking} {ret : Finset ℕ} {rid n : ℕ} : rid ∈ σ.live →
      (σ.reqs rid).fillIds.length ≤ n → n ≤ (σ.reqs rid).kvAllocatedLen →
      Step cfg strip specAlgo thinkEndId meets ⟨σ, th, ret⟩ ⟨σ.commit rid n, th, ret⟩
  | evict {σ σ' : KVState} {th : ℕ → Thinking} {ret : Finset ℕ} {ties : ℕ → ℕ} {numTokens : ℕ} :
      σ.evict cfg ties numTokens = .ok σ' →
      Step cfg strip specAlgo thinkEndId meets ⟨σ, th, ret⟩ ⟨σ', th, ret⟩
  /-- the request is finished or aborted -/
  | finish {s : ThinkingServer} {σ' : KVState} {now : ℤ} {rid : ℕ} {isInsert : Bool} :
      rid ∈ s.kv.live → (s.kv.reqs rid).kvCommittedLen ≤ (s.kv.reqs rid).tokens.length →
      meets (s.thinking rid) (s.kv.reqs rid) →
      s.releaseKvCache cfg strip specAlgo now rid isInsert = .ok σ' →
      Step cfg strip specAlgo thinkEndId meets s ⟨σ', s.thinking, s.retracted⟩
  /-- `release_req`: the request is retracted -/
  | retract {s : ThinkingServer} {σ' : KVState} {now : ℤ} {rid : ℕ} :
      rid ∈ s.kv.live → (s.kv.reqs rid).kvCommittedLen ≤ (s.kv.reqs rid).tokens.length →
      meets (s.thinking rid) (s.kv.reqs rid) →
      s.releaseKvCache cfg strip specAlgo now rid false = .ok σ' →
      Step cfg strip specAlgo thinkEndId meets s ⟨σ', s.thinking, insert rid s.retracted⟩

/-- The states that runs from a fresh pool lead to. -/
def Reachable (cfg : Config) (strip specAlgo : Bool) (thinkEndId : Option ℕ)
    (meets : Thinking → Req → Prop) (needSort : Bool) (numPages : ℕ) (s : ThinkingServer) : Prop :=
  ∃ now numReqs reqs th, ReflTransGen (Step cfg strip specAlgo thinkEndId meets)
    ⟨.init cfg now needSort numPages numReqs reqs, th, ∅⟩ s

/-- The tree has no slots of the request behind its prompt, or the request has no reasoning to strip. -/
def Covered (cfg : Config) (th : Thinking) (r : Req) : Prop :=
  th.reasoningTokens = 0 ∨ r.cacheProtectedLen ≤ viewLen cfg th.promptLen

instance (cfg : Config) (th : Thinking) (r : Req) : Decidable (Covered cfg th r) :=
  inferInstanceAs (Decidable (_ ∨ _))

end ThinkingServer

/-! ## What a release frees -/

/-- Ranges of positions in a row. -/
abbrev Ranges := List (ℕ × ℕ)

/-- A position in one of the ranges. -/
def Ranges.Has (ranges : Ranges) (j : ℕ) : Prop := ∃ g ∈ ranges, g.1 ≤ j ∧ j < g.2

/-- The positions a release frees: what `cache_finished_req` frees of the key, up to `freeEnd`, its unaligned
tail, and the over-allocated ones. -/
def freedRanges (cfg : Config) (r : Req) (commitLen freeEnd : ℕ) : Ranges :=
  [(r.cacheProtectedLen, freeEnd), (keyLen cfg commitLen, commitLen),
    (pageCount cfg.pageSize commitLen * cfg.pageSize, r.kvAllocatedLen)]

/-- The slots at the ranges of a row go to the allocator, range after range. -/
def freeRanges (table : ℕ → ℕ → ℕ) (idx : ℕ) (a : Allocator) (ranges : Ranges) : Allocator :=
  ranges.foldl (fun a g => a.free ((readRow table idx g.2).drop g.1)) a

section Ranges

variable {cfg : Config} {r : Req} {table : ℕ → ℕ → ℕ} {idx k j freeEnd : ℕ} {a : Allocator}
variable {ranges : Ranges}

theorem freeRanges_cons (g : ℕ × ℕ) : freeRanges table idx a (g :: ranges) =
    freeRanges table idx (a.free ((readRow table idx g.2).drop g.1)) ranges := rfl

theorem pages_le_freeRanges (hgroup : a.isNotInFreeGroup = true) :
    a.pages ≤ (freeRanges table idx a ranges).pages := by
  induction ranges generalizing a with
  | nil => exact le_rfl
  | cons g ranges ih =>
    rw [freeRanges_cons]
    exact (Allocator.pages_le_free hgroup).trans (ih (Allocator.same_free.group_eq.trans hgroup))

/-- The slot at a freed position is on a page of the pool. -/
theorem mem_pages_freeRanges (hgroup : a.isNotInFreeGroup = true) (h : ranges.Has j) :
    table idx j / a.pageSize ∈ (freeRanges table idx a ranges).pages := by
  induction ranges generalizing a with
  | nil =>
    obtain ⟨g, hg, -⟩ := h
    exact absurd hg not_mem_nil
  | cons g ranges ih =>
    rw [freeRanges_cons]
    have hsame : Allocator.SameSettings a (a.free ((readRow table idx g.2).drop g.1)) :=
      Allocator.same_free
    obtain ⟨g', hg', hge, hlt⟩ := h
    rcases mem_cons.mp hg' with rfl | hmem
    · have hslot : table idx j ∈ (readRow table idx g'.2).drop g'.1 := by
        apply mem_of_getElem? (i := j - g'.1)
        rw [getElem?_drop, Nat.add_sub_cancel' hge]
        exact getElem?_readRow hlt
      exact mem_of_le (pages_le_freeRanges (hsame.group_eq.trans hgroup))
        (Allocator.mem_pages_free hgroup hslot)
    · rw [← hsame.1]
      exact ih (hsame.group_eq.trans hgroup) ⟨g', hmem, hge, hlt⟩

/-- **What a release frees starts behind the slots of the tree exactly if the committed length does.** If it
does not, either the unaligned tail or the over-allocated range begins too early. -/
theorem freed_ge_iff (freeEnd : ℕ) (hps : 0 < cfg.pageSize) (hd : cfg.pageSize ∣ r.cacheProtectedLen)
    (ha : r.cacheProtectedLen ≤ r.kvAllocatedLen) :
    (∀ j, (freedRanges cfg r k freeEnd).Has j → r.cacheProtectedLen ≤ j) ↔
      r.cacheProtectedLen ≤ viewLen cfg k := by
  have hKV : keyLen cfg k ≤ viewLen cfg k := keyLen_le_viewLen
  have hVk : viewLen cfg k ≤ k := viewLen_le
  constructor
  · intro hall
    by_contra hlt
    rcases (hKV.trans hVk).lt_or_eq with htail | hflush
    · have := hall (keyLen cfg k) ⟨(keyLen cfg k, k), by simp [freedRanges], le_rfl, htail⟩
      omega
    · -- the key ends at `k`, so the over-allocated range begins there
      have hstart : pageCount cfg.pageSize k * cfg.pageSize = k := by
        have hdk : cfg.pageSize ∣ k := hflush ▸ dvd_keyLen
        rw [pageCount_of_dvd hps hdk, Nat.div_mul_cancel hdk]
      have := hall k ⟨(pageCount cfg.pageSize k * cfg.pageSize, r.kvAllocatedLen),
        by simp [freedRanges], hstart.le, by omega⟩
      omega
  · rintro hle j ⟨g, hg, hge, -⟩
    simp only [freedRanges, mem_cons, not_mem_nil, or_false] at hg
    rcases hg with rfl | rfl | rfl
    · exact hge
    · exact (le_keyLen hd hle).trans hge
    · exact (hle.trans (hVk.trans (le_pageCount_mul hps))).trans hge

end Ranges

/-! ## Releases -/

namespace KVState

variable {cfg : Config} {numPages rid idx k j : ℕ} {hand : Multiset ℕ} {pending : List ℕ}
variable {σ σ' : KVState} {r : Req} {table : ℕ → ℕ → ℕ} {t : Tree}

/-- A release goes through whatever length the request reports; it frees the ranges and leaves every path of
the tree as it is. -/
theorem releaseFrom_spec (now : ℤ) (isInsert : Bool) (h : Inv cfg numPages hand [] σ)
    (hrid : rid ∈ σ.live) (hidx : (σ.reqs rid).reqPoolIdx = some idx) (hk : k ≤ (σ.reqs rid).tokens.length) :
    ∃ σ' freeEnd, σ.releaseFrom cfg true now rid k isInsert = .ok σ' ∧
      σ'.allocator = freeRanges σ.reqToToken idx σ.allocator (freedRanges cfg (σ.reqs rid) k freeEnd) ∧
      ∀ n us vs, σ.cache.tree.Spells value n us vs → σ'.cache.tree.Spells value n us vs := by
  have hps := h.ps_pos
  have hreq := h.req rid hrid
  obtain ⟨c₁, E, locks, hfin, -, -, hkeep, hE, -⟩ := cacheFinishedReq_run now isInsert idx h hrid hk
  obtain ⟨σ', hrun, hcache, halloc⟩ : ∃ σ', σ.releaseFrom cfg true now rid k isInsert = .ok σ' ∧
      σ'.cache = c₁ ∧ σ'.allocator = freeOverallocated cfg ((σ.allocator.free
        (((readRow σ.reqToToken idx k).take E).drop (σ.reqs rid).cacheProtectedLen)).free
        ((readRow σ.reqToToken idx k).drop (keyLen cfg k))) σ.reqToToken idx k (σ.reqs rid) := by
    simp only [releaseFrom, hidx, hfin, bind, Except.bind, setReq_self, hreq.not_freed.2, Bool.false_eq_true,
      ↓reduceIte, Bool.not_true, Bool.false_and]
    exact ⟨_, rfl, rfl, rfl⟩
  refine ⟨σ', E, hrun, ?_, hcache ▸ hkeep⟩
  rw [halloc, take_readRow (hE.trans keyLen_le)]
  simp only [freeOverallocated, overallocated_start hps]
  split
  · rfl
  · next hnone =>
    -- nothing is over-allocated, and freeing no slot changes nothing
    have hnil : (readRow σ.reqToToken idx (σ.reqs rid).kvAllocatedLen).drop
        (pageCount cfg.pageSize k * cfg.pageSize) = [] :=
      drop_of_length_le (by rw [length_readRow]; exact not_lt.mp hnone)
    simp only [freedRanges, freeRanges, foldl_cons, foldl_nil, hnil]
    rfl

/-- A slot whose page is in the pool is in no node of the tree. -/
theorem Inv.not_in_tree (h : Inv cfg numPages hand pending σ) {slot n : ℕ}
    {nd : Node RadixKey ChildKey NodeData} (hslot : slot / cfg.pageSize ∈ σ.allocator.pages)
    (hn : σ.cache.tree.nodes n = some nd) (hne : n ≠ σ.cache.tree.root) : slot ∉ nd.data.value := by
  intro hmem
  have hps := h.ps_pos
  obtain ⟨P, hP⟩ := h.pages n nd hn hne
  have hpage : slot / cfg.pageSize ∈ σ.cache.tree.slotPages cfg.pageSize value := by
    refine mem_of_le (Finset.single_le_sum (fun _ _ => zero_le _) (Finset.mem_range.mpr (h.wf.lt_next hn))) ?_
    rw [contrib_eq _ hn hne, hP, pagesOf_expand hps, Multiset.mem_coe]
    rw [hP] at hmem
    obtain ⟨p, hp, hmem⟩ := mem_flatMap.mp hmem
    obtain ⟨i, hi, rfl⟩ := mem_map.mp hmem
    rwa [Nat.add_comm, Nat.add_mul_div_right _ _ hps, Nat.div_eq_of_lt (mem_range.mp hi), zero_add]
  have hnodup : (σ.allocator.pages + σ.cache.tree.slotPages cfg.pageSize value).Nodup := by
    refine Multiset.nodup_of_le ?_ (h.conserved ▸ (Finset.Icc 1 numPages).nodup)
    rw [add_assoc]
    exact le_add_of_nonneg_right (zero_le _)
  exact Multiset.disjoint_left.mp (Multiset.nodup_add.mp hnodup).2.2 hslot hpage

/-- The slots of a row below `cache_protected_len` are those of the nodes the request has locked. -/
theorem ReqInv.slot_in_tree (h : ReqInv cfg t table r) (hh : Held cfg table r idx)
    (hj : j < r.cacheProtectedLen) {t' : Tree} (hs : t'.Spells value r.lastNode
      ((reqUnits cfg r).take r.cacheProtectedLen) (r.prefixIndices.take r.cacheProtectedLen)) :
    ∃ n nd, t'.nodes n = some nd ∧ n ≠ t'.root ∧ table idx j ∈ nd.data.value := by
  obtain ⟨l, hl, -, halong⟩ := hs
  have hslot : table idx j ∈ t'.along value l := by
    rw [halong, ← h.row_front hh]
    exact mem_map_of_mem (mem_range.mpr hj)
  obtain ⟨n, hn, hmem⟩ := mem_flatMap.mp hslot
  obtain ⟨hne, nd, hnd⟩ := hl.node_of_mem hn
  refine ⟨n, nd, hnd, hne, ?_⟩
  rwa [held_eq hnd] at hmem

end KVState

namespace ThinkingServer

variable {cfg : Config} {strip specAlgo needSort : Bool} {thinkEndId : Option ℕ} {numPages rid idx : ℕ}
variable {s s' : ThinkingServer} {th : Thinking} {r : Req} {table : ℕ → ℕ → ℕ}

theorem cacheCommitLen_le : th.cacheCommitLen strip r ≤ r.kvCommittedLen := by
  unfold Thinking.cacheCommitLen
  split
  · exact min_le_left _ _
  · exact le_rfl

/-- The length a request reports covers the slots of the tree exactly if its prompt does. -/
theorem covered_iff (hh : Held cfg table r idx) :
    r.cacheProtectedLen ≤ viewLen cfg (th.cacheCommitLen true r) ↔ Covered cfg th r := by
  have hcommitted : r.cacheProtectedLen ≤ viewLen cfg r.kvCommittedLen :=
    hh.prot_le.trans (viewLen_mono hh.fill_le)
  unfold Thinking.cacheCommitLen Covered
  split
  · next hstrip =>
    have hpos : th.reasoningTokens ≠ 0 := hstrip.2.ne'
    rw [or_iff_right hpos]
    rcases le_total r.kvCommittedLen th.promptLen with hle | hle
    · rw [min_eq_left hle]
      exact iff_of_true hcommitted (hcommitted.trans (viewLen_mono hle))
    · rw [min_eq_right hle]
  · next hplain =>
    refine iff_of_true hcommitted (.inl ?_)
    simpa using hplain

/-- A release whose slots are covered keeps the invariant. -/
theorem releaseKvCache_inv {isInsert : Bool} {now : ℤ} {σ' : KVState}
    (h : KVState.Inv cfg numPages 0 [] s.kv) (hrid : rid ∈ s.kv.live)
    (hcommit : (s.kv.reqs rid).kvCommittedLen ≤ (s.kv.reqs rid).tokens.length)
    (hcov : Covered cfg (s.thinking rid) (s.kv.reqs rid))
    (hrun : s.releaseKvCache cfg true specAlgo now rid isInsert = .ok σ') :
    KVState.Inv cfg numPages 0 [] σ' := by
  cases hidx : (s.kv.reqs rid).reqPoolIdx with
  | none =>
    simp only [releaseKvCache, releaseFrom, hidx] at hrun
    cases hrun
  | some idx =>
    have hh := h.held hrid not_mem_nil hidx
    exact releaseFrom_inv h hrid ((covered_iff hh).mpr hcov)
      (cacheCommitLen_le.trans hcommit) (cacheCommitLen_le.trans hh.committed_le) hrun

theorem appendOutputs_inv {σ : KVState} {tokenId : List ℕ} (h : KVState.Inv cfg numPages 0 [] σ)
    (hrid : rid ∈ σ.live) :
    KVState.Inv cfg numPages 0 [] (tokenId.foldl (fun σ token => σ.appendOutput rid token) σ) := by
  induction tokenId generalizing σ with
  | nil => exact h
  | cons token rest ih =>
    apply ih
    · exact appendOutput_inv h hrid
    · exact hrid

/-- **Every step keeps the invariant, if what it releases is covered.** -/
theorem Step.inv (hstep : Step cfg true specAlgo thinkEndId (Covered cfg) s s')
    (h : KVState.Inv cfg numPages 0 [] s.kv) : KVState.Inv cfg numPages 0 [] s'.kv := by
  -- but for the releases these are steps of the scheduler as it is without reasoning
  have lift : ∀ {σ σ' : KVState}, KVState.Step cfg specAlgo σ σ' → KVState.Inv cfg numPages 0 [] σ →
      KVState.Inv cfg numPages 0 [] σ' := fun hs hi => hs.inv hi
  cases hstep with
  | arrive _ hlive _ hrun | resume hlive _ hrun => exact lift (.matchAndLock hlive hrun) h
  | allocForExtend hnodup hcan hrun => exact lift (.allocForExtend hnodup hcan hrun) h
  | cacheUnfinishedReq hlive hrun => exact lift (.cacheUnfinishedReq hlive hrun) h
  | allocForDecode hnodup hrids hrun => exact lift (.allocForDecode hnodup hrids hrun) h
  | output _ _ hlive => exact appendOutputs_inv h hlive
  | commit hlive hfill hn => exact lift (.commit hlive hfill hn) h
  | evict hrun => exact lift (.evict hrun) h
  | finish hlive hcommit hcov hrun | retract hlive hcommit hcov hrun =>
      exact releaseKvCache_inv h hlive hcommit hcov hrun

theorem Reachable.inv (hps : 0 < cfg.pageSize)
    (h : Reachable cfg true specAlgo thinkEndId (Covered cfg) needSort numPages s) :
    KVState.Inv cfg numPages 0 [] s.kv := by
  obtain ⟨now, numReqs, reqs, th, hrun⟩ := h
  induction hrun with
  | refl => exact init_inv now numReqs reqs hps
  | tail _ hstep ih => exact hstep.inv ih

/-- **When a release with `strip_thinking_cache` frees no slot of the tree.** In every state of a run whose
releases so far were all covered, `release_kv_cache` of a live request with a row goes through. It frees only
positions from `cache_protected_len` on, and only slots that no node stores afterwards, exactly if the request
has no reasoning tokens or the tree has no slots of it behind its prompt. -/
theorem release_frees_no_tree_slot_iff (hps : 0 < cfg.pageSize)
    (h : Reachable cfg true specAlgo thinkEndId (Covered cfg) needSort numPages s)
    (hrid : rid ∈ s.kv.live) (hidx : (s.kv.reqs rid).reqPoolIdx = some idx)
    (hcommit : (s.kv.reqs rid).kvCommittedLen ≤ (s.kv.reqs rid).tokens.length) (now : ℤ) (isInsert : Bool) :
    ∃ σ' ranges, s.releaseKvCache cfg true specAlgo now rid isInsert = .ok σ' ∧
      (∃ freeEnd, ranges = freedRanges cfg (s.kv.reqs rid)
        ((s.thinking rid).cacheCommitLen true (s.kv.reqs rid)) freeEnd) ∧
      σ'.allocator = freeRanges s.kv.reqToToken idx s.kv.allocator ranges ∧
      ((∀ j, ranges.Has j → (s.kv.reqs rid).cacheProtectedLen ≤ j) ↔
        Covered cfg (s.thinking rid) (s.kv.reqs rid)) ∧
      ((∀ j, ranges.Has j → ∀ n nd, σ'.cache.tree.nodes n = some nd → n ≠ σ'.cache.tree.root →
          s.kv.reqToToken idx j ∉ nd.data.value) ↔
        Covered cfg (s.thinking rid) (s.kv.reqs rid)) := by
  have hinv := h.inv hps
  have hreq := hinv.req rid hrid
  have hh := hinv.held hrid not_mem_nil hidx
  obtain ⟨σ', freeEnd, hrun, halloc, hkeep⟩ := releaseFrom_spec now isInsert hinv hrid hidx
    (k := (s.thinking rid).cacheCommitLen true (s.kv.reqs rid)) (cacheCommitLen_le.trans hcommit)
  have hrel : s.releaseKvCache cfg true specAlgo now rid isInsert = .ok σ' := by
    rw [releaseKvCache, Bool.or_true]
    exact hrun
  have hpositions := freed_ge_iff (k := (s.thinking rid).cacheCommitLen true (s.kv.reqs rid))
    freeEnd hps hreq.prot_dvd
    (hh.prot_le.trans (viewLen_le.trans (hh.fill_le.trans hh.committed_le)))
  rw [covered_iff hh] at hpositions
  refine ⟨σ', _, hrel, ⟨freeEnd, rfl⟩, halloc, hpositions, ?_, fun hcov j hj n nd hn hne => ?_⟩
  · -- a freed position below `cache_protected_len` is a slot of a locked node
    intro hslots
    refine hpositions.mp fun j hj => ?_
    by_contra hlt
    obtain ⟨n, nd, hn, hne, hmem⟩ :=
      hreq.slot_in_tree hh (not_le.mp hlt) (hkeep _ _ _ hreq.spells)
    exact hslots j hj n nd hn hne hmem
  · have hinv' := releaseKvCache_inv hinv hrid hcommit hcov hrel
    refine hinv'.not_in_tree ?_ hn hne
    rw [halloc, ← hinv.settled.pageSize_eq]
    exact mem_pages_freeRanges hinv.settled.no_group hj

/-- A server with four pages of two slots, on which no request has arrived. -/
def idleServer : ThinkingServer := ⟨KVState.smallServer, fun _ => ⟨0, false, false, 0⟩, ∅⟩

/-- A step on that server or after it, with `9` as the token that ends the reasoning. -/
abbrev PairStep : ThinkingServer → ThinkingServer → Prop :=
  Step pairConfig true false (some 9) (Covered pairConfig)

/-- A request with the prompt `[1, 2]` reasons for two tokens, the first of which is decoded. It is then
retracted and prefilled again with its first reasoning tokens, which `cache_unfinished_req` gives to the tree as
node 2; its release frees the slots of that node. -/
theorem exists_reasoning : ∃ s : ThinkingServer, ReflTransGen PairStep idleServer s ∧
    0 ∈ s.kv.live ∧ (s.kv.reqs 0).reqPoolIdx = some 1 ∧ (s.kv.reqs 0).tokens = [1, 2, 3, 4] ∧
    (s.kv.reqs 0).kvCommittedLen = 3 ∧ s.thinking 0 = ⟨2, true, false, 2⟩ ∧
    (s.kv.reqs 0).cacheProtectedLen = 2 ∧ ∃ s' σ' nd, ReflTransGen PairStep idleServer s' ∧ 0 ∈ s'.kv.live ∧
      s'.releaseKvCache pairConfig true false 8 0 true = .ok σ' ∧
      σ'.cache.tree.nodes 2 = some nd ∧ nd.data.value = [4, 5] ∧ 4 / 2 ∈ σ'.allocator.freePages := by
  have h₁ := (Relation.ReflTransGen.refl (a := idleServer)).tail (.arrive true (by decide) (by decide)
      (rfl : matchAndLock pairConfig 1 _ 0 [1, 2] none none 1 = .ok _) :
      PairStep idleServer _)
  have h₂ := h₁.tail (.allocForExtend (by decide) (by unfold CanExtend; decide)
    (rfl : allocForExtend pairConfig id _ [(0, 2)] = .ok _))
  have h₃ := h₂.tail (.output 0 [3] (by decide))
  have h₄ := h₃.tail (.cacheUnfinishedReq (by decide)
    (rfl : cacheUnfinishedReq pairConfig 2 3 _ 0 false = .ok _))
  have h₅ := h₄.tail (.allocForDecode (by decide) (by decide)
    (rfl : allocForDecode pairConfig id _ [0] = .ok _))
  have h₆ := h₅.tail (.output 0 [4] (by decide))
  have h₇ := h₆.tail (.retract (by decide) (by decide) (by decide)
    (rfl : releaseKvCache pairConfig true false 4 _ 0 false = .ok _))
  have h₈ := h₇.tail (.resume (by decide) (by decide)
    (rfl : matchAndLock pairConfig 5 _ 0 [1, 2, 3, 4] none none 3 = .ok _))
  have h₉ := h₈.tail (.allocForExtend (by decide) (by unfold CanExtend; decide)
    (rfl : allocForExtend pairConfig id _ [(0, 4)] = .ok _))
  have h₁₀ := h₉.tail (.output 0 [5] (by decide))
  have h₁₁ := h₁₀.tail (.cacheUnfinishedReq (by decide)
    (rfl : cacheUnfinishedReq pairConfig 6 7 _ 0 false = .ok _))
  exact ⟨_, h₆, by decide, by decide, by decide, by decide, by decide, by decide, _, _, _, h₁₁,
    by decide, rfl, rfl, by decide, by decide⟩

/-- The release of that request is covered, so it frees none of the tree's slots. -/
theorem release_frees_no_tree_slot_of_prompt : ∃ s : ThinkingServer,
    Reachable pairConfig true false (some 9) (Covered pairConfig) false 4 s ∧
    ∃ σ' ranges, s.releaseKvCache pairConfig true false 4 0 true = .ok σ' ∧
      σ'.allocator = freeRanges s.kv.reqToToken 1 s.kv.allocator ranges ∧
      ∀ j, ranges.Has j → 2 ≤ j := by
  obtain ⟨s, hrun, hlive, hidx, htokens, hcommitted, hth, hprot, -⟩ := exists_reasoning
  have hreach : Reachable pairConfig true false (some 9) (Covered pairConfig) false 4 s := ⟨0, 2, _, _, hrun⟩
  obtain ⟨σ', ranges, hrel, -, halloc, hiff, -⟩ := release_frees_no_tree_slot_iff (by decide) hreach hlive
    hidx (by rw [hcommitted, htokens]; decide) 4 true
  refine ⟨s, hreach, σ', ranges, hrel, halloc, ?_⟩
  rw [hprot, hth] at hiff
  exact hiff.mpr (.inr (by rw [hprot]; decide))

/-- **A retracted request** whose release frees the slots of node 2. -/
theorem release_frees_tree_slot : ∃ (s : ThinkingServer) (σ' : KVState) (nd : Node RadixKey ChildKey NodeData),
    ReflTransGen PairStep idleServer s ∧ 0 ∈ s.kv.live ∧
    s.releaseKvCache pairConfig true false 8 0 true = .ok σ' ∧
    σ'.cache.tree.nodes 2 = some nd ∧ nd.data.value = [4, 5] ∧ 4 / 2 ∈ σ'.allocator.freePages := by
  obtain ⟨-, -, -, -, -, -, -, -, h⟩ := exists_reasoning
  exact h

end ThinkingServer

end SGLang.MemCache
