/-
# SGLang.Managers.PrefillAdder — which waiting requests a prefill batch takes.

The model of `PrefillAdder` over a `RadixCache` that is on, without diffusion models and hybrid pools: the
budgets it keeps, `add_one_req` with its two looks at the remaining tokens around the lock of the request's
prefix, and a scheduling round, in which every request is matched against the tree and then offered. A round
ends with the allocation of `prepare_for_extend` for the requests that were taken.

With the cache on, `host_hit_length` is 0 and the `ignore_eos` path is closed. `new_token_ratio` is a
rational number here; the counters for logging are left out.
-/
import SGLang.MemCache.KVAllocation

namespace SGLang.Managers

open SGLang.Lib SGLang.MemCache

/-! ## State -/

/-- `CLIP_MAX_NEW_TOKENS`. -/
def clipMaxNewTokens : ℕ := 4096

inductive AddReqResult
  | proceed | noToken | other
deriving DecidableEq, Repr

/-- A request of the running batch: `sampling_params.max_new_tokens` and `len(output_ids)`. -/
structure RunningReq where
  maxNewTokens : ℕ
  outputLen : ℕ
deriving DecidableEq, Repr

/-- A waiting request. `logprobStartLen` is there if log probabilities of the input are asked for, and
`embedOverrides` says that some input embeddings are overridden. -/
structure WaitingReq where
  originInputIds : List ℕ
  outputIds : List ℕ
  extraKey : Option String
  maxNewTokens : ℕ
  logprobStartLen : Option ℕ
  embedOverrides : Bool
deriving DecidableEq, Repr

/-- A request after `init_next_round_input`. -/
structure PrefillReq where
  fillIds : List ℕ
  prefixIndices : List ℕ
  lastNode : ℕ
  extendInputLen : ℕ
  maxNewTokens : ℕ
  outputLen : ℕ
deriving DecidableEq, Repr

structure PrefillAdder where
  kv : KVState
  remInputTokens : ℤ
  remChunkTokens : Option ℤ
  remTotalTokenOffset : ℚ
  curRemTokenOffset : ℤ
  canRunList : List PrefillReq
  newChunkedReq : Option PrefillReq
  contextParallel : Bool
  prefillMaxRequests : Option ℕ

/-- The limits of a round that do not come from the memory. -/
structure Limits where
  remInputTokens : ℤ
  remChunkTokens : Option ℤ
  contextParallel : Bool
  prefillMaxRequests : Option ℕ
deriving DecidableEq, Repr

/-- `_get_running_request_total_token_offset`. -/
def runningTokenOffset (newTokenRatio : ℚ) (r : RunningReq) : ℚ :=
  (min ((r.maxNewTokens : ℤ) - r.outputLen) clipMaxNewTokens : ℤ) * newTokenRatio

/-- `rem_total_token_offset` of a new adder. -/
def initialOffset (newTokenRatio : ℚ) (numMixedDecodeTokens : ℕ) (running : List RunningReq) : ℚ :=
  numMixedDecodeTokens + (running.map (runningTokenOffset newTokenRatio)).sum

namespace PrefillAdder

/-- `__init__`. -/
def init (kv : KVState) (limits : Limits) (newTokenRatio : ℚ) (numMixedDecodeTokens : ℕ)
    (running : List RunningReq) : PrefillAdder where
  kv := kv
  remInputTokens := limits.remInputTokens - numMixedDecodeTokens
  remChunkTokens := limits.remChunkTokens.map (· - numMixedDecodeTokens)
  remTotalTokenOffset := initialOffset newTokenRatio numMixedDecodeTokens running
  curRemTokenOffset := numMixedDecodeTokens
  canRunList := []
  newChunkedReq := none
  contextParallel := limits.contextParallel
  prefillMaxRequests := limits.prefillMaxRequests

/-! ## Budgets -/

variable (a : PrefillAdder)

/-- `available_size() + evictable_size()`. -/
def availableAndEvictable : ℤ :=
  a.kv.allocator.availableSize + a.kv.cache.evictableSize

def remTotalTokens : ℚ := a.availableAndEvictable - a.remTotalTokenOffset

def curRemTokens : ℤ := a.availableAndEvictable - a.curRemTokenOffset

/-- `ceil_paged_tokens`. -/
def ceilPagedTokens (ps tokens : ℕ) : ℕ := pageCount ps tokens * ps

def budgetState : AddReqResult :=
  if a.remTotalTokens ≤ 0 ∨ a.curRemTokens ≤ 0 then .noToken
  else if a.remInputTokens ≤ 0 then .other
  else if ∃ chunk ∈ a.remChunkTokens, chunk ≤ 0 then .other
  else .proceed

/-- `_update_prefill_budget`. -/
def updatePrefillBudget (ps : ℕ) (a : PrefillAdder) (extendInputLen maxNewTokens : ℕ) : PrefillAdder :=
  let extendInputLen := ceilPagedTokens ps extendInputLen
  { a with
    -- `alloc_extend` may take one more page for a request
    remTotalTokenOffset := a.remTotalTokenOffset + (extendInputLen + maxNewTokens + ps : ℕ)
    curRemTokenOffset := a.curRemTokenOffset + (extendInputLen + ps : ℕ)
    remInputTokens := a.remInputTokens - extendInputLen
    remChunkTokens := a.remChunkTokens.map (· - extendInputLen) }

/-! ## Admission -/

/-- `max_new` and a page more than the input: `total_tokens` of `add_one_req`. -/
def totalTokens (ps : ℕ) (req : PrefillReq) : ℕ :=
  req.extendInputLen + min (req.maxNewTokens - req.outputLen) clipMaxNewTokens + ps

/-- `inc_lock_ref(req.last_node)`. -/
def lockNode (a : PrefillAdder) (n : ℕ) : Except Error PrefillAdder := do
  let (c, _) ← RadixCache.returned (a.kv.cache.incLockRef n)
  .ok { a with kv := { a.kv with cache := c } }

/-- `dec_lock_ref(last_node)`. -/
def unlockNode (a : PrefillAdder) (n : ℕ) : Except Error PrefillAdder := do
  let (c, _) ← RadixCache.returned (a.kv.cache.decLockRef n)
  .ok { a with kv := { a.kv with cache := c } }

/-- The request is appended to `can_run_list`, its prefix locked and the budgets charged. -/
def take (ps : ℕ) (a : PrefillAdder) (req : PrefillReq) (inputTokens maxNewTokens : ℕ) :
    Except Error PrefillAdder := do
  let a ← ({ a with canRunList := a.canRunList ++ [req] } : PrefillAdder).lockNode req.lastNode
  .ok (a.updatePrefillBudget ps inputTokens maxNewTokens)

/-- `trunc_len` of a chunked prefill, if there is room for a chunk. -/
def truncLen (ps : ℕ) (chunk : ℤ) (truncationAlignSize : Option ℕ+) : Option ℕ :=
  let truncLen := (chunk / ps * ps).toNat
  if truncLen = 0 then none
  else match truncationAlignSize with
    | none => some truncLen
    | some size => if truncLen < size then none else some (size * (truncLen / size))

/-- The request without what does not fit into a chunk. -/
def truncate (req : PrefillReq) (truncLen : ℕ) : PrefillReq :=
  { req with
    extendInputLen := truncLen
    fillIds := req.fillIds.take (req.prefixIndices.length + truncLen) }

/-- The part of `add_one_req` under the lock of the prefix, with the result of an early return. -/
def addLocked (ps : ℕ) (a : PrefillAdder) (req : PrefillReq) (truncationAlignSize : Option ℕ+) :
    Except Error (PrefillAdder × Option AddReqResult) :=
  -- `rem_total_tokens` may have decreased with the lock
  if a.remTotalTokens ≤ totalTokens ps req then .ok (a, some .noToken)
  else
    let inputTokens := ceilPagedTokens ps req.extendInputLen
    if a.remInputTokens ≤ inputTokens ∧ a.canRunList ≠ [] then .ok (a, some .other)
    else match a.remChunkTokens with
      | none => do
        let a ← a.take ps req inputTokens (min req.maxNewTokens clipMaxNewTokens)
        .ok (a, none)
      | some chunk =>
        if (inputTokens : ℤ) ≤ chunk then do
          let a ← a.take ps req inputTokens (min req.maxNewTokens clipMaxNewTokens)
          .ok (a, none)
        else match truncLen ps chunk truncationAlignSize with
          | none => .ok (a, some .other)
          | some len => do
            let req := truncate req len
            let a ← ({ a with newChunkedReq := some req } : PrefillAdder).take ps req len 0
            .ok (a, none)

/-- `add_one_req`; `allowPrefill` is the answer of the prefill delayer, if there is one. -/
def addOneReq (ps : ℕ) (a : PrefillAdder) (req : PrefillReq) (allowPrefill : Bool)
    (truncationAlignSize : Option ℕ+) : Except Error (PrefillAdder × AddReqResult) :=
  if allowPrefill = false then .ok (a, .other)
  else if a.contextParallel ∧ 1 ≤ a.canRunList.length then .ok (a, .other)
  else if ∃ x ∈ a.prefillMaxRequests, x ≤ a.canRunList.length then .ok (a, .other)
  else if a.remTotalTokens ≤ totalTokens ps req then .ok (a, .noToken)
  else if a.remInputTokens ≤ ceilPagedTokens ps req.extendInputLen ∧ a.canRunList ≠ [] then
    .ok (a, .other)
  else do
    let a ← a.lockNode req.lastNode
    let (a, early) ← a.addLocked ps req truncationAlignSize
    let a ← a.unlockNode req.lastNode
    .ok (a, early.getD a.budgetState)

/-! ## A round -/

/-- The length up to which `init_next_round_input` looks for a cached prefix. -/
def maxPrefixLen (w : WaitingReq) : ℕ :=
  let inputLen := w.originInputIds.length + w.outputIds.length
  if w.embedOverrides then 0
  else match w.logprobStartLen with
    | none => inputLen - 1
    | some start => min (inputLen - 1) start

/-- `Req.init_next_round_input`. -/
def initNextRoundInput (cfg : Config) (now : ℤ) (a : PrefillAdder) (w : WaitingReq) :
    Except Error (PrefillAdder × PrefillReq) := do
  let fillIds := w.originInputIds ++ w.outputIds
  let (c, m) ← a.kv.cache.matchPrefix cfg now ⟨fillIds.take (maxPrefixLen w), w.extraKey, false⟩
  .ok ({ a with kv := { a.kv with cache := c } },
    ⟨fillIds, m.deviceIndices, m.lastNode, fillIds.length - m.deviceIndices.length, w.maxNewTokens,
      w.outputIds.length⟩)

/-- One request is offered to the adder. -/
structure Call where
  now : ℤ
  req : WaitingReq
  allowPrefill : Bool
  truncationAlignSize : Option ℕ+

/-- A request of the waiting queue is matched and offered. -/
def offer (cfg : Config) (a : PrefillAdder) (call : Call) : Except Error PrefillAdder := do
  let (a, req) ← a.initNextRoundInput cfg call.now call.req
  let (a, _) ← a.addOneReq cfg.pageSize req call.allowPrefill call.truncationAlignSize
  .ok a

/-- A sequence of calls, whatever they return. -/
def round (cfg : Config) (a : PrefillAdder) (calls : List Call) : Except Error PrefillAdder :=
  calls.foldlM (offer cfg) a

/-- What `prepare_for_extend` asks the allocator for. -/
def extendReq (r : PrefillReq) : ExtendReq :=
  ⟨r.prefixIndices.length, r.fillIds.length, lastLoc r.prefixIndices⟩

/-- The allocation of `prepare_for_extend` for `can_run_list`. -/
def allocForRound (cfg : Config) (ties : ℕ → ℕ) (a : PrefillAdder) : Except Error (KVState × List ℕ) :=
  let rs := a.canRunList.map extendReq
  a.kv.allocSlotsExtend cfg ties rs (rs.map fun r => r.seqLen - r.prefixLen).sum

end PrefillAdder

end SGLang.Managers
