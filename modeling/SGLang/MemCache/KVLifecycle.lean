/-
# SGLang.MemCache.KVLifecycle — how requests get, share and give back device slots.

The memory path of a request through the scheduler: a prefix match that locks the matched node,
`alloc_for_extend` for a prefill chunk, `cache_unfinished_req` after it, `alloc_for_decode` for every
decoded token, and `release_kv_cache` at the end, which also serves retraction (`is_insert` false).
The state joins the radix cache, the slot allocator, the `req_to_token` table and the requests.

Two settings are fixed: the cache is enabled and `strip_thinking_cache` is off. A request is live from
its match to its release.
-/
import SGLang.MemCache.RadixCache
import SGLang.MemCache.Allocator

namespace SGLang.MemCache

open SGLang.Lib

/-- `Req`, as far as memory goes; `tokens` is `origin_input_ids + output_ids`. -/
structure Req where
  tokens : List ℕ
  extraKey : Option String
  priority : Option ℤ
  fillIds : List ℕ
  prefixIndices : List ℕ
  lastNode : ℕ
  cacheProtectedLen : ℕ
  kvCommittedLen : ℕ
  kvAllocatedLen : ℕ
  kvCommittedFreed : Bool
  kvOverallocatedFreed : Bool
  reqPoolIdx : Option ℕ
deriving DecidableEq, Repr

/-- The cache, the two pools and the requests. -/
structure KVState where
  cache : RadixCache
  allocator : Allocator
  reqToToken : ℕ → ℕ → ℕ
  freeSlots : List ℕ
  reqs : ℕ → Req
  live : Finset ℕ

/-- `req_to_token[(idx, slice(start, start + len(values)))] = values`. -/
def writeRow (table : ℕ → ℕ → ℕ) (idx start : ℕ) (values : List ℕ) : ℕ → ℕ → ℕ := fun i j =>
  if i = idx ∧ start ≤ j ∧ j < start + values.length then values.getD (j - start) 0 else table i j

/-- `req_to_token[idx, :n]`. -/
def readRow (table : ℕ → ℕ → ℕ) (idx n : ℕ) : List ℕ := (List.range n).map (table idx)

/-- The last slot of a prefix, `-1` if there is none. -/
def lastLoc (slots : List ℕ) : ℤ :=
  match slots.getLast? with
  | some slot => slot
  | none => -1

namespace KVState

/-- The request `rid` becomes `r`. -/
def setReq (σ : KVState) (rid : ℕ) (r : Req) : KVState :=
  { σ with reqs := Function.update σ.reqs rid r }

/-! ## Prefix match -/

/-- `Req.init_next_round_input` for a request that enters a batch, and the `inc_lock_ref` that follows.
`maxPrefixLen` is at most the input length minus one, and less when input logprobs are wanted. -/
def matchAndLock (cfg : Config) (now : ℤ) (σ : KVState) (rid : ℕ) (tokens : List ℕ)
    (extraKey : Option String) (priority : Option ℤ) (maxPrefixLen : ℕ) : Except Error KVState := do
  let (c, r) ← σ.cache.matchPrefix cfg now ⟨tokens.take maxPrefixLen, extraKey, false⟩
  let (c, _) ← RadixCache.returned (c.incLockRef r.lastNode)
  let req : Req :=
    { tokens, extraKey, priority
      fillIds := tokens
      prefixIndices := r.deviceIndices
      lastNode := r.lastNode
      cacheProtectedLen := r.deviceIndices.length
      kvCommittedLen := 0
      kvAllocatedLen := 0
      kvCommittedFreed := false
      kvOverallocatedFreed := false
      reqPoolIdx := none }
  .ok { σ.setReq rid req with cache := c, live := insert rid σ.live }

/-! ## Allocation -/

/-- `RadixCache.evict` with its calls of `free`. -/
def evict (cfg : Config) (ties : ℕ → ℕ) (σ : KVState) (numTokens : ℕ) : Except Error KVState := do
  let (c, freed, _) ← σ.cache.evict cfg ties numTokens
  .ok { σ with cache := c, allocator := freed.foldl Allocator.free σ.allocator }

/-- `evict_from_tree_cache`. -/
def evictFromTreeCache (cfg : Config) (ties : ℕ → ℕ) (σ : KVState) (numTokens : ℕ) : Except Error KVState :=
  if σ.allocator.availableSize < numTokens then σ.evict cfg ties numTokens else .ok σ

/-- The result of an allocator call; `None` raises. -/
def orOutOfMemory (σ : KVState) (message : String) :
    Allocator × Option (List ℕ) → Except Error (KVState × List ℕ)
  | (a, some outCacheLoc) => .ok ({ σ with allocator := a }, outCacheLoc)
  | (_, none) => .error (.runtimeError message)

/-- `alloc_token_slots` over `TokenToKVPoolAllocator`. -/
def allocTokenSlots (cfg : Config) (ties : ℕ → ℕ) (σ : KVState) (numTokens : ℕ) :
    Except Error (KVState × List ℕ) := do
  let σ ← σ.evictFromTreeCache cfg ties numTokens
  σ.orOutOfMemory "Out of memory. Try to lower your batch size." (σ.allocator.alloc numTokens)

/-- `alloc_token_slots` over either kind of allocator. -/
def allocTokenSlotsOf (cfg : Config) (ties : ℕ → ℕ) (σ : KVState) (numTokens : ℕ) :
    Except Error (KVState × List ℕ) :=
  if cfg.pageSize = 1 then σ.allocTokenSlots cfg ties numTokens
  else do
    let σ ← σ.evictFromTreeCache cfg ties numTokens
    σ.orOutOfMemory "Out of memory. Try to lower your batch size." (σ.allocator.allocPages numTokens)

/-- `alloc_paged_token_slots_extend`. -/
def allocPagedTokenSlotsExtend (cfg : Config) (ties : ℕ → ℕ) (σ : KVState) (rs : List ExtendReq)
    (extendNumTokens : ℕ) : Except Error (KVState × List ℕ) := do
  -- over-estimate: assume each request needs a new page
  let σ ← σ.evictFromTreeCache cfg ties (extendNumTokens + rs.length * σ.allocator.pageSize)
  σ.orOutOfMemory "Prefill out of memory. Try to lower your batch size."
    (σ.allocator.allocExtend rs extendNumTokens)

/-- `alloc_paged_token_slots_decode`. -/
def allocPagedTokenSlotsDecode (cfg : Config) (ties : ℕ → ℕ) (σ : KVState) (rs : List (ℕ × ℤ)) :
    Except Error (KVState × List ℕ) := do
  let σ ← σ.evictFromTreeCache cfg ties (rs.length * σ.allocator.pageSize)
  σ.orOutOfMemory "Decode out of memory. Try to lower your batch size."
    (σ.allocator.allocDecode rs)

/-- The last loop of `ReqToTokenPool.alloc`. -/
def assignSlots : List ℕ → KVState → KVState
  | [], σ => σ
  | rid :: rids, σ =>
    match (σ.reqs rid).reqPoolIdx, σ.freeSlots with
    | none, slot :: slots =>
      assignSlots rids
        { σ.setReq rid { σ.reqs rid with reqPoolIdx := some slot } with freeSlots := slots }
    | _, _ => assignSlots rids σ

/-- `alloc_req_slots`. A request that reuses its row has committed KV. -/
def allocReqSlots (σ : KVState) (rids : List ℕ) : Except Error KVState :=
  let reusing := rids.filter fun rid => (σ.reqs rid).reqPoolIdx.isSome
  if reusing.all fun rid => 0 < (σ.reqs rid).kvCommittedLen then
    if σ.freeSlots.length < rids.length - reusing.length then
      .error (.runtimeError "alloc_req_slots runs out of memory.")
    else .ok (assignSlots rids σ)
  else .error (.assertion "reusing request must be chunked or have committed KV")

/-- What `alloc_extend_kernel` is given for a request that grows to `seqLen`. -/
def extendReq (σ : KVState) (b : ℕ × ℕ) : ExtendReq :=
  ⟨(σ.reqs b.1).prefixIndices.length, b.2, lastLoc (σ.reqs b.1).prefixIndices⟩

/-- What `prepare_for_extend` notes about a request. -/
def noteExtend (r : Req) (seqLen : ℕ) : Req :=
  { r with fillIds := r.tokens.take seqLen, kvCommittedLen := seqLen, kvAllocatedLen := seqLen }

/-- One request of `write_cache_indices`. -/
def extendRow (σ : KVState) (rid seqLen : ℕ) (outCacheLoc : List ℕ) : KVState :=
  let r := σ.reqs rid
  let idx := r.reqPoolIdx.getD 0
  let table := writeRow σ.reqToToken idx 0 r.prefixIndices
  { σ.setReq rid (noteExtend r seqLen) with
    reqToToken := writeRow table idx r.prefixIndices.length outCacheLoc }

/-- The loop of `write_cache_indices`. -/
def writeCacheIndices : List (ℕ × ℕ) → List ℕ → KVState → KVState
  | [], _, σ => σ
  | (rid, seqLen) :: batch, outCacheLoc, σ =>
    let extendLen := seqLen - (σ.reqs rid).prefixIndices.length
    writeCacheIndices batch (outCacheLoc.drop extendLen)
      (σ.extendRow rid seqLen (outCacheLoc.take extendLen))

/-- The slots for a batch to extend, token by token or by page. -/
def allocSlotsExtend (cfg : Config) (ties : ℕ → ℕ) (σ : KVState) (rs : List ExtendReq)
    (extendNumTokens : ℕ) : Except Error (KVState × List ℕ) :=
  if cfg.pageSize = 1 then σ.allocTokenSlots cfg ties extendNumTokens
  else σ.allocPagedTokenSlotsExtend cfg ties rs extendNumTokens

/-- `alloc_for_extend` on a batch of requests and the lengths they grow to. -/
def allocForExtend (cfg : Config) (ties : ℕ → ℕ) (σ : KVState) (batch : List (ℕ × ℕ)) :
    Except Error KVState := do
  let rs := batch.map σ.extendReq
  let extendNumTokens := (rs.map fun r => r.seqLen - r.prefixLen).sum
  let σ ← σ.allocReqSlots (batch.map Prod.fst)
  let (σ, outCacheLoc) ← σ.allocSlotsExtend cfg ties rs extendNumTokens
  .ok (writeCacheIndices batch outCacheLoc σ)

/-- What `prepare_for_decode` notes about a request. -/
def noteDecode (r : Req) : Req :=
  { r with kvCommittedLen := r.kvCommittedLen + 1, kvAllocatedLen := r.kvAllocatedLen + 1 }

/-- One request of the write in `alloc_for_decode`. -/
def decodeRow (σ : KVState) (rid slot : ℕ) : KVState :=
  let r := σ.reqs rid
  { σ.setReq rid (noteDecode r) with
    reqToToken := writeRow σ.reqToToken (r.reqPoolIdx.getD 0) r.kvAllocatedLen [slot] }

/-- The write in `alloc_for_decode`. -/
def writeDecode : List ℕ → List ℕ → KVState → KVState
  | rid :: rids, slot :: outCacheLoc, σ => writeDecode rids outCacheLoc (σ.decodeRow rid slot)
  | _, _, σ => σ

/-- The length after the decode step, and the slot before it. -/
def decodeSlot (σ : KVState) (rid : ℕ) : ℕ × ℤ :=
  let r := σ.reqs rid
  (r.kvAllocatedLen + 1, σ.reqToToken (r.reqPoolIdx.getD 0) (r.kvAllocatedLen - 1))

/-- The slots for a batch to decode. -/
def allocSlotsDecode (cfg : Config) (ties : ℕ → ℕ) (σ : KVState) (rids : List ℕ) :
    Except Error (KVState × List ℕ) :=
  if cfg.pageSize = 1 then σ.allocTokenSlots cfg ties rids.length
  else σ.allocPagedTokenSlotsDecode cfg ties (rids.map σ.decodeSlot)

/-- `alloc_for_decode` with one token for each request of the batch. -/
def allocForDecode (cfg : Config) (ties : ℕ → ℕ) (σ : KVState) (rids : List ℕ) : Except Error KVState := do
  let (σ, outCacheLoc) ← σ.allocSlotsDecode cfg ties rids
  .ok (writeDecode rids outCacheLoc σ)

/-! ## Handing over to the tree -/

/-- `RadixKey(token_ids, req.extra_key, is_bigram=self.is_eagle).page_aligned(self.page_size)`. -/
def radixKey (cfg : Config) (r : Req) (tokenIds : List ℕ) : RadixKey :=
  (⟨tokenIds, r.extraKey, cfg.isEagle⟩ : RadixKey).pageAligned cfg.pageSize

/-- The request takes over the slots and the node of a match, and keeps the slots behind the tree's: a
partial page, or the last token of the bigram view. -/
def adopt (r : Req) (kvIndices : List ℕ) (m : MatchResult) : Req :=
  { r with
    cacheProtectedLen := m.deviceIndices.length
    prefixIndices :=
      if m.deviceIndices.length < kvIndices.length then
        m.deviceIndices ++ kvIndices.drop m.deviceIndices.length
      else m.deviceIndices
    lastNode := m.lastNode }

variable (cfg : Config)

/-- `RadixCache.cache_unfinished_req`; the clock is read by `insert` and by `match_prefix`. -/
def cacheUnfinishedReq (now now' : ℤ) (σ : KVState) (rid : ℕ) (chunked : Bool) : Except Error KVState :=
  let r := σ.reqs rid
  match r.reqPoolIdx with
  | none => .error .missingNode
  | some idx => do
    let kvIndices := readRow σ.reqToToken idx r.fillIds.length
    let key := radixKey cfg r r.fillIds
    let values := kvIndices.take key.len
    let (c, newPrefixLen) ←
      σ.cache.insert cfg now ⟨key, some values, some (r.priority.getD 0), chunked⟩
    let a := σ.allocator.free ((kvIndices.take newPrefixLen).drop r.cacheProtectedLen)
    -- the prefix indices could be updated, reuse them
    let (c, m) ← c.matchPrefix cfg now' key
    if m.deviceIndices.length = key.len then
      let table := writeRow σ.reqToToken idx r.cacheProtectedLen
        (m.deviceIndices.drop r.cacheProtectedLen)
      let (c, _) ← RadixCache.returned (c.decLockRef r.lastNode)
      let (c, _) ← RadixCache.returned (c.incLockRef m.lastNode)
      .ok { σ.setReq rid (adopt r kvIndices m) with cache := c, allocator := a, reqToToken := table }
    else .error (.assertion "len(new_indices) == len(radix_key)")

/-- The insertion of `cache_finished_req`, and up to where the slots of the key are freed: the
duplicates that were already in the tree, or without insertion the whole key. -/
def insertFinished (now : ℤ) (c : RadixCache) (r : Req) (key : RadixKey)
    (values : List ℕ) (isInsert : Bool) : Except Error (RadixCache × ℕ) :=
  if isInsert && !cfg.disableFinishedInsert then
    c.insert cfg now ⟨key, some values, some (r.priority.getD 0), false⟩
  else .ok (c, key.len)

/-- `RadixCache.cache_finished_req`; `commitLen` is what `pop_committed_kv_cache` returns. -/
def cacheFinishedReq (now : ℤ) (σ : KVState) (rid idx commitLen : ℕ) (isInsert : Bool) :
    Except Error KVState :=
  let r := σ.reqs rid
  if r.kvCommittedFreed then .error (.assertion "Committed KV cache already freed")
  else do
    let tokenIds := r.tokens.take commitLen
    let kvIndices := readRow σ.reqToToken idx tokenIds.length
    let key := radixKey cfg r tokenIds
    let values := kvIndices.take key.len
    let (c, freeEnd) ← insertFinished cfg now σ.cache r key values isInsert
    let a := σ.allocator.free ((kvIndices.take freeEnd).drop r.cacheProtectedLen)
    -- the unaligned tail
    let a := a.free (kvIndices.drop key.len)
    let (c, _) ← RadixCache.returned (c.decLockRef r.lastNode)
    .ok { σ.setReq rid { r with kvCommittedFreed := true } with cache := c, allocator := a }

/-- The over-allocated slots go back, from the first whole page behind `commitLen` on. -/
def freeOverallocated (a : Allocator) (table : ℕ → ℕ → ℕ) (idx commitLen : ℕ) (r : Req) : Allocator :=
  let startP :=
    if 1 < cfg.pageSize then pageCount cfg.pageSize commitLen * cfg.pageSize else commitLen
  if startP < r.kvAllocatedLen then a.free ((readRow table idx r.kvAllocatedLen).drop startP) else a

/-- `release_kv_cache` of a request that reports `commitLen` as its committed length; `overallocates` says
that its assertion on over-allocated KV is off. -/
def releaseFrom (overallocates : Bool) (now : ℤ) (σ : KVState) (rid commitLen : ℕ)
    (isInsert : Bool) : Except Error KVState :=
  match (σ.reqs rid).reqPoolIdx with
  | none => .error (.assertion "Only MambaRadixCache allow freeing before alloc")
  | some idx => do
    let σ ← σ.cacheFinishedReq cfg now rid idx commitLen isInsert
    let r := σ.reqs rid
    if r.kvOverallocatedFreed then .error (.assertion "Overallocated KV cache already freed")
    else if !overallocates && commitLen != r.kvAllocatedLen then
      .error (.assertion "Unexpected overallocated KV cache")
    else
      .ok { σ.setReq rid { r with kvOverallocatedFreed := true, reqPoolIdx := none } with
        allocator := freeOverallocated cfg σ.allocator σ.reqToToken idx commitLen r
        freeSlots := σ.freeSlots ++ [idx]
        live := σ.live.erase rid }

/-- `release_kv_cache`; `specAlgo` says that a speculative algorithm is set. -/
def releaseKvCache (specAlgo : Bool) (now : ℤ) (σ : KVState) (rid : ℕ)
    (isInsert : Bool) : Except Error KVState :=
  σ.releaseFrom cfg specAlgo now rid (σ.reqs rid).kvCommittedLen isInsert

/-! ## Runs -/

/-- Output tokens are appended by the result processing of the scheduler. -/
def appendOutput (σ : KVState) (rid token : ℕ) : KVState :=
  σ.setReq rid { σ.reqs rid with tokens := (σ.reqs rid).tokens ++ [token] }

/-- The scheduler decides how much of the allocated KV is committed (speculative decoding rejects
draft tokens). -/
def commit (σ : KVState) (rid n : ℕ) : KVState :=
  σ.setReq rid { σ.reqs rid with kvCommittedLen := n }

/-- A fresh server. -/
def init (cfg : Config) (now : ℤ) (needSort : Bool) (numPages numReqs : ℕ) (reqs : ℕ → Req) : KVState :=
  ⟨.init now, .clear cfg.pageSize needSort numPages, fun _ _ => 0, List.range' 1 numReqs, reqs, ∅⟩

/-- What the scheduler keeps about a request it extends to `seqLen`: at least one token is computed,
and a request that has a row has handed over all of it to `cache_unfinished_req`. -/
def CanExtend (σ : KVState) (b : ℕ × ℕ) : Prop :=
  b.1 ∈ σ.live ∧ (σ.reqs b.1).prefixIndices.length < b.2 ∧ b.2 ≤ (σ.reqs b.1).tokens.length ∧
    ((σ.reqs b.1).reqPoolIdx = none ∨
      (σ.reqs b.1).prefixIndices.length = (σ.reqs b.1).kvAllocatedLen)

/-- One operation of the scheduler on the memory of its requests. A call that raises is no step. -/
inductive Step (cfg : Config) (specAlgo : Bool) : KVState → KVState → Prop
  | matchAndLock {σ σ' : KVState} {now : ℤ} {rid : ℕ} {tokens : List ℕ} {extraKey : Option String}
      {priority : Option ℤ} {maxPrefixLen : ℕ} : rid ∉ σ.live →
      σ.matchAndLock cfg now rid tokens extraKey priority maxPrefixLen = .ok σ' →
      Step cfg specAlgo σ σ'
  | allocForExtend {σ σ' : KVState} {ties : ℕ → ℕ} {batch : List (ℕ × ℕ)} :
      (batch.map Prod.fst).Nodup → (∀ b ∈ batch, σ.CanExtend b) →
      σ.allocForExtend cfg ties batch = .ok σ' → Step cfg specAlgo σ σ'
  | cacheUnfinishedReq {σ σ' : KVState} {now now' : ℤ} {rid : ℕ} {chunked : Bool} : rid ∈ σ.live →
      σ.cacheUnfinishedReq cfg now now' rid chunked = .ok σ' → Step cfg specAlgo σ σ'
  | allocForDecode {σ σ' : KVState} {ties : ℕ → ℕ} {rids : List ℕ} : rids.Nodup →
      (∀ rid ∈ rids, rid ∈ σ.live ∧ (σ.reqs rid).reqPoolIdx ≠ none) →
      σ.allocForDecode cfg ties rids = .ok σ' → Step cfg specAlgo σ σ'
  | appendOutput {σ : KVState} {rid token : ℕ} : rid ∈ σ.live →
      Step cfg specAlgo σ (σ.appendOutput rid token)
  | commit {σ : KVState} {rid n : ℕ} : rid ∈ σ.live → (σ.reqs rid).fillIds.length ≤ n →
      n ≤ (σ.reqs rid).kvAllocatedLen → Step cfg specAlgo σ (σ.commit rid n)
  | releaseKvCache {σ σ' : KVState} {now : ℤ} {rid : ℕ} {isInsert : Bool} : rid ∈ σ.live →
      (σ.reqs rid).kvCommittedLen ≤ (σ.reqs rid).tokens.length →
      σ.releaseKvCache cfg specAlgo now rid isInsert = .ok σ' → Step cfg specAlgo σ σ'
  | evict {σ σ' : KVState} {ties : ℕ → ℕ} {numTokens : ℕ} :
      σ.evict cfg ties numTokens = .ok σ' → Step cfg specAlgo σ σ'

/-- States of a server with `numPages` pages. -/
def Reachable (cfg : Config) (specAlgo needSort : Bool) (numPages : ℕ) (σ : KVState) : Prop :=
  ∃ now numReqs reqs, Relation.ReflTransGen (Step cfg specAlgo)
    (init cfg now needSort numPages numReqs reqs) σ

end KVState

end SGLang.MemCache
