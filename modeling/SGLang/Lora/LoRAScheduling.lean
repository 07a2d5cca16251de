/-
# SGLang.Lora.LoRAScheduling — the adapters of the batches that the scheduler forms.

A scheduling round merges the last prefill batch into the running batch, continues the chunked request if there
is one, and admits waiting requests to a new prefill batch, or else decodes the running batch. A waiting request
whose adapter is not used by the running batch or by a request admitted before it must pass a check: the
adapters so far and its own must fit into the pool, or, with overlap loading, its adapter must have been loaded
next to them. The batch is then run with the slots that its requests' adapters have in the pool.

What is left open is everything that does not look at adapters: which requests arrive and finish, how the queue
is sorted, what fits into the memory for tokens, who is preempted or retracted, when a load is done. `Draws`
holds these answers for a round, and every result is for all of them.

The chunked request is in the batch without having been counted by the check. `batches_own_adapters` says that
nothing else goes wrong.
-/
import SGLang.Lora.LoRAManager

namespace SGLang.Lora

open SGLang.Lib List LoRAManager Or Finset
open Relation (ReflTransGen)

structure Req where
  rid : ℕ
  loraId : Uid
  deriving DecidableEq, Repr

/-- `{req.lora_id for req in reqs}`, and the `lora_ids` of a batch. -/
def loraIds (reqs : List Req) : List Uid := reqs.map Req.loraId

/-- The parts of `ScheduleBatch` that are read here; `extend` is `forward_mode.is_extend()`. -/
structure ScheduleBatch where
  reqs : List Req
  extend : Bool
  chunkedReq : Option Req
  deriving DecidableEq, Repr

structure Scheduler where
  enableLoraOverlapLoading : Bool
  loader : LoRAOverlapLoader
  waitingQueue : List Req
  runningBatch : List Req
  chunkedReq : Option Req
  lastBatch : Option ScheduleBatch

/-! ## What a round depends on -/

/-- What `add_chunked_req` does: the last chunk, another chunk, or none for now. -/
inductive ChunkFate
  | last
  | again
  | deferred
  deriving DecidableEq, Repr

/-- What happens to a waiting request that has passed the check of its adapter. -/
inductive Fate
  /-- the batch is full: the loop ends -/
  | full
  /-- its prefetch is not done: the next request is looked at -/
  | staging
  /-- `add_one_req` adds it, as the new chunked request or not, and lets the loop go on or not -/
  | added (chunked goOn : Bool)
  /-- `add_one_req` does not add it: the loop ends -/
  | refused
  deriving DecidableEq, Repr

structure AdmitDraws where
  order : List Uid → List Uid
  done : Bool
  preempted : Req → Bool
  fate : Fate

structure Draws where
  finished : Req → Bool
  prefillOnly : Bool
  /-- the early returns of `_get_new_batch_prefill_raw` -/
  skip : Bool
  queue : List Req → List Req
  chunk : ChunkFate
  perReq : Req → AdmitDraws
  mixed : Bool
  /-- who has finished when the running batch is filtered before it decodes -/
  finishedNow : Req → Bool
  retracted : Req → Bool

/-! ## Admitting waiting requests -/

/-- The state of the loop over the waiting queue. -/
structure Round where
  enableLoraOverlapLoading : Bool
  loader : LoRAOverlapLoader
  runningBatch : List Req
  runningLoras : List Uid
  canRunList : List Req
  preemptList : List Req
  newChunkedReq : Option Req

namespace Round

variable (R : Round)

def withLoader (L : LoRAOverlapLoader) : Round := { R with loader := L }

/-- The check of a waiting request's adapter. -/
def checkLora (d : AdmitDraws) (req : Req) : Except LoRAError (Bool × Round) :=
  if req.loraId ∈ R.runningLoras then
    .ok (true, R)
  else if R.enableLoraOverlapLoading then do
    let (res, L) ← R.loader.tryOverlapLoadLora d.order d.done req.loraId R.runningLoras
    return (res, R.withLoader L)
  else do
    let res ← R.loader.manager.validateLoraBatch (req.loraId :: R.runningLoras)
    return (res, R)

/-- `preempt_to_schedule`, if it is tried at all. -/
def preempt (preempted : Req → Bool) : Round :=
  { R with
    runningBatch := R.runningBatch.filter fun r => !preempted r
    preemptList := R.preemptList ++ R.runningBatch.filter preempted }

/-- `running_loras.add(req.lora_id)`. -/
def count (req : Req) : Round := { R with runningLoras := req.loraId :: R.runningLoras }

/-- `can_run_list.append(req)`, and `new_chunked_req = req` if it does not fit whole. -/
def add (req : Req) (chunked : Bool) : Round :=
  { R with
    canRunList := R.canRunList ++ [req]
    newChunkedReq := if chunked then some req else R.newChunkedReq }

/-- What follows the check; the answer says whether the loop goes on. -/
def settle (d : AdmitDraws) (req : Req) : Round × Bool :=
  match d.fate with
  | .full => (R.preempt d.preempted, false)
  | .staging => (R.preempt d.preempted, true)
  | .added chunked goOn => (((R.preempt d.preempted).add req chunked).count req, goOn)
  | .refused => ((R.preempt d.preempted).count req, false)

/-- The body of the loop over the waiting queue. -/
def admitOne (d : AdmitDraws) (req : Req) : Except LoRAError (Round × Bool) := do
  let (res, R') ← R.checkLora d req
  if res then
    return R'.settle d req
  else
    return (R', true)

/-- The loop over the waiting queue. -/
def admitLoop (d : Req → AdmitDraws) : List Req → Round → Except LoRAError Round
  | [], R => .ok R
  | req :: rest, R => do
      let (R', goOn) ← R.admitOne (d req) req
      if goOn then admitLoop d rest R' else return R'

end Round

/-! ## A scheduling round -/

namespace Scheduler

variable (s : Scheduler)

/-- The last prefill batch joins the running batch, without the chunked request and what has finished. -/
def mergeLastBatch (finished : Req → Bool) : Scheduler :=
  match s.lastBatch with
  | none => s
  | some b =>
    if b.extend then
      let kept := b.reqs.filter fun r =>
        decide (some r ≠ s.chunkedReq) && decide (some r ≠ b.chunkedReq) && !finished r
      { s with runningBatch := s.runningBatch ++ kept }
    else
      s

/-- A batch of requests that only prefill is filtered here, since it will not be decoded. -/
def filterPrefillOnly (prefillOnly : Bool) (finished : Req → Bool) : Scheduler :=
  if prefillOnly then { s with runningBatch := s.runningBatch.filter fun r => !finished r } else s

/-- `add_chunked_req`: what of the chunked request runs now, and what is left of it. -/
def continueChunked (fate : ChunkFate) : List Req × Option Req :=
  match s.chunkedReq with
  | none => ([], none)
  | some c =>
    match fate with
    | .last => ([c], none)
    | .again => ([c], some c)
    | .deferred => ([], some c)

/-- The round before the loop over the waiting queue. -/
def startRound (fate : ChunkFate) : Round where
  enableLoraOverlapLoading := s.enableLoraOverlapLoading
  loader := s.loader
  runningBatch := s.runningBatch
  runningLoras := loraIds s.runningBatch
  canRunList := (s.continueChunked fate).1
  preemptList := []
  newChunkedReq := none

variable (d : Draws)

/-- The new batch, with the running batch mixed in or not. -/
def formBatch (R : Round) (chunkedReq : Option Req) : Scheduler × ScheduleBatch :=
  let decoding := R.runningBatch.filter fun r => !d.finishedNow r
  let waitingQueue := (s.waitingQueue.filter fun r => decide (r ∉ R.canRunList)) ++ R.preemptList
  let s' := { s with
    loader := R.loader
    waitingQueue := waitingQueue
    chunkedReq := chunkedReq
    runningBatch := if d.mixed then [] else R.runningBatch }
  (s', ⟨if d.mixed then R.canRunList ++ decoding else R.canRunList, true, chunkedReq⟩)

/-- `_get_new_batch_prefill_raw`. -/
def getNewBatchPrefill : Except LoRAError (Scheduler × Option ScheduleBatch) :=
  if d.skip then
    .ok (s, none)
  else do
    let chunkedReq := (s.continueChunked d.chunk).2
    let R ← Round.admitLoop d.perReq (Dict.arrange d.queue s.waitingQueue) (s.startRound d.chunk)
    if R.canRunList.isEmpty then
      return ({ s with loader := R.loader, runningBatch := R.runningBatch, chunkedReq := chunkedReq }, none)
    else
      match R.newChunkedReq, chunkedReq with
      | some _, some _ => .error .chunkedTwice
      | some new, none => return Prod.map id some (s.formBatch d R (some new))
      | none, chunkedReq => return Prod.map id some (s.formBatch d R chunkedReq)

/-- `update_running_batch`, and the batch to decode if there is one left. -/
def updateRunningBatch : Scheduler × Option ScheduleBatch :=
  let live := s.runningBatch.filter fun r => !d.finishedNow r
  let kept := live.filter fun r => !d.retracted r
  let s' := { s with
    runningBatch := kept
    waitingQueue := s.waitingQueue ++ live.filter d.retracted }
  (s', if kept.isEmpty then none else some ⟨kept, false, none⟩)

/-- The state in which `get_new_batch_prefill` is called. -/
def merged : Scheduler :=
  (s.mergeLastBatch d.finished).filterPrefillOnly d.prefillOnly d.finished

/-- A batch of requests that only prefill is not decoded. -/
def decodeOrWait : Scheduler × Option ScheduleBatch :=
  if d.prefillOnly then (s, none) else s.updateRunningBatch d

def getNextBatchToRun : Except LoRAError (Scheduler × Option ScheduleBatch) := do
  match ← (s.merged d).getNewBatchPrefill d with
  | (s', some b) => return (s', some b)
  | (s', none) => return s'.decodeOrWait d

/-- The part of `ForwardBatch.init_new` about adapters, with the weight indices it arrives at. -/
def initForward (order : List Uid → List Uid) (b : ScheduleBatch) :
    Except LoRAError (LoRAManager × List ℕ) := do
  let m ← if s.enableLoraOverlapLoading then pure s.loader.manager
    else s.loader.manager.fetchNewLoras order (loraIds b.reqs) []
  let weightIndices ← m.prepareLoraBatch (loraIds b.reqs)
  return (m, weightIndices)

end Scheduler

/-! ## Room for a set of adapters -/

/-- With overlap loading the adapters are in the pool, with those being loaded; without it they fit into the
pool next to the pinned adapters in it. -/
def Room (overlapLoading : Bool) (L : LoRAOverlapLoader) (ids : List Uid) : Prop :=
  if overlapLoading then ∀ a ∈ ids ++ L.events, a ∈ L.manager.held
  else (ids.toFinset ∪ L.manager.pinnedHeld).card ≤ L.manager.maxLorasPerBatch

section Room

variable {o : Bool} {L : LoRAOverlapLoader} {ids ids' : List Uid} {m : LoRAManager}

theorem Room.mono (h : Room o L ids) (hsub : ∀ a ∈ ids', a ∈ ids) : Room o L ids' := by
  cases o with
  | true =>
    intro a ha
    rcases mem_append.mp ha with ha | ha
    · exact h a (mem_append_left _ (hsub a ha))
    · exact h a (mem_append_right _ ha)
  | false =>
    have hle : ids'.toFinset ∪ L.manager.pinnedHeld ⊆ ids.toFinset ∪ L.manager.pinnedHeld := by
      apply union_subset_union_left
      intro a ha
      exact mem_toFinset.mpr (hsub a (mem_toFinset.mp ha))
    exact (card_le_card hle).trans h

theorem Room.held (h : Room true L ids) : ∀ a ∈ ids, a ∈ L.manager.held :=
  fun a ha => h a (mem_append_left _ ha)

theorem Room.events (h : Room true L ids) : ∀ a ∈ L.events, a ∈ L.manager.held :=
  fun a ha => h a (mem_append_right _ ha)

/-- In both modes the adapters and the pinned ones in the pool are no more than a batch may have. -/
theorem Room.card_le (h : Room o L ids) (hsound : L.manager.Sound) :
    (ids.toFinset ∪ L.manager.pinnedHeld).card ≤ L.manager.maxLorasPerBatch := by
  cases o with
  | false => exact h
  | true =>
    have hsub : ids.toFinset ∪ L.manager.pinnedHeld ⊆ L.manager.held := by
      apply union_subset
      · exact fun a ha => h.held a (mem_toFinset.mp ha)
      · exact filter_subset _ _
    rw [← hsound.slots]
    exact (card_le_card hsub).trans (LoRAMemoryPool.card_held_le hsound.pool)

theorem Room.of_validate (hsound : L.manager.Sound) (hv : L.manager.validateLoraBatch ids = .ok true) :
    Room false L ids :=
  (card_le_card (union_subset_union_right pinnedHeld_subset)).trans (card_le_of_validateLoraBatch hsound hv)

/-- A change of the loaded adapters leaves the room there is. -/
theorem Room.of_refs (h : Room o L ids) (hpool : m.memoryPool = L.manager.memoryPool)
    (hmax : m.maxLorasPerBatch = L.manager.maxLorasPerBatch) (hpinned : m.pinnedHeld ⊆ L.manager.pinnedHeld) :
    Room o ⟨m, L.events⟩ ids := by
  cases o with
  | true =>
    intro a ha
    show a ∈ m.memoryPool.held
    rw [hpool]
    exact h a ha
  | false =>
    show (ids.toFinset ∪ m.pinnedHeld).card ≤ m.maxLorasPerBatch
    rw [hmax]
    exact (card_le_card (union_subset_union_right hpinned)).trans h

/-- Fetching some of the adapters leaves room for all of them. -/
theorem Room.fetch {Q : LoRAMemoryPool} (h : Room false L ids) (hsub : ∀ a ∈ ids', a ∈ ids)
    (hprep : LoRAMemoryPool.Prepared L.manager.loraRefs ids' ids' L.manager.memoryPool Q) :
    Room false ⟨L.manager.withPool Q, L.events⟩ ids := by
  have hle : ids.toFinset ∪ (L.manager.withPool Q).pinnedHeld ⊆ ids.toFinset ∪ L.manager.pinnedHeld := by
    apply union_subset subset_union_left
    intro a ha
    rcases mem_union.mp (pinnedHeld_withPool_subset hprep ha) with ha | ha
    · exact mem_union_left _ (mem_toFinset.mpr (hsub a (mem_toFinset.mp ha)))
    · exact Finset.mem_union_right _ ha
  exact (card_le_card hle).trans h

end Room

/-! ## The loop over the waiting queue -/

namespace Round

variable {R R' : Round} {d : AdmitDraws} {req : Req} {c : Option Uid} {b : Bool}

/-- The adapter `c` of the continued chunked request is not forgotten when this request's adapter is let in:
without overlap loading the check passes with it as well, with overlap loading its slot is spared. -/
def Counts (R : Round) (c : Uid) (req : Req) : Prop :=
  req.loraId ∉ R.runningLoras →
    if R.enableLoraOverlapLoading then R.loader.Spares c req.loraId R.runningLoras
    else R.loader.manager.validateLoraBatch (req.loraId :: R.runningLoras) = .ok true →
      R.loader.manager.validateLoraBatch (c :: req.loraId :: R.runningLoras) = .ok true

instance (c : Uid) : Decidable (R.Counts c req) := by
  unfold Counts
  infer_instance

/-- The same of every request that the loop looks at. -/
def Heeds (c : Uid) (d : Req → AdmitDraws) : List Req → Round → Prop
  | [], _ => True
  | req :: rest, R => R.Counts c req ∧
      match R.admitOne (d req) req with
      | .ok (R', true) => Heeds c d rest R'
      | _ => True

instance decidableHeeds (c : Uid) (d : Req → AdmitDraws) : ∀ queue R, Decidable (Heeds c d queue R)
  | [], _ => .isTrue trivial
  | req :: rest, R => by
      have hnext : Decidable (match R.admitOne (d req) req with
          | .ok (R', true) => Heeds c d rest R'
          | _ => True) := by
        split
        · exact decidableHeeds c d rest _
        · exact .isTrue trivial
      exact inferInstanceAs (Decidable (_ ∧ _))

/-- There is room for the chunked request, the running batch and what has been admitted. -/
structure Sound (c : Option Uid) (R : Round) : Prop where
  manager : R.loader.manager.Sound
  room : Room R.enableLoraOverlapLoading R.loader (c.toList ++ R.runningLoras)
  running : ∀ a ∈ loraIds R.runningBatch, a ∈ R.runningLoras
  canRun : ∀ a ∈ loraIds R.canRunList, a ∈ c.toList ++ R.runningLoras
  chunked : ∀ r, R.newChunkedReq = some r → r ∈ R.canRunList

theorem Sound.withLoader {L : LoRAOverlapLoader} (h : R.Sound c) (hL : L.manager.Sound)
    (hroom : Room R.enableLoraOverlapLoading L (c.toList ++ R.runningLoras)) : (R.withLoader L).Sound c :=
  ⟨hL, hroom, h.running, h.canRun, h.chunked⟩

theorem mem_toList_cons {a u : Uid} {l : List Uid} (h : a ∈ c.toList ++ u :: l) :
    a = u ∨ a ∈ c.toList ++ l := by
  rcases mem_append.mp h with h | h
  · exact inr (mem_append_left _ h)
  · rcases mem_cons.mp h with h | h
    · exact inl h
    · exact inr (mem_append_right _ h)

/-- A request that passes the check has room next to the chunked request and the others. -/
theorem checkLora_spec (h : R.Sound c) (hcounts : ∀ u ∈ c, R.Counts u req)
    (hcheck : R.checkLora d req = .ok (b, R')) :
    ∃ L, R' = R.withLoader L ∧ R'.Sound c ∧
      (b = true → Room R.enableLoraOverlapLoading L (c.toList ++ req.loraId :: R.runningLoras)) := by
  unfold checkLora at hcheck
  by_cases hin : req.loraId ∈ R.runningLoras
  · rw [if_pos hin] at hcheck
    cases hcheck
    refine ⟨R.loader, rfl, h, fun _ => h.room.mono ?_⟩
    intro a ha
    rcases mem_toList_cons ha with rfl | ha
    · exact mem_append_right _ hin
    · exact ha
  · rw [if_neg hin] at hcheck
    cases ho : R.enableLoraOverlapLoading with
    | true =>
      rw [ho, if_pos rfl] at hcheck
      have hroom := h.room
      rw [ho] at hroom
      obtain ⟨⟨res, L⟩, htry, hcheck⟩ := exists_of_bind_eq_ok hcheck
      cases hcheck
      obtain ⟨hstarted, hyes⟩ := LoRAOverlapLoader.tryOverlapLoadLora_spec h.manager hroom.events
        (fun a ha => hroom.held a (mem_append_right _ ha)) htry
      have hheld : ∀ a ∈ c.toList ++ R.runningLoras, a ∈ L.manager.held := by
        intro a ha
        rcases mem_append.mp ha with hc | hrun
        · apply hstarted.spared a (hroom.held a ha)
          have hcount := hcounts a (Option.mem_toList.mp hc) hin
          rw [ho] at hcount
          exact hcount
        · exact hstarted.running a hrun
      have hroom' : ∀ ids : List Uid, (∀ a ∈ ids, a ∈ L.manager.held) → Room true L ids :=
        fun ids hids a ha => (mem_append.mp ha).elim (hids a) (hstarted.events a)
      refine ⟨L, rfl, h.withLoader hstarted.sound (by rw [ho]; exact hroom' _ hheld), fun hb => hroom' _ ?_⟩
      intro a ha
      rcases mem_toList_cons ha with rfl | ha
      · exact hyes hb
      · exact hheld a ha
    | false =>
      rw [ho, if_neg Bool.false_ne_true] at hcheck
      obtain ⟨res, hv, hcheck⟩ := exists_of_bind_eq_ok hcheck
      cases hcheck
      refine ⟨R.loader, rfl, h, ?_⟩
      rintro rfl
      cases c with
      | none => exact Room.of_validate h.manager hv
      | some u =>
        have hcount := hcounts u rfl hin
        rw [ho, if_neg Bool.false_ne_true] at hcount
        exact Room.of_validate h.manager (hcount hv)

theorem Sound.preempt {preempted : Req → Bool} (h : R.Sound c) : (R.preempt preempted).Sound c := by
  refine ⟨h.manager, h.room, ?_, h.canRun, h.chunked⟩
  intro a ha
  obtain ⟨r, hr, rfl⟩ := mem_map.mp ha
  exact h.running _ (mem_map_of_mem (mem_of_mem_filter hr))

section

variable (h : R.Sound c)
  (hroom : Room R.enableLoraOverlapLoading R.loader (c.toList ++ req.loraId :: R.runningLoras))
include h hroom

theorem Sound.count : (R.count req).Sound c := by
  refine ⟨h.manager, hroom, fun a ha => mem_cons_of_mem _ (h.running a ha), ?_, h.chunked⟩
  intro a ha
  rcases mem_append.mp (h.canRun a ha) with ha | ha
  · exact mem_append_left _ ha
  · exact mem_append_right _ (mem_cons_of_mem _ ha)

/-- A request is added and counted in one go: it may be the first with its adapter. -/
theorem Sound.add_count {chunked : Bool} : ((R.add req chunked).count req).Sound c := by
  refine ⟨h.manager, hroom, (h.count hroom).running, ?_, ?_⟩
  · intro a ha
    obtain ⟨r, hr, rfl⟩ := mem_map.mp ha
    rcases mem_append.mp hr with hr | hr
    · exact (h.count hroom).canRun _ (mem_map_of_mem hr)
    · rw [List.mem_singleton.mp hr]
      exact mem_append_right _ mem_cons_self
  · intro r hr
    have hr' : (if chunked then some req else R.newChunkedReq) = some r := hr
    split at hr'
    · rw [Option.some.inj hr']
      exact mem_append_right _ mem_cons_self
    · exact mem_append_left _ (h.chunked r hr')

theorem Sound.settle : (R.settle d req).1.Sound c := by
  unfold Round.settle
  cases d.fate with
  | full | staging => exact h.preempt
  | added chunked goOn => exact h.preempt.add_count hroom
  | refused => exact h.preempt.count hroom

end

/-- What one turn of the loop keeps. -/
theorem admitOne_spec (h : R.Sound c) (hcounts : ∀ u ∈ c, R.Counts u req)
    (hone : R.admitOne d req = .ok (R', b)) :
    R'.Sound c ∧ R'.enableLoraOverlapLoading = R.enableLoraOverlapLoading := by
  obtain ⟨⟨res, R₁⟩, hcheck, hone⟩ := exists_of_bind_eq_ok hone
  obtain ⟨L, rfl, hsound, hroom⟩ := checkLora_spec h hcounts hcheck
  cases res with
  | false =>
    cases hone
    exact ⟨hsound, rfl⟩
  | true =>
    have hR' : (R.withLoader L).settle d req = (R', b) := Except.ok.inj hone
    have hset : ((R.withLoader L).settle d req).1.Sound c := hsound.settle (hroom rfl)
    have hmode : ((R.withLoader L).settle d req).1.enableLoraOverlapLoading = R.enableLoraOverlapLoading := by
      unfold Round.settle
      cases d.fate <;> rfl
    rw [hR'] at hset hmode
    exact ⟨hset, hmode⟩

/-- What the loop keeps if it heeds the chunked request. -/
theorem admitLoop_spec {d : Req → AdmitDraws} (queue : List Req) :
    ∀ {R R' : Round}, R.Sound c → (∀ u ∈ c, Heeds u d queue R) → admitLoop d queue R = .ok R' →
      R'.Sound c ∧ R'.enableLoraOverlapLoading = R.enableLoraOverlapLoading := by
  induction queue with
  | nil =>
    intro R R' h _ hloop
    cases hloop
    exact ⟨h, rfl⟩
  | cons req rest ih =>
    intro R R' h hheeds hloop
    obtain ⟨⟨R₁, goOn⟩, hone, hloop⟩ := exists_of_bind_eq_ok hloop
    obtain ⟨hsound, hmode⟩ := admitOne_spec h (fun u hu => (hheeds u hu).1) hone
    cases goOn with
    | false =>
      cases hloop
      exact ⟨hsound, hmode⟩
    | true =>
      have hrest : ∀ u ∈ c, Heeds u d rest R₁ := by
        intro u hu
        have hnext := (hheeds u hu).2
        rw [hone] at hnext
        exact hnext
      obtain ⟨hsound', hmode'⟩ := ih hsound hrest hloop
      exact ⟨hsound', hmode'.trans hmode⟩

end Round

/-! ## Whole rounds -/

namespace Scheduler

variable {s s' : Scheduler} {d : Draws} {b : ScheduleBatch} {ob : Option ScheduleBatch} {a : Uid}
  {fate : ChunkFate}

/-- The adapters in use: of the running batch, of a batch that is about to run or has just run, of the chunked
request. -/
def activeLoras (s : Scheduler) (ob : Option ScheduleBatch) : List Uid :=
  loraIds s.runningBatch ++ loraIds (ob.elim [] ScheduleBatch.reqs) ++ loraIds s.chunkedReq.toList

/-- There is room for the adapters in use. -/
structure Between (s : Scheduler) (ob : Option ScheduleBatch) : Prop where
  manager : s.loader.manager.Sound
  room : Room s.enableLoraOverlapLoading s.loader (s.activeLoras ob)

/-- What holds between two rounds. -/
def Sound (s : Scheduler) : Prop := s.Between s.lastBatch

theorem mem_activeLoras :
    a ∈ s.activeLoras ob ↔ a ∈ loraIds s.runningBatch ∨ a ∈ loraIds (ob.elim [] ScheduleBatch.reqs) ∨
      a ∈ loraIds s.chunkedReq.toList := by
  unfold activeLoras
  rw [mem_append, mem_append, or_assoc]

theorem mem_loraIds_of_filter {p : Req → Bool} {l : List Req} (h : a ∈ loraIds (l.filter p)) :
    a ∈ loraIds l := by
  obtain ⟨r, hr, rfl⟩ := mem_map.mp h
  exact mem_map_of_mem (mem_of_mem_filter hr)

/-- Merging the last batch brings no new adapter. -/
theorem Sound.merged (h : s.Sound) : (s.merged d).Between none := by
  have hmerge : (s.mergeLastBatch d.finished).Between none := by
    unfold mergeLastBatch
    cases hb : s.lastBatch with
    | none =>
      rw [Sound, hb] at h
      exact h
    | some b =>
      rw [Sound, hb] at h
      dsimp only
      split
      · refine ⟨h.manager, h.room.mono ?_⟩
        intro a ha
        rw [mem_activeLoras] at ha ⊢
        rcases ha with ha | ha | ha
        · have ha' : a ∈ map Req.loraId (s.runningBatch ++ _) := ha
          rw [map_append] at ha'
          exact (mem_append.mp ha').imp_right fun ha => inl (mem_loraIds_of_filter ha)
        · exact absurd ha not_mem_nil
        · exact inr (inr ha)
      · refine ⟨h.manager, h.room.mono ?_⟩
        intro a ha
        rw [mem_activeLoras] at ha ⊢
        exact ha.imp_right (imp_left (absurd · not_mem_nil))
  unfold Scheduler.merged filterPrefillOnly
  split
  · refine ⟨hmerge.manager, hmerge.room.mono ?_⟩
    intro a ha
    rw [mem_activeLoras] at ha ⊢
    exact ha.imp_left mem_loraIds_of_filter
  · exact hmerge

/-- The adapter of the chunked request. -/
def chunkedLora (s : Scheduler) : Option Uid := s.chunkedReq.map Req.loraId

theorem mem_chunkedLora : a ∈ s.chunkedLora.toList ↔ a ∈ loraIds s.chunkedReq.toList := by
  unfold chunkedLora
  cases s.chunkedReq <;> rfl

/-- Whatever becomes of the chunked request in this round has its adapter. -/
theorem loraId_of_continueChunked {r : Req}
    (hr : r ∈ (s.continueChunked fate).1 ∨ r ∈ (s.continueChunked fate).2) :
    r.loraId ∈ s.chunkedLora.toList := by
  unfold continueChunked at hr
  unfold chunkedLora
  cases hc : s.chunkedReq with
  | none =>
    rw [hc] at hr
    simp at hr
  | some c =>
    rw [hc] at hr
    have hrc : r = c := by cases fate <;> simp at hr <;> tauto
    simp [hrc]

theorem Between.startRound (h : s.Between none) : (s.startRound fate).Sound s.chunkedLora where
  manager := h.manager
  room := by
    apply h.room.mono
    intro a ha
    rcases mem_append.mp ha with ha | ha
    · exact mem_activeLoras.mpr (inr (inr (mem_chunkedLora.mp ha)))
    · exact mem_activeLoras.mpr (inl ha)
  running := fun _ ha => ha
  canRun := by
    intro a ha
    obtain ⟨r, hr, rfl⟩ := mem_map.mp ha
    exact mem_append_left _ (loraId_of_continueChunked (inl hr))
  chunked := by
    intro r hr
    cases hr

/-- The new batch, the running batch and the chunked request have the adapters of the round. -/
theorem formBatch_between {R : Round} {chunkedReq : Option Req} {c : Option Uid} (h : R.Sound c)
    (hmode : R.enableLoraOverlapLoading = s.enableLoraOverlapLoading)
    (hchunked : ∀ r ∈ chunkedReq, r.loraId ∈ c.toList ++ R.runningLoras) :
    (s.formBatch d R chunkedReq).1.Between (some (s.formBatch d R chunkedReq).2) := by
  refine ⟨h.manager, ?_⟩
  show Room s.enableLoraOverlapLoading R.loader _
  rw [← hmode]
  apply h.room.mono
  have hrunning : ∀ a ∈ loraIds R.runningBatch, a ∈ c.toList ++ R.runningLoras :=
    fun a ha => mem_append_right _ (h.running a ha)
  intro a ha
  rcases mem_activeLoras.mp ha with ha | ha | ha
  · have ha' : a ∈ loraIds (if d.mixed then [] else R.runningBatch) := ha
    split at ha'
    · exact absurd ha' not_mem_nil
    · exact hrunning a ha'
  · have ha' : a ∈ loraIds (if d.mixed then R.canRunList ++ R.runningBatch.filter fun r => !d.finishedNow r
        else R.canRunList) := ha
    split at ha'
    · rw [loraIds, map_append] at ha'
      rcases mem_append.mp ha' with ha | ha
      · exact h.canRun a ha
      · exact hrunning a (mem_loraIds_of_filter ha)
    · exact h.canRun a ha'
  · obtain ⟨r, hr, rfl⟩ := mem_map.mp ha
    exact hchunked r (Option.mem_toList.mp hr)

/-- The round heeds the chunked request: see `Round.Counts`. -/
def Heeds (s : Scheduler) (d : Draws) : Prop :=
  d.skip = false → ∀ c ∈ (s.merged d).chunkedLora,
    Round.Heeds c d.perReq (Dict.arrange d.queue (s.merged d).waitingQueue) ((s.merged d).startRound d.chunk)

theorem getNewBatchPrefill_spec (h : s.Between none) (hheeds : d.skip = false → ∀ c ∈ s.chunkedLora,
      Round.Heeds c d.perReq (Dict.arrange d.queue s.waitingQueue) (s.startRound d.chunk))
    (hnew : s.getNewBatchPrefill d = .ok (s', ob)) :
    s'.Between ob := by
  unfold getNewBatchPrefill at hnew
  by_cases hskip : d.skip = true
  · rw [if_pos hskip] at hnew
    cases hnew
    exact h
  · rw [if_neg hskip] at hnew
    obtain ⟨R, hloop, hnew⟩ := exists_of_bind_eq_ok hnew
    obtain ⟨hR, hmode⟩ := Round.admitLoop_spec _ h.startRound (hheeds (Bool.eq_false_iff.mpr hskip)) hloop
    replace hmode : R.enableLoraOverlapLoading = s.enableLoraOverlapLoading := hmode
    have hcont : ∀ r ∈ (s.continueChunked d.chunk).2, r.loraId ∈ s.chunkedLora.toList ++ R.runningLoras :=
      fun r hr => mem_append_left _ (loraId_of_continueChunked (inr hr))
    split at hnew
    · cases hnew
      refine ⟨hR.manager, ?_⟩
      rw [← hmode]
      apply hR.room.mono
      intro a ha
      rcases mem_activeLoras.mp ha with ha | ha | ha
      · exact mem_append_right _ (hR.running a ha)
      · exact absurd ha not_mem_nil
      · obtain ⟨r, hr, rfl⟩ := mem_map.mp ha
        exact hcont r (Option.mem_toList.mp hr)
    · split at hnew
      · cases hnew
      · rename_i new hnc _
        cases hnew
        apply formBatch_between hR hmode
        intro r hr
        cases hr
        exact hR.canRun _ (mem_map_of_mem (hR.chunked new hnc))
      · cases hnew
        exact formBatch_between hR hmode hcont

theorem decodeOrWait_spec (h : s.Between none) : (s.decodeOrWait d).1.Between (s.decodeOrWait d).2 := by
  unfold decodeOrWait
  split
  · exact h
  · refine ⟨h.manager, h.room.mono ?_⟩
    have hkept : ∀ a ∈ loraIds ((s.runningBatch.filter fun r => !d.finishedNow r).filter fun r =>
        !d.retracted r),
        a ∈ loraIds s.runningBatch := fun a ha => mem_loraIds_of_filter (mem_loraIds_of_filter ha)
    intro a ha
    rw [mem_activeLoras] at ha ⊢
    rcases ha with ha | ha | ha
    · exact .inl (hkept a ha)
    · refine .inl (hkept a ?_)
      simp only [updateRunningBatch] at ha
      split at ha
      · exact absurd ha not_mem_nil
      · exact ha
    · exact .inr (.inr ha)

/-- A round that heeds the chunked request leaves room for the adapters of the batch it forms. -/
theorem getNextBatchToRun_spec (h : s.Sound) (hheeds : s.Heeds d)
    (hnext : s.getNextBatchToRun d = .ok (s', ob)) : s'.Between ob := by
  obtain ⟨⟨s₁, ob₁⟩, hnew, hnext⟩ := exists_of_bind_eq_ok hnext
  have hbetween := getNewBatchPrefill_spec h.merged hheeds hnew
  cases ob₁ with
  | some b =>
    cases hnext
    exact hbetween
  | none =>
    have hdecode := decodeOrWait_spec (d := d) hbetween
    rw [show s₁.decodeOrWait d = (s', ob) from Except.ok.inj hnext] at hdecode
    exact hdecode

/-! ## Running a batch -/

/-- Every request of the batch runs with its own adapter. -/
structure OwnAdapters (s : Scheduler) (b : ScheduleBatch) : Prop where
  /-- the batch has no more adapters than allowed -/
  atMost : (loraIds b.reqs).toFinset.card ≤ s.loader.manager.maxLorasPerBatch
  /-- fetching them raises neither the size assertion nor the missing-slot error, nor anything else but that one
  of them has been unloaded -/
  fetched : ∀ order e, s.loader.manager.fetchNewLoras order (loraIds b.reqs) [] = .error e →
    e = .adapterNotLoaded ∧ ∃ a ∈ loraIds b.reqs, s.loader.manager.loraRefs.isLoaded a = false
  /-- each request's weight index is a slot that holds the weights of its adapter -/
  indices : ∀ order m w, s.initForward order b = .ok (m, w) →
    List.Forall₂ (fun req k => m.memoryPool.weights[k]? = some (some req.loraId)) b.reqs w
  /-- and the batch does run, if its adapters are loaded -/
  runs : (∀ a ∈ loraIds b.reqs, s.loader.manager.loraRefs.isLoaded a = true) →
    ∀ order, ∃ m w, s.initForward order b = .ok (m, w)

/-- The batch's adapters are in the pool when their slots are looked up. -/
structure Forwarded (s : Scheduler) (b : ScheduleBatch) (m : LoRAManager) : Prop where
  sound : m.Sound
  refs : m.loraRefs = s.loader.manager.loraRefs
  held : ∀ a ∈ loraIds b.reqs, a ∈ m.held
  room : Room s.enableLoraOverlapLoading ⟨m, s.loader.events⟩ (s.activeLoras (some b))

theorem mem_activeLoras_batch (ha : a ∈ loraIds b.reqs) : a ∈ s.activeLoras (some b) :=
  mem_activeLoras.mpr (inr (inl ha))

theorem Between.card_le (h : s.Between (some b)) :
    ((loraIds b.reqs).toFinset ∪ s.loader.manager.pinnedHeld).card ≤ s.loader.manager.maxLorasPerBatch :=
  Room.card_le (o := s.enableLoraOverlapLoading) (h.room.mono fun _ => mem_activeLoras_batch) h.manager

theorem Between.fetchNewLoras (h : s.Between (some b)) (order : List Uid → List Uid) :
    (∃ Q, s.loader.manager.fetchNewLoras order (loraIds b.reqs) [] = .ok (s.loader.manager.withPool Q) ∧
      LoRAMemoryPool.Prepared s.loader.manager.loraRefs (loraIds b.reqs) (loraIds b.reqs)
        s.loader.manager.memoryPool Q) ∨
    s.loader.manager.fetchNewLoras order (loraIds b.reqs) [] = .error .adapterNotLoaded ∧
      ∃ a ∈ loraIds b.reqs, s.loader.manager.loraRefs.isLoaded a = false := by
  have hspec := @fetchNewLoras_spec _ h.manager order (loraIds b.reqs) [] (by rw [append_nil]; exact h.card_le)
  rwa [append_nil] at hspec

/-- The manager with which a batch is prepared, or the adapter for which it is not. -/
theorem initForward_cases (h : s.Between (some b)) (order : List Uid → List Uid) :
    (∃ m, Forwarded s b m ∧ s.initForward order b = (m.prepareLoraBatch (loraIds b.reqs)).map fun w => (m, w)) ∨
      s.initForward order b = .error .adapterNotLoaded ∧
        ∃ a ∈ loraIds b.reqs, s.loader.manager.loraRefs.isLoaded a = false := by
  unfold initForward
  cases ho : s.enableLoraOverlapLoading with
  | true =>
    have hroom := h.room
    rw [ho] at hroom
    refine inl ⟨s.loader.manager, ⟨h.manager, rfl, fun a ha => hroom.held a (mem_activeLoras_batch ha),
      h.room⟩, ?_⟩
    cases hw : s.loader.manager.prepareLoraBatch (loraIds b.reqs) <;> simp [hw, Except.map]
  | false =>
    have hroom := h.room
    rw [ho] at hroom
    rcases h.fetchNewLoras order with ⟨Q, hQ, hprep⟩ | ⟨herr, hmiss⟩
    · refine inl ⟨s.loader.manager.withPool Q, ⟨h.manager.withPool hprep, rfl, hprep.loaded, ?_⟩, ?_⟩
      · rw [ho]
        exact hroom.fetch (fun _ => mem_activeLoras_batch) hprep
      · rw [hQ]
        cases hw : (s.loader.manager.withPool Q).prepareLoraBatch (loraIds b.reqs) <;>
          simp [hw, Except.map, bind, Except.bind, pure, Except.pure]
    · refine inr ⟨?_, hmiss⟩
      rw [herr]
      rfl

/-- The weight indices of a batch there is room for, or the adapter that is missing. -/
theorem initForward_spec (h : s.Between (some b)) (order : List Uid → List Uid) :
    (∃ m w, s.initForward order b = .ok (m, w) ∧ Forwarded s b m ∧
        Forall₂ (fun req k => m.memoryPool.weights[k]? = some (some req.loraId)) b.reqs w) ∨
      s.initForward order b = .error .adapterNotLoaded ∧
        ∃ a ∈ loraIds b.reqs, s.loader.manager.loraRefs.isLoaded a = false := by
  rcases initForward_cases h order with ⟨m, hfwd, hinit⟩ | herr
  · rcases prepareLoraBatch_spec hfwd.sound hfwd.held with ⟨w, hw, hall⟩ | ⟨herr, a, ha, hmiss⟩
    · refine inl ⟨m, w, ?_, hfwd, forall₂_map_left_iff.mp hall⟩
      rw [hinit, hw]
      rfl
    · refine inr ⟨?_, a, ha, ?_⟩
      · rw [hinit, herr]
        rfl
      · rw [← hfwd.refs]
        exact hmiss
  · exact inr herr

theorem Between.ownAdapters (h : s.Between (some b)) : s.OwnAdapters b where
  atMost := by
    exact (card_le_card subset_union_left).trans h.card_le
  fetched := by
    intro order e he
    rcases h.fetchNewLoras order with ⟨Q, hQ, _⟩ | ⟨herr, hmiss⟩
    · rw [he] at hQ
      cases hQ
    · rw [he] at herr
      exact ⟨Except.error.inj herr, hmiss⟩
  indices := by
    intro order m w hinit
    rcases initForward_spec h order with ⟨m', w', hinit', _, hall⟩ | ⟨herr, _⟩
    · rw [hinit] at hinit'
      cases hinit'
      exact hall
    · rw [hinit] at herr
      cases herr
  runs := by
    intro hloaded order
    rcases initForward_spec h order with ⟨m, w, hinit, _⟩ | ⟨_, a, ha, hmiss⟩
    · exact ⟨m, w, hinit⟩
    · rw [hloaded a ha] at hmiss
      cases hmiss

/-! ## Runs of the scheduler -/

def withManager (s : Scheduler) (m : LoRAManager) : Scheduler := { s with loader := ⟨m, s.loader.events⟩ }

/-- The batch has run, or there was none. -/
def ran (s : Scheduler) (ob : Option ScheduleBatch) : Scheduler := { s with lastBatch := ob }

/-- A turn of the scheduler's loop. -/
def turn (s : Scheduler) (d : Draws) (order : List Uid → List Uid) : Except LoRAError Scheduler := do
  match ← s.getNextBatchToRun d with
  | (s', none) => return s'.ran none
  | (s', some b) => (s'.initForward order b).map fun mw => (s'.withManager mw.1).ran (some b)

end Scheduler

/-- What the scheduler does between two points of its loop. -/
inductive Event
  | arrive (req : Req)
  | abort (aborted : Req → Bool)
  /-- the chunked request is given up -/
  | dropChunked
  | loadAdapter (id : LoraId) (ref : LoRARef) (supported : Bool)
  | unloadAdapter (id : LoraId)
  | round (d : Draws) (order : List Uid → List Uid)

namespace Scheduler

variable {s s' t : Scheduler} {d : Draws} {b : ScheduleBatch} {e : Event}

def step (s : Scheduler) : Event → Except LoRAError Scheduler
  | .arrive req => .ok { s with waitingQueue := s.waitingQueue ++ [req] }
  | .abort aborted => .ok { s with waitingQueue := s.waitingQueue.filter fun r => !aborted r }
  | .dropChunked => .ok { s with chunkedReq := none }
  | .loadAdapter id ref supported => (s.loader.manager.loadLoraAdapter id ref supported).map s.withManager
  | .unloadAdapter id => (s.loader.manager.unloadLoraAdapter id).map s.withManager
  | .round d order => s.turn d order

/-- An adapter's id is a fresh UUID, so the pool has never had it. -/
def Fresh (s : Scheduler) : Event → Prop
  | .loadAdapter id _ _ => some id ∉ s.loader.manager.held
  | _ => True

/-- If the event is a round, it heeds the chunked request. -/
def HeedsEvent (s : Scheduler) : Event → Prop
  | .round d _ => s.Heeds d
  | _ => True

def Step (s s' : Scheduler) : Prop := ∃ e, s.Fresh e ∧ s.step e = .ok s'

/-- A step that is not a round in which the chunked request is forgotten. -/
def HeedingStep (s s' : Scheduler) : Prop := ∃ e, (s.Fresh e ∧ s.HeedsEvent e) ∧ s.step e = .ok s'

/-- The scheduler when it starts. -/
def initial (enableLoraOverlapLoading : Bool) (m : LoRAManager) : Scheduler where
  enableLoraOverlapLoading := enableLoraOverlapLoading
  loader := ⟨m, []⟩
  waitingQueue := []
  runningBatch := []
  chunkedReq := none
  lastBatch := none

theorem sound_initial {kind : EvictionKind} {n : ℕ} {m : LoRAManager} {o : Bool}
    (hm : init kind n = .ok m) : (initial o m).Sound := by
  obtain ⟨hsound, hpinned⟩ := sound_init hm
  refine ⟨hsound, ?_⟩
  show Room o ⟨m, []⟩ []
  cases o with
  | true => exact fun a ha => absurd ha not_mem_nil
  | false => exact Room.of_validate hsound (by simp [validateLoraBatch, hpinned])

theorem turn_sound {order : List Uid → List Uid} (h : s.Sound) (hheeds : s.Heeds d)
    (hturn : s.turn d order = .ok s') : s'.Sound := by
  obtain ⟨⟨s₁, ob⟩, hnext, hturn⟩ := exists_of_bind_eq_ok hturn
  have hbetween := getNextBatchToRun_spec h hheeds hnext
  cases ob with
  | none =>
    cases hturn
    exact ⟨hbetween.manager, hbetween.room⟩
  | some b =>
    have hturn' : (s₁.initForward order b).map (fun mw => (s₁.withManager mw.1).ran (some b)) = .ok s' := hturn
    rcases initForward_spec hbetween order with ⟨m, w, hinit, hfwd, _⟩ | ⟨herr, _⟩
    · rw [hinit] at hturn'
      cases hturn'
      exact ⟨hfwd.sound, hfwd.room⟩
    · rw [herr] at hturn'
      cases hturn'

theorem exists_of_map_eq_ok {α β ε : Type} {x : Except ε α} {f : α → β} {y : β} (h : x.map f = .ok y) :
    ∃ a, x = .ok a ∧ f a = y := by
  cases x with
  | error e => cases h
  | ok a => exact ⟨a, rfl, Except.ok.inj h⟩

/-- What one step keeps. -/
theorem step_sound (h : s.Sound) (hfresh : s.Fresh e) (hheeds : s.HeedsEvent e) (hstep : s.step e = .ok s') :
    s'.Sound := by
  cases e with
  | arrive | abort =>
    cases hstep
    exact ⟨h.manager, h.room⟩
  | dropChunked =>
    cases hstep
    refine ⟨h.manager, h.room.mono ?_⟩
    intro a ha
    rw [mem_activeLoras] at ha ⊢
    exact ha.imp_right fun ha => .inl (ha.resolve_right not_mem_nil)
  | loadAdapter id ref supported =>
    obtain ⟨m, hl, rfl⟩ := exists_of_map_eq_ok hstep
    obtain ⟨hm, hpool, hmax, hpinned⟩ := loadLoraAdapter_spec h.manager hl
    exact ⟨hm, h.room.of_refs hpool hmax (hpinned hfresh).subset⟩
  | unloadAdapter id =>
    obtain ⟨m, hl, rfl⟩ := exists_of_map_eq_ok hstep
    obtain ⟨hm, hpool, hmax, hpinned⟩ := unloadLoraAdapter_spec h.manager hl
    exact ⟨hm, h.room.of_refs hpool hmax hpinned⟩
  | round d order => exact turn_sound h hheeds hstep

theorem run_sound (h : s.Sound) (hrun : ReflTransGen HeedingStep s t) : t.Sound := by
  induction hrun with
  | refl => exact h
  | tail _ hlast ih =>
    obtain ⟨e, ⟨hfresh, hheeds⟩, hstep⟩ := hlast
    exact step_sound ih hfresh hheeds hstep

/-- A round of a small server: nobody finishes, and every request that passes the check has the given fate. -/
def smallRound (chunk : ChunkFate) (fate : Fate) : Draws where
  finished := fun _ => false
  prefillOnly := false
  skip := false
  queue := id
  chunk := chunk
  perReq := fun _ => ⟨id, true, fun _ => false, fate⟩
  mixed := false
  finishedNow := fun _ => false
  retracted := fun _ => false

def run : List Event → Scheduler → Except LoRAError Scheduler
  | [], s => .ok s
  | e :: es, s => s.step e >>= run es

/-- Every event of a run satisfies `p` where it happens. -/
def Along (p : Scheduler → Event → Prop) : List Event → Scheduler → Prop
  | [], _ => True
  | e :: es, s => p s e ∧
      match s.step e with
      | .ok s' => Along p es s'
      | .error _ => True

theorem reflTransGen_of_run {p : Scheduler → Event → Prop} (es : List Event) :
    ∀ {s : Scheduler}, run es s = .ok t → Along p es s →
      ReflTransGen (fun s s' => ∃ e, p s e ∧ s.step e = .ok s') s t := by
  induction es with
  | nil =>
    intro s hrun _
    cases hrun
    exact .refl
  | cons e es ih =>
    intro s hrun halong
    obtain ⟨s₁, hstep, hrun⟩ := exists_of_bind_eq_ok hrun
    have hrest := halong.2
    rw [hstep] at hrest
    exact .head ⟨e, halong.1, hstep⟩ (ih hrun hrest)

instance : Decidable (s.Fresh e) := by
  cases e <;> unfold Fresh <;> infer_instance

instance : Decidable (s.Heeds d) := by
  unfold Heeds
  infer_instance

instance : Decidable (s.HeedsEvent e) := by
  cases e <;> unfold HeedsEvent <;> infer_instance

instance decidableAlong (p : Scheduler → Event → Prop) [∀ s e, Decidable (p s e)] :
    ∀ es s, Decidable (Along p es s)
  | [], _ => .isTrue trivial
  | e :: es, s => by
      have hnext : Decidable (match s.step e with
          | .ok s' => Along p es s'
          | .error _ => True) := by
        split
        · exact decidableAlong p es _
        · exact .isTrue trivial
      exact inferInstanceAs (Decidable (_ ∧ _))

/-- Two adapters are loaded and a request for the first becomes the chunked request in the last of `rounds`
rounds; then a request for the second arrives. -/
def chunkedThenOther (rounds : ℕ) : List Event :=
  [.loadAdapter 0 ⟨"a", false⟩ true, .loadAdapter 1 ⟨"b", false⟩ true, .arrive ⟨0, some 0⟩] ++
    List.replicate rounds (.round (smallRound .last (.added true false)) id) ++ [.arrive ⟨1, some 1⟩]

/-- **Every request runs with its own adapter.** Whatever arrives, finishes, is loaded, pinned and unloaded, in
a run whose rounds all heed the chunked request, with overlap loading on or off, every batch that such a round
forms has at most `max_loras_per_batch` adapters, they are fetched without an error as long as they are loaded,
and every request's weight index is a slot that holds its adapter. -/
theorem batches_own_adapters {kind : EvictionKind} {n : ℕ} {m : LoRAManager} {o : Bool}
    (hm : LoRAManager.init kind n = .ok m) (hrun : ReflTransGen HeedingStep (initial o m) s)
    (hheeds : s.Heeds d) (hnext : s.getNextBatchToRun d = .ok (s', some b)) : s'.OwnAdapters b :=
  (getNextBatchToRun_spec (run_sound (sound_initial hm) hrun) hheeds hnext).ownAdapters

/-- A server for two adapters a batch continues the chunked request together with the other one. -/
theorem batches_own_adapters_pair :
    ∃ m s d s' b, LoRAManager.init .lru 2 = .ok m ∧ ReflTransGen HeedingStep (initial false m) s ∧
      s.Heeds d ∧ s.getNextBatchToRun d = .ok (s', some b) ∧ b.reqs = [⟨0, some 0⟩, ⟨1, some 1⟩] ∧
      s'.OwnAdapters b := by
  have hround : ∃ m s d s' b, init .lru 2 = .ok m ∧ ReflTransGen HeedingStep (initial false m) s ∧ s.Heeds d ∧
      s.getNextBatchToRun d = .ok (s', some b) ∧ b.reqs = [⟨0, some 0⟩, ⟨1, some 1⟩] :=
    ⟨_, _, smallRound .last (.added false true), _, _, rfl,
      reflTransGen_of_run (chunkedThenOther 1) rfl (by decide), by decide, rfl, rfl⟩
  obtain ⟨m, s, d, s', b, hm, hrun, hheeds, hnext, hb⟩ := hround
  exact ⟨m, s, d, s', b, hm, hrun, hheeds, hnext, hb, batches_own_adapters hm hrun hheeds hnext⟩

/-- The adapter of a chunked request is not counted. In a server for one adapter a batch, with the first
adapter's request in chunks, a request for the second adapter is let into the same batch, and fetching the two
fails. With overlap loading the second adapter takes the only slot, and the next chunk runs with it. -/
theorem chunked_adapter_not_counted :
    (∃ m s d s' b, LoRAManager.init .lru 1 = .ok m ∧ ReflTransGen Step (initial false m) s ∧
        s.getNextBatchToRun d = .ok (s', some b) ∧
        ∀ order, s'.loader.manager.fetchNewLoras order (loraIds b.reqs) [] = .error .tooManyLoras) ∧
      ∃ m s d s' b m', LoRAManager.init .lru 1 = .ok m ∧ ReflTransGen Step (initial true m) s ∧
        s.getNextBatchToRun d = .ok (s', some b) ∧ b.reqs = [⟨0, some 0⟩] ∧
        s'.initForward id b = .ok (m', [0]) ∧ m'.memoryPool.weights = [some (some 1)] := by
  refine ⟨⟨_, _, smallRound .last (.added false true), _, _, rfl,
    reflTransGen_of_run (chunkedThenOther 1) rfl (by decide), rfl, ?_⟩,
    ⟨_, _, smallRound .last (.added false true), _, _, _, rfl,
      reflTransGen_of_run (chunkedThenOther 2) rfl (by decide), rfl, rfl, rfl, rfl⟩⟩
  intro order
  unfold fetchNewLoras
  rw [if_pos]
  rw [(Dict.arrange_perm order _).length_eq]
  decide

end Scheduler

end SGLang.Lora
