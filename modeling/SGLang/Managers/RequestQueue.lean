/-
# SGLang.Managers.RequestQueue — how a request enters the waiting queue.

The model of `Scheduler._add_request_to_queue` without disaggregation, with the gates it runs: the
priority check, the limit on queued requests, the predicted-SLO gate of `AdmissionController` and the
Halo gate. New requests, retracted requests and preempted requests all come in here. Latencies and
times are rationals; the cost models of the admission controller are functions it carries. Prefetching
and the release of prefetches do not touch the queue and are left out.
-/
import SGLang.Halo.Controller
import Mathlib.Data.List.MinMax
import Mathlib.Data.Prod.Lex

namespace SGLang.Managers

open SGLang.Lib SGLang.Halo List

/-! ## `AdmissionController` -/

structure AdmissionConfig where
  ttftSloMs : Option ℚ
  tbtSloMs : Option ℚ
  ttftSloRatio : Option ℚ
  tbtSloRatio : Option ℚ
  tbtReactiveRatio : ℚ
  dryRun : Bool

namespace AdmissionConfig

/-- An SLO that is set and above its floor. -/
def enabled (floor : ℚ) (slo : Option ℚ) : Bool :=
  match slo with
  | none => false
  | some v => decide (floor < v)

/-- `any_stage_enabled`: an absolute SLO is positive, or a ratio above one. -/
def anyStageEnabled (cfg : AdmissionConfig) : Bool :=
  enabled 0 cfg.ttftSloMs || enabled 1 cfg.ttftSloRatio || enabled 0 cfg.tbtSloMs ||
    enabled 1 cfg.tbtSloRatio

end AdmissionConfig

/-- `SchedulerSnapshot`, without disaggregation. -/
structure SchedulerSnapshot where
  waitingQueuePredictedPrefillMs : ℚ
  runningBatchSize : ℕ
  runningBatchTotalKvTokens : ℕ

/-- What `AdmissionController` asks of `TBTEwmaTracker`. -/
structure TBTEwmaTracker where
  isWarm : Bool
  value : ℚ

structure AdmissionController where
  config : AdmissionConfig
  prefillCost : Option (ℕ → ℕ → ℚ)
  tbtCost : Option (ℕ → ℕ → ℚ)
  tbtTracker : Option TBTEwmaTracker

/-- The part of `AdmissionDecision` the scheduler acts on. -/
structure AdmissionDecision where
  admitted : Bool
  reason : String
  predictedPrefillMs : ℚ
deriving DecidableEq, Repr

namespace AdmissionController

open AdmissionConfig

/-- A limit that is set, above its floor and exceeded. -/
def exceeds (floor : ℚ) (slo value : Option ℚ) : Bool :=
  enabled floor slo && (match slo, value with
    | some limit, some v => decide (limit < v)
    | _, _ => false)

/-- `pred / solo`, unless the baseline is too small for a ratio. -/
def slowdown (pred solo : Option ℚ) : Option ℚ :=
  match pred, solo with
  | some p, some s => if 1 < s then some (p / s) else none
  | _, _ => none

/-- `decide`: the first criterion that fires gives the reason. -/
def decide (a : AdmissionController) (promptLen prefixMatchLen : ℕ) (snapshot : SchedulerSnapshot) :
    AdmissionDecision :=
  if !a.config.anyStageEnabled then ⟨true, "DISABLED", 0⟩
  else
    let soloTtft := a.prefillCost.map fun f => f promptLen prefixMatchLen
    let tPrefill := soloTtft.getD 0
    let predTtft := soloTtft.map fun _ => snapshot.waitingQueuePredictedPrefillMs + tPrefill
    let soloTbt := a.tbtCost.map fun f => f 1 promptLen
    let bs := snapshot.runningBatchSize + 1
    let predTbt := a.tbtCost.map fun f =>
      f bs ((snapshot.runningBatchTotalKvTokens + promptLen) / bs)
    let rejectOrDryrun := fun (reason : String) =>
      (⟨a.config.dryRun, reason, tPrefill⟩ : AdmissionDecision)
    let ewma := a.tbtTracker.bind fun t => if t.isWarm then some t.value else none
    let reactive := a.config.tbtSloMs.map (· * a.config.tbtReactiveRatio)
    if exceeds 0 a.config.ttftSloMs predTtft then rejectOrDryrun "TTFT_PREDICTED"
    else if exceeds 1 a.config.ttftSloRatio (slowdown predTtft soloTtft) then
      rejectOrDryrun "TTFT_RATIO"
    else if exceeds 0 a.config.tbtSloMs predTbt then rejectOrDryrun "TBT_PREDICTED"
    else if exceeds 1 a.config.tbtSloRatio (slowdown predTbt soloTbt) then
      rejectOrDryrun "TBT_RATIO"
    else if enabled 0 a.config.tbtSloMs && (match reactive, ewma with
        | some threshold, some v => Decidable.decide (threshold < v)
        | _, _ => false) then
      rejectOrDryrun "TBT_REACTIVE"
    else ⟨true, "ADMIT", tPrefill⟩

end AdmissionController

/-! ## The scheduler -/

/-- The part of `Req` that the queue reads. -/
structure Req where
  rid : String
  priority : Option ℤ
  waitQueueEntryTime : ℚ
  promptLen : ℕ
  outputLen : ℕ
  predictedPrefillMs : ℚ
  haloJobId : Option String
  haloBypass : Bool
  haloJobDone : Bool
  haloFirstAdmittedTs : Option ℚ
deriving DecidableEq

/-- An `AbortReq` to the tokenizer, with status code and message. The message of the predicted-SLO gate
prints its predictions and is stood for by its reason. -/
structure AbortReq where
  rid : String
  finishedReason : Option (ℕ × String)
deriving DecidableEq, Repr

structure Scheduler where
  enablePriorityScheduling : Bool
  scheduleLowPriorityValuesFirst : Bool
  abortOnPriorityWhenDisabled : Bool
  maxQueuedRequests : Option ℕ
  admissionController : Option AdmissionController
  haloController : Option HaloController
  waitingQueue : List Req
  runningBatch : List Req
  sent : List AbortReq

/-- What a call that queues a request learns from the rest of the server. -/
structure Load where
  prefixLen : ℕ
  halo : HaloLoad

/-- The exceptions that escape the scheduler. -/
inductive SchedulerError
  /-- `max` of an empty queue. -/
  | valueError
  /-- A comparison with a priority that is `None`. -/
  | typeError
  | keyError
deriving DecidableEq, Repr

namespace Scheduler

/-- `sys.maxsize`. -/
def maxsize : ℤ := 2 ^ 63 - 1

/-- The priority of a request that has none. -/
def defaultPriority (s : Scheduler) : ℤ :=
  if s.scheduleLowPriorityValuesFirst then maxsize else -maxsize - 1

/-- `_set_or_validate_priority`: the request with its priority, or `none` if it is aborted. -/
def setOrValidatePriority (s : Scheduler) (req : Req) : Scheduler × Option Req :=
  if s.enablePriorityScheduling ∧ req.priority = none then
    (s, some { req with priority := some s.defaultPriority })
  else if ¬ s.enablePriorityScheduling ∧ req.priority ≠ none ∧ s.abortOnPriorityWhenDisabled then
    let message :=
      "Using priority is disabled for this server. Please send a new request without a priority."
    ({ s with sent := s.sent ++ [⟨req.rid, some (503, message)⟩] }, none)
  else (s, some req)

/-- `direction`: a smaller value of `direction * priority` is preferred. -/
def direction (s : Scheduler) : ℤ := if s.scheduleLowPriorityValuesFirst then 1 else -1

/-- The least preferred waiting request with its key: of equal keys the first one, as `max` has it. -/
def leastPreferred (s : Scheduler) : List Req → Except SchedulerError ((ℤ × ℚ) × Req)
  | [] => .error .valueError
  | q :: rest =>
    match q.priority with
    | none => .error .typeError
    | some p =>
      let own : (ℤ × ℚ) × Req := ((s.direction * p, q.waitQueueEntryTime), q)
      match rest with
      | [] => .ok own
      | _ :: _ => do
        let best ← leastPreferred s rest
        .ok (if toLex own.1 < toLex best.1 then best else own)

variable (s : Scheduler)

/-- Whether one more request is too many. -/
def queueFull : Bool :=
  match s.maxQueuedRequests with
  | none => false
  | some limit => decide (limit < s.waitingQueue.length + 1)

/-- The abort message goes out; the answer is whether it is about the incoming request. -/
def abortFor (req q : Req) (message : String) : Scheduler × Bool :=
  ({ s with sent := s.sent ++ [⟨q.rid, some (503, message)⟩] }, decide (q.rid = req.rid))

/-- `_abort_on_queued_limit`: whether the incoming request is the one that is aborted. -/
def abortOnQueuedLimit (req : Req) : Except SchedulerError (Scheduler × Bool) :=
  if !s.queueFull then .ok (s, false)
  else if s.enablePriorityScheduling then
    match s.leastPreferred s.waitingQueue, req.priority with
    | .error err, _ => .error err
    | .ok _, none => .error .typeError
    | .ok (key, candidate), some p =>
      if s.direction * p < key.1 then
        .ok (abortFor { s with waitingQueue := s.waitingQueue.erase candidate } req candidate
          "The request is aborted by a higher priority request.")
      else .ok (s.abortFor req req "The request queue is full.")
  else .ok (s.abortFor req req "The request queue is full.")

/-- `_build_admission_snapshot`. -/
def buildAdmissionSnapshot : SchedulerSnapshot where
  waitingQueuePredictedPrefillMs := (s.waitingQueue.map Req.predictedPrefillMs).sum
  runningBatchSize := s.runningBatch.length
  runningBatchTotalKvTokens := (s.runningBatch.map fun r => r.promptLen + r.outputLen).sum

/-- `_abort_on_predicted_slo_violation`: the request with its prediction, or `none` if it is aborted. -/
def abortOnPredictedSloViolation (req : Req) (load : Load) : Scheduler × Option Req :=
  match s.admissionController with
  | none => (s, some req)
  | some a =>
    if !a.config.anyStageEnabled then (s, some req)
    else
      let decision := a.decide req.promptLen load.prefixLen s.buildAdmissionSnapshot
      let req := { req with predictedPrefillMs := decision.predictedPrefillMs }
      if decision.admitted then (s, some req)
      else ({ s with sent := s.sent ++ [⟨req.rid, some (429, decision.reason)⟩] }, none)

/-- The message `_halo_register_or_abort` sends for a reason. -/
def haloMessage (reason : String) : String :=
  if reason = reasonProgramNotRegistered then
    "Halo rejected: program not pre-registered. Call POST /halo/programs with this halo_job_id " ++
    "before issuing LLM requests."
  else if reason = reasonHaloAdmissionPredicted then
    "Halo rejected: predictive admission gate — admitting this request would push too many active " ++
    "jobs over their SLO. Retry later or raise --halo-admission-violation-threshold."
  else if reason = reasonHaloConcurrencyCap then
    "Halo rejected: per-job concurrency cap exceeded (declared_max_concurrency in register_program). " ++
    "Wait for an in-flight call to finish before retrying."
  else if reason = reasonHaloKvCap then
    "Halo rejected: KV-cache pool near capacity. The server is at/above the configured KV-cap ratio " ++
    "(--halo-admission-kv-cap-ratio); retry later."
  else
    "Halo rejected: missing halo_job_id. --halo-enabled is on; include halo_job_id in the request body."

/-- `_halo_register_or_abort`: the request with the time of its admission, or `none` if it is
aborted. -/
def haloRegisterOrAbort (now : ℚ) (s : Scheduler) (req : Req) (load : Load) :
    Except SchedulerError (Scheduler × Option Req) :=
  match s.haloController with
  | none => .ok (s, some req)
  | some halo =>
    if req.haloBypass then .ok (s, some req)
    else
      match halo.registerRequest now req.rid req.haloJobId load.halo with
      | .error (.registry _) => .error .keyError
      | .error (.reject reason) =>
        .ok ({ s with sent := s.sent ++ [⟨req.rid, some (400, haloMessage reason)⟩] }, none)
      | .ok (halo, _) =>
        .ok ({ s with haloController := some halo },
          some { req with haloFirstAdmittedTs := some now })

/-- The gates of `_add_request_to_queue` behind the queue limit, and the queue. -/
def admitAndEnqueue (now : ℚ) (s : Scheduler) (req : Req) (load : Load) : Except SchedulerError Scheduler :=
  match s.abortOnPredictedSloViolation req load with
  | (s, none) => .ok s
  | (s, some req) => do
    let (s, req) ← s.haloRegisterOrAbort now req load
    match req with
    | none => .ok s
    | some req =>
      .ok { s with waitingQueue := s.waitingQueue ++ [{ req with waitQueueEntryTime := now }] }

/-- `_add_request_to_queue`. -/
def addRequestToQueue (now : ℚ) (s : Scheduler) (req : Req) (load : Load) :
    Except SchedulerError Scheduler :=
  match s.setOrValidatePriority req with
  | (s, none) => .ok s
  | (s, some req) => do
    let (s, aborted) ← s.abortOnQueuedLimit req
    if aborted then .ok s else s.admitAndEnqueue now req load

/-! ## What the gates ask of a request -/

variable {s s' : Scheduler} {req q : Req} {load : Load} {now : ℚ} {l : List Req} {aborted : Bool}

/-- The priority the request is queued with. -/
def effectivePriority (s : Scheduler) (req : Req) : ℤ := req.priority.getD s.defaultPriority

/-- The priority check lets the request pass. -/
def PriorityAllows (s : Scheduler) (req : Req) : Prop :=
  s.enablePriorityScheduling = true ∨ req.priority = none ∨ s.abortOnPriorityWhenDisabled = false

/-- There is room in the waiting queue, or a request waits there that is strictly less preferred. -/
def QueueAllows (s : Scheduler) (req : Req) : Prop :=
  s.queueFull = false ∨ s.enablePriorityScheduling = true ∧ (∀ q ∈ s.waitingQueue, q.priority ≠ none) ∧
    ∃ q ∈ s.waitingQueue, ∃ p, q.priority = some p ∧
      s.direction * s.effectivePriority req < s.direction * p

/-- The waiting queue a request joins: in a full one the least preferred request makes room. -/
def queueToJoin (s : Scheduler) : List Req :=
  if s.queueFull then
    match s.leastPreferred s.waitingQueue with
    | .ok (_, candidate) => s.waitingQueue.erase candidate
    | .error _ => s.waitingQueue
  else s.waitingQueue

/-- The predicted-SLO gate is off or admits the request. -/
def SloAllows (s : Scheduler) (req : Req) (load : Load) : Prop :=
  ∀ a, s.admissionController = some a → a.config.anyStageEnabled = true →
    (a.decide req.promptLen load.prefixLen s.buildAdmissionSnapshot).admitted = true

/-- Halo is off, or the request bypasses it, or Halo admits it. -/
def HaloAllows (s : Scheduler) (req : Req) (load : Load) : Prop :=
  ∀ halo, s.haloController = some halo → req.haloBypass = false →
    halo.Admits req.rid req.haloJobId load.halo

theorem leastPreferred_spec (s : Scheduler) (hne : l ≠ []) (hprio : ∀ q ∈ l, q.priority ≠ none) :
    ∃ key q p, s.leastPreferred l = .ok (key, q) ∧ q ∈ l ∧ q.priority = some p ∧
      key.1 = s.direction * p ∧ ∀ q' ∈ l, ∀ p', q'.priority = some p' → s.direction * p' ≤ key.1 := by
  induction l with
  | nil => exact absurd rfl hne
  | cons q l ih =>
    rcases Option.ne_none_iff_exists'.mp (hprio q mem_cons_self) with ⟨p, hp⟩
    cases l with
    | nil =>
      refine ⟨(s.direction * p, q.waitQueueEntryTime), q, p, ?_, mem_cons_self, hp, rfl, ?_⟩
      · rw [leastPreferred, hp]
      intro q' hq' p' hp'
      rw [mem_singleton.mp hq', hp] at hp'
      cases hp'
      exact le_refl _
    | cons q₁ l =>
      rcases ih (cons_ne_nil _ _) fun x hx => hprio x (mem_cons_of_mem q hx) with
        ⟨key, best, pb, hrun, hmem, hpb, hkey, hmax⟩
      have hstep : s.leastPreferred (q :: q₁ :: l) = .ok
          (if toLex (s.direction * p, q.waitQueueEntryTime) < toLex key then (key, best)
            else ((s.direction * p, q.waitQueueEntryTime), q)) := by
        rw [leastPreferred, hp]
        simp only [hrun, bind, Except.bind]
      by_cases hlt : toLex (s.direction * p, q.waitQueueEntryTime) < toLex key
      · refine ⟨key, best, pb, by rw [hstep, if_pos hlt], mem_cons_of_mem q hmem, hpb, hkey, ?_⟩
        intro q' hq' p' hp'
        rcases mem_cons.mp hq' with rfl | hq'
        · rw [hp] at hp'
          cases hp'
          rcases Prod.Lex.lt_iff.mp hlt with hlt | ⟨heq, -⟩
          · exact hlt.le
          · exact heq.le
        · exact hmax q' hq' p' hp'
      · refine ⟨_, q, p, by rw [hstep, if_neg hlt], mem_cons_self, hp, rfl, ?_⟩
        have hle : key.1 ≤ s.direction * p := by
          by_contra hcon
          exact hlt (Prod.Lex.lt_iff.mpr (.inl (not_le.mp hcon)))
        intro q' hq' p' hp'
        rcases mem_cons.mp hq' with rfl | hq'
        · rw [hp] at hp'
          cases hp'
          exact le_refl _
        · exact (hmax q' hq' p' hp').trans hle

/-- The search fails on an empty queue and on a request without a priority. -/
theorem leastPreferred_ok {key : ℤ × ℚ} (h : s.leastPreferred l = .ok (key, q)) :
    l ≠ [] ∧ ∀ q ∈ l, q.priority ≠ none := by
  induction l generalizing key q with
  | nil => cases h
  | cons q₀ l ih =>
    refine ⟨cons_ne_nil _ _, ?_⟩
    rw [leastPreferred] at h
    cases hp : q₀.priority with
    | none =>
      rw [hp] at h
      cases h
    | some p =>
      rw [hp] at h
      cases l with
      | nil =>
        intro x hx
        rw [mem_singleton.mp hx, hp]
        exact Option.some_ne_none p
      | cons q₁ l =>
        obtain ⟨best, hbest, h⟩ := exists_of_bind_eq_ok h
        intro x hx
        rcases mem_cons.mp hx with rfl | hx
        · rw [hp]
          exact Option.some_ne_none p
        · exact (ih hbest).2 x hx

/-- The request passes the limit when the queue allows it, and then only the queue and the messages have
changed. -/
theorem abortOnQueuedLimit_passes (req : Req) (hprio : s.enablePriorityScheduling = true →
    req.priority = some (s.effectivePriority req)) (hfresh : ∀ q ∈ s.waitingQueue, q.rid ≠ req.rid)
    (h : QueueAllows s req) : ∃ sent, s.abortOnQueuedLimit req =
      .ok ({ s with waitingQueue := s.queueToJoin, sent := sent }, false) := by
  by_cases hfull : s.queueFull = true
  · rcases h with hnot | ⟨hen, hall, q, hq, p, hp, hlt⟩
    · rw [hfull] at hnot
      cases hnot
    · have hne : s.waitingQueue ≠ [] := ne_nil_of_mem hq
      rcases leastPreferred_spec s hne hall with ⟨key, best, pb, hrun, hmem, hpb, hkey, hmax⟩
      have hbetter : s.direction * s.effectivePriority req < key.1 := hlt.trans_le (hmax q hq p hp)
      refine ⟨s.sent ++ [⟨best.rid, some (503, "The request is aborted by a higher priority request.")⟩], ?_⟩
      rw [abortOnQueuedLimit, hprio hen, hrun]
      simp only [hfull, Bool.not_true, Bool.false_eq_true, if_false, hen, if_true, if_pos hbetter,
        abortFor, queueToJoin, hrun]
      rw [decide_eq_false (hfresh best hmem)]
  · refine ⟨s.sent, ?_⟩
    rw [Bool.not_eq_true] at hfull
    simp [abortOnQueuedLimit, queueToJoin, hfull]

/-- Otherwise the request is aborted, or the search for a candidate raises. -/
theorem abortOnQueuedLimit_rejects (hprio : s.enablePriorityScheduling = true →
    req.priority = some (s.effectivePriority req)) (h : ¬ QueueAllows s req)
    (hrun : s.abortOnQueuedLimit req = .ok (s', aborted)) :
    aborted = true ∧ s'.waitingQueue = s.waitingQueue := by
  have hfull : s.queueFull = true := by
    by_contra hcon
    exact h (.inl (by simpa using hcon))
  unfold abortOnQueuedLimit at hrun
  simp only [hfull, Bool.not_true, Bool.false_eq_true, if_false] at hrun
  split at hrun
  · next hen =>
    rw [hprio hen] at hrun
    split at hrun
    · cases hrun
    · next heq =>
      cases heq
    · next key candidate p hbest heq =>
      cases heq
      split at hrun
      · next hlt =>
        -- a strictly less preferred request would have made room
        rcases leastPreferred_ok hbest with ⟨hne, hall⟩
        rcases leastPreferred_spec s hne hall with ⟨key', q', p', hrun', hmem, hp', hkey', -⟩
        rw [hbest] at hrun'
        cases hrun'
        exact absurd (.inr ⟨hen, hall, _, hmem, _, hp', hkey' ▸ hlt⟩) h
      · cases hrun
        exact ⟨by simp, rfl⟩
  · cases hrun
    exact ⟨by simp, rfl⟩

/-- The Halo gate keeps a request exactly when Halo allows it, and changes nothing but the Halo state
then. -/
theorem haloRegisterOrAbort_passes (now : ℚ) (req : Req) (h : HaloAllows s req load) : ∃ halo ts,
    s.haloRegisterOrAbort now req load =
      .ok ({ s with haloController := halo }, some { req with haloFirstAdmittedTs := ts }) := by
  unfold haloRegisterOrAbort
  cases hhalo : s.haloController with
  | none => exact ⟨s.haloController, req.haloFirstAdmittedTs, rfl⟩
  | some halo =>
    by_cases hbypass : req.haloBypass = true
    · exact ⟨s.haloController, req.haloFirstAdmittedTs, if_pos hbypass⟩
    · rw [Bool.not_eq_true] at hbypass
      rcases HaloController.registerRequest_of_admits now (h halo hhalo hbypass) with
        ⟨⟨halo', job⟩, hrun⟩
      refine ⟨some halo', some now, ?_⟩
      simp [hbypass, hrun]

theorem haloRegisterOrAbort_rejects (req : Req) (h : ¬ HaloAllows s req load) {req' : Option Req}
    (hrun : s.haloRegisterOrAbort now req load = .ok (s', req')) :
    req' = none ∧ s'.waitingQueue = s.waitingQueue := by
  unfold HaloAllows at h
  push Not at h
  rcases h with ⟨halo, hhalo, hbypass, hnot⟩
  unfold haloRegisterOrAbort at hrun
  simp only [hhalo, hbypass, Bool.false_eq_true, if_false] at hrun
  split at hrun
  · cases hrun
  · cases hrun
    exact ⟨rfl, rfl⟩
  · next halo' job hreg =>
    exact absurd (HaloController.registerRequest_ok_iff.mp ⟨_, hreg⟩) hnot

/-- The priority check changes the priority of the request only, or aborts it. -/
theorem setOrValidatePriority_spec (s : Scheduler) (req : Req) : (PriorityAllows s req ∧ ∃ priority,
      s.setOrValidatePriority req = (s, some { req with priority := priority }) ∧
      s.effectivePriority { req with priority := priority } = s.effectivePriority req ∧
      (s.enablePriorityScheduling = true → priority = some (s.effectivePriority req))) ∨
    (¬ PriorityAllows s req ∧ ∃ sent, s.setOrValidatePriority req = ({ s with sent := sent }, none)) := by
  unfold setOrValidatePriority PriorityAllows effectivePriority
  by_cases hset : s.enablePriorityScheduling = true ∧ req.priority = none
  · refine .inl ⟨.inl hset.1, some s.defaultPriority, if_pos hset, ?_, ?_⟩
    · rw [hset.2]
      rfl
    · intro _
      rw [hset.2]
      rfl
  · rw [if_neg hset]
    by_cases hno : ¬ s.enablePriorityScheduling = true ∧ req.priority ≠ none ∧
        s.abortOnPriorityWhenDisabled = true
    · refine .inr ⟨?_, _, if_pos hno⟩
      rcases hno with ⟨hen, hp, hab⟩
      rw [hab]
      simp [hen, hp]
    · refine .inl ⟨?_, req.priority, if_neg hno, rfl, ?_⟩
      · by_cases hen : s.enablePriorityScheduling = true
        · exact .inl hen
        · by_cases hp : req.priority = none
          · exact .inr (.inl hp)
          · exact .inr (.inr (by simpa using fun hab => hno ⟨hen, hp, hab⟩))
      · intro hen
        rcases Option.ne_none_iff_exists'.mp fun hp => hset ⟨hen, hp⟩ with ⟨p, hp⟩
        rw [hp]
        rfl

/-- The predicted-SLO gate notes its prediction on the request, or aborts it. -/
theorem abortOnPredictedSloViolation_spec (s : Scheduler) (req : Req) (load : Load) :
    (SloAllows s req load ∧ ∃ ms,
      s.abortOnPredictedSloViolation req load = (s, some { req with predictedPrefillMs := ms })) ∨
    (¬ SloAllows s req load ∧ ∃ sent,
      s.abortOnPredictedSloViolation req load = ({ s with sent := sent }, none)) := by
  unfold abortOnPredictedSloViolation SloAllows
  cases ha : s.admissionController with
  | none =>
    refine .inl ⟨?_, req.predictedPrefillMs, rfl⟩
    intro a h
    cases h
  | some a =>
    by_cases hact : a.config.anyStageEnabled = true
    · by_cases hadmit : (a.decide req.promptLen load.prefixLen s.buildAdmissionSnapshot).admitted = true
      · refine .inl ⟨?_, (a.decide req.promptLen load.prefixLen
          s.buildAdmissionSnapshot).predictedPrefillMs, ?_⟩
        · intro a' h _
          cases h
          exact hadmit
        · simp [hact, hadmit]
      · refine .inr ⟨fun h => hadmit (h a rfl hact), s.sent ++ [⟨req.rid, some (429,
          (a.decide req.promptLen load.prefixLen s.buildAdmissionSnapshot).reason)⟩], ?_⟩
        simp [hact, hadmit]
    · refine .inl ⟨?_, req.predictedPrefillMs, ?_⟩
      · intro a' h hact'
        cases h
        exact absurd hact' hact
      · simp [hact]

theorem queueToJoin_subset : s.queueToJoin ⊆ s.waitingQueue := by
  unfold queueToJoin
  split
  · split
    · exact erase_subset
    · exact Subset.refl _
  · exact Subset.refl _

/-- Behind the queue limit the two other gates decide. -/
theorem enqueued_iff (now : ℚ) (req : Req) (hfresh : ∀ q ∈ s.waitingQueue, q.rid ≠ req.rid) :
    (∃ s', s.admitAndEnqueue now req load = .ok s' ∧ ∃ q ∈ s'.waitingQueue, q.rid = req.rid) ↔
      SloAllows s req load ∧ HaloAllows s req load := by
  unfold admitAndEnqueue
  rcases abortOnPredictedSloViolation_spec s req load with ⟨hslo, ms, heq⟩ | ⟨hslo, sent, heq⟩
  · rw [heq]
    by_cases hhalo : HaloAllows s req load
    · rcases haloRegisterOrAbort_passes now { req with predictedPrefillMs := ms } hhalo with
        ⟨halo, ts, hrun⟩
      dsimp only
      rw [hrun]
      refine ⟨fun _ => ⟨hslo, hhalo⟩, fun _ => ⟨_, rfl, { req with
        predictedPrefillMs := ms, haloFirstAdmittedTs := ts, waitQueueEntryTime := now }, ?_, rfl⟩⟩
      exact mem_append_right _ mem_cons_self
    · refine iff_of_false ?_ fun h => hhalo h.2
      rintro ⟨s', hrun, q, hq, hrid⟩
      obtain ⟨⟨s₁, req₁⟩, hgate, hrun⟩ := exists_of_bind_eq_ok hrun
      obtain ⟨rfl, hsame⟩ := haloRegisterOrAbort_rejects { req with predictedPrefillMs := ms } hhalo hgate
      cases hrun
      exact hfresh q (hsame ▸ hq) hrid
  · rw [heq]
    refine iff_of_false ?_ fun h => hslo h.1
    rintro ⟨s', hrun, q, hq, hrid⟩
    cases hrun
    exact hfresh q hq hrid

/-! ## What a call leaves behind -/

/-- The request `q` gives way to an incoming one in a full queue. -/
def Displaces (s : Scheduler) (req q : Req) : Prop :=
  s.queueFull = true ∧ s.enablePriorityScheduling = true ∧ ∃ key,
    s.leastPreferred s.waitingQueue = .ok (key, q) ∧ s.direction * s.effectivePriority req < key.1

theorem abortOnQueuedLimit_cases (hrun : s.abortOnQueuedLimit req = .ok (s', aborted)) :
    ∃ sent, s' = { s with sent := sent } ∨ ∃ q, s.Displaces req q ∧
      s' = { s with waitingQueue := s.waitingQueue.erase q, sent := sent } := by
  unfold abortOnQueuedLimit at hrun
  split at hrun
  · cases hrun
    exact ⟨s.sent, .inl rfl⟩
  · next hfull =>
    split at hrun
    · next hen =>
      split at hrun
      · cases hrun
      · cases hrun
      · next key q p hbest hp =>
        split at hrun
        · next hlt =>
          cases hrun
          refine ⟨_, .inr ⟨q, ⟨by simpa using hfull, hen, key, hbest, ?_⟩, rfl⟩⟩
          rw [effectivePriority, hp]
          exact hlt
        · cases hrun
          exact ⟨_, .inl rfl⟩
    · cases hrun
      exact ⟨_, .inl rfl⟩

/-- The queue entry of a request and the Halo state that goes with it. -/
inductive Enqueued (now : ℚ) (s : Scheduler) (req : Req) (load : Load) :
    Option HaloController → Option Req → Prop
  | rejected : Enqueued now s req load s.haloController none
  | untracked {q : Req} (hrid : q.rid = req.rid) (hjob : q.haloJobId = req.haloJobId)
      (hbypass : q.haloBypass = req.haloBypass)
      (hoff : s.haloController = none ∨ req.haloBypass = true) :
      Enqueued now s req load s.haloController (some q)
  | tracked {q : Req} {halo : HaloController} {result : HaloController × Job ℚ}
      (hrid : q.rid = req.rid) (hjob : q.haloJobId = req.haloJobId)
      (hbypass : q.haloBypass = req.haloBypass) (hon : s.haloController = some halo)
      (htracked : req.haloBypass = false)
      (hreg : halo.registerRequest now req.rid req.haloJobId load.halo = .ok result) :
      Enqueued now s req load (some result.1) (some q)

theorem admitAndEnqueue_cases (hrun : s.admitAndEnqueue now req load = .ok s') :
    ∃ halo q, Enqueued now s req load halo q ∧ s'.haloController = halo ∧
      s'.waitingQueue = s.waitingQueue ++ q.toList ∧ s'.runningBatch = s.runningBatch := by
  unfold admitAndEnqueue at hrun
  rcases abortOnPredictedSloViolation_spec s req load with ⟨-, ms, heq⟩ | ⟨-, sent, heq⟩
  · rw [heq] at hrun
    simp only [bind, Except.bind, haloRegisterOrAbort] at hrun
    cases hhalo : s.haloController with
    | none =>
      rw [hhalo] at hrun
      cases hrun
      exact ⟨_, some { req with predictedPrefillMs := ms, waitQueueEntryTime := now },
        .untracked rfl rfl rfl (.inl hhalo), rfl, rfl, rfl⟩
    | some halo =>
      simp only [hhalo] at hrun
      by_cases hbypass : req.haloBypass = true
      · simp only [if_pos hbypass] at hrun
        cases hrun
        exact ⟨_, some { req with predictedPrefillMs := ms, waitQueueEntryTime := now },
          .untracked rfl rfl rfl (.inr hbypass), rfl, rfl, rfl⟩
      · simp only [if_neg hbypass] at hrun
        cases hreg : halo.registerRequest now req.rid req.haloJobId load.halo with
        | error err =>
          cases err with
          | reject reason =>
            simp only [hreg] at hrun
            cases hrun
            exact ⟨_, none, .rejected, hhalo.symm, (append_nil _).symm, rfl⟩
          | registry err =>
            simp only [hreg] at hrun
            cases hrun
        | ok result =>
          simp only [hreg] at hrun
          cases hrun
          exact ⟨_, some { req with
            predictedPrefillMs := ms, haloFirstAdmittedTs := some now, waitQueueEntryTime := now },
            .tracked rfl rfl rfl hhalo (by simpa using hbypass) hreg, rfl, rfl, rfl⟩
  · rw [heq] at hrun
    cases hrun
    exact ⟨_, none, .rejected, rfl, (append_nil _).symm, rfl⟩

/-- A call of `_add_request_to_queue` that does not raise: at most one waiting request gives way, and the
request is queued at the end or not at all. -/
theorem addRequestToQueue_cases (hrun : s.addRequestToQueue now req load = .ok s') :
    ∃ W halo q, (W = s.waitingQueue ∨ ∃ x, s.Displaces req x ∧ W = s.waitingQueue.erase x) ∧
      Enqueued now s req load halo q ∧ s'.haloController = halo ∧ s'.waitingQueue = W ++ q.toList ∧
      s'.runningBatch = s.runningBatch := by
  unfold addRequestToQueue at hrun
  rcases setOrValidatePriority_spec s req with ⟨-, p, heq, heff, -⟩ | ⟨-, sent, heq⟩
  · rw [heq] at hrun
    obtain ⟨⟨s₁, aborted⟩, hlim, hrun⟩ := exists_of_bind_eq_ok hrun
    have hW : ∃ W sent, s₁ = { s with waitingQueue := W, sent := sent } ∧
        (W = s.waitingQueue ∨ ∃ x, s.Displaces req x ∧ W = s.waitingQueue.erase x) := by
      rcases abortOnQueuedLimit_cases hlim with ⟨sent, rfl | ⟨x, hx, rfl⟩⟩
      · exact ⟨s.waitingQueue, sent, rfl, .inl rfl⟩
      · refine ⟨s.waitingQueue.erase x, sent, rfl, .inr ⟨x, ?_, rfl⟩⟩
        unfold Displaces at hx ⊢
        rw [heff] at hx
        exact hx
    rcases hW with ⟨W, sent, rfl, hW⟩
    cases aborted with
    | true =>
      cases hrun
      exact ⟨W, _, none, hW, .rejected, rfl, (append_nil _).symm, rfl⟩
    | false =>
      rcases admitAndEnqueue_cases hrun with ⟨halo, q, henq, hhalo, hwait, hbatch⟩
      refine ⟨W, halo, q, hW, ?_, hhalo, hwait, hbatch⟩
      cases henq with
      | rejected => exact .rejected
      | untracked hrid hjob hbypass hoff => exact .untracked hrid hjob hbypass hoff
      | tracked hrid hjob hbypass hon ht hreg => exact .tracked hrid hjob hbypass hon ht hreg
  · rw [heq] at hrun
    cases hrun
    exact ⟨_, _, none, .inl rfl, .rejected, rfl, (append_nil _).symm, rfl⟩

/-- The request passes every gate that a new request has to pass. -/
structure Passes (s : Scheduler) (req : Req) (load : Load) : Prop where
  priority : PriorityAllows s req
  queue : QueueAllows s req
  slo : SloAllows { s with waitingQueue := s.queueToJoin } req load
  halo : HaloAllows s req load

/-- **Who stays queued.** A running request that is retracted or preempted comes back to the waiting queue
if and only if it passes again every gate for new requests; its own share in the queue length and in its
job's count of requests in flight is held against it. -/
theorem requeued_iff_passes (now : ℚ) (s : Scheduler) (req : Req) (load : Load)
    (hfresh : ∀ q ∈ s.waitingQueue, q.rid ≠ req.rid) :
    (∃ s', s.addRequestToQueue now req load = .ok s' ∧ ∃ q ∈ s'.waitingQueue, q.rid = req.rid) ↔
      Passes s req load := by
  have hjoin : ∀ q ∈ s.queueToJoin, q.rid ≠ req.rid := fun q hq => hfresh q (queueToJoin_subset hq)
  unfold addRequestToQueue
  rcases setOrValidatePriority_spec s req with ⟨hpri, p, heq, heff, hprio⟩ | ⟨hpri, sent, heq⟩
  · rw [heq]
    have hqueue : QueueAllows s { req with priority := p } ↔ QueueAllows s req := by
      unfold QueueAllows
      rw [heff]
    have hset : s.enablePriorityScheduling = true →
        p = some (s.effectivePriority { req with priority := p }) := fun hen =>
      (hprio hen).trans (congrArg some heff.symm)
    by_cases hq : QueueAllows s req
    · rcases abortOnQueuedLimit_passes { req with priority := p } hset hfresh (hqueue.mpr hq) with
        ⟨sent, hlim⟩
      simp only [hlim, bind, Except.bind, Bool.false_eq_true, if_false]
      rw [enqueued_iff now { req with priority := p } hjoin]
      exact ⟨fun h => ⟨hpri, hq, h.1, h.2⟩, fun h => ⟨h.slo, h.halo⟩⟩
    · refine iff_of_false ?_ fun hpass => hq hpass.queue
      rintro ⟨s', hrun, q, hmem, hrid⟩
      obtain ⟨⟨s₁, aborted⟩, hlim, hrun⟩ := exists_of_bind_eq_ok hrun
      obtain ⟨rfl, hsame⟩ := abortOnQueuedLimit_rejects hset (fun h => hq (hqueue.mp h)) hlim
      cases hrun
      exact hfresh q (hsame ▸ hmem) hrid
  · rw [heq]
    refine iff_of_false ?_ fun hpass => hpri hpass.priority
    rintro ⟨s', hrun, q, hq, hrid⟩
    cases hrun
    exact hfresh q hq hrid

/-- A call of a program, when it arrives. -/
def newCall : Req := ⟨"call", none, 0, 8, 0, 0, some "chain", false, false, none⟩

/-- The call after it was admitted and produced three tokens. -/
def runningCall : Req :=
  { newCall with waitQueueEntryTime := 1, outputLen := 3, haloFirstAdmittedTs := some 1 }

/-- A scheduler with Halo and no other limit. -/
def haloOnly (registry : JobRegistry ℚ) (running : List Req) : Scheduler :=
  ⟨false, false, false, none, none, some ⟨⟨1 / 5, false, 0⟩, none, registry⟩, [], running, []⟩

/-- The registry after the program was registered with a cap on its requests in flight. -/
def registered (cap : ℤ) : JobRegistry ℚ where
  jobs := AList.singleton "chain" ⟨"chain", 5, .queued, 0, 0, 0, 0, 0, ∅, true, some cap, 0⟩
  ridToJob := ∅

/-- The registry after its call was admitted. -/
def oneInFlight (cap : ℤ) : JobRegistry ℚ where
  jobs := AList.singleton "chain" ⟨"chain", 5, .queued, 1, 1, 0, 0, 1, {"call"}, true, some cap, 1⟩
  ridToJob := AList.singleton "call" "chain"

def noLoad : Load := ⟨0, ⟨none, [], fun _ => none⟩⟩

/-- With a cap of two, the retracted call is queued again. -/
theorem requeued_iff_passes_below_cap : ∃ s',
    (haloOnly (oneInFlight 2) []).addRequestToQueue 2 runningCall noLoad = .ok s' ∧
      ∃ q ∈ s'.waitingQueue, q.rid = "call" := by
  refine (requeued_iff_passes 2 (haloOnly (oneInFlight 2) []) runningCall noLoad ?_).mpr
    ⟨.inr (.inl rfl), .inl rfl, ?_, ?_⟩
  · intro q hq
    cases hq
  · intro a ha
    cases ha
  · intro halo hhalo _
    cases hhalo
    refine ⟨"chain", _, rfl, by decide, rfl, by decide, by decide, by decide, ?_⟩
    intro other hother hdiff
    cases hother
    exact absurd rfl hdiff

/-- With a cap of one: the program is registered, its only call is admitted, runs and is retracted. Its own
count uses up the cap, and a request that has produced output is aborted. -/
theorem retracted_call_aborted : (∃ job, JobRegistry.registerProgram (0 : ℚ) .init "chain" 5 (some 1) =
      .ok (registered 1, true, job)) ∧
        (∃ s, (haloOnly (registered 1) []).addRequestToQueue 1 newCall noLoad = .ok s ∧
      s.waitingQueue.map Req.rid = ["call"] ∧ s.haloController = (haloOnly (oneInFlight 1) []).haloController) ∧
    ∃ s, (haloOnly (oneInFlight 1) []).addRequestToQueue 2 runningCall noLoad = .ok s ∧
      s.waitingQueue = [] ∧ s.sent = [⟨"call", some (400, haloMessage reasonHaloConcurrencyCap)⟩] := by
  exact ⟨⟨_, rfl⟩, ⟨_, rfl, rfl, rfl⟩, ⟨_, rfl, rfl, rfl⟩⟩

end Scheduler

end SGLang.Managers
