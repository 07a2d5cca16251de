/-
# SGLang.Halo.JobRegistry — which request belongs to which job.

The model of `Job` and `JobRegistry`. A program is registered before its requests arrive; every admitted
request id is mapped to its job and kept in the job's set of request ids until it completes. Three
collectors remove or close jobs: finished ones, quiescent ones and programs that never got a request.

The clock is read by every mutator; here each call gets the time it reads as an argument, and nothing
is assumed about the times. Warnings and the metadata that only the slowdown sweep or the logs read are
left out.
-/
import SGLang.Lib.Dict
import Mathlib.Data.Finset.Basic
import Mathlib.Algebra.Order.Ring.Rat

namespace SGLang.Halo

open SGLang.Lib Dict

/-- What the registry does with floats. -/
class PyFloat (φ : Type) extends Zero φ, Sub φ, LT φ, LE φ where
  isFinite : φ → Bool
  decLT : ∀ a b : φ, Decidable (a < b)
  decLE : ∀ a b : φ, Decidable (a ≤ b)

instance PyFloat.decidableLT {φ : Type} [PyFloat φ] : DecidableLT φ := decLT

instance PyFloat.decidableLE {φ : Type} [PyFloat φ] : DecidableLE φ := decLE

scoped instance : PyFloat ℚ where
  isFinite _ := true
  decLT := inferInstance
  decLE := inferInstance

inductive JobState
  | queued
  | running
  | complete
  | rejected
deriving DecidableEq, Repr

/-! ## `Job` -/

structure Job (φ : Type) where
  jobId : String
  slo : φ
  state : JobState
  totalRequestNumber : ℕ
  remainingRequestNumber : ℕ
  sloViolationCount : ℕ
  firstSeenTs : φ
  lastUpdateTs : φ
  requestIds : Finset String
  fromProgram : Bool
  declaredMaxConcurrency : Option ℤ
  inFlightCount : ℕ
deriving DecidableEq

namespace Job

variable {φ : Type}

/-- `on_request_admitted`. -/
def onRequestAdmitted (now : φ) (rid : String) (job : Job φ) : Job φ :=
  { job with
    requestIds := insert rid job.requestIds
    totalRequestNumber := job.totalRequestNumber + 1
    remainingRequestNumber := job.remainingRequestNumber + 1
    inFlightCount := job.inFlightCount + 1
    lastUpdateTs := now
    -- a new request opens a finished job again
    state := if job.state = .complete then .running else job.state }

/-- `on_request_completed`: neither counter goes below zero. -/
def onRequestCompleted (now : φ) (rid : String) (job : Job φ) : Job φ :=
  { job with
    requestIds := job.requestIds.erase rid
    remainingRequestNumber := job.remainingRequestNumber - 1
    inFlightCount := job.inFlightCount - 1
    lastUpdateTs := now }

/-- `mark_done`. -/
def markDone (now : φ) (job : Job φ) : Job φ := { job with lastUpdateTs := now, state := .complete }

/-- `is_idle`. -/
def isIdle (job : Job φ) : Bool :=
  decide (job.state = .queued) && decide (job.totalRequestNumber = 0) && decide (job.requestIds = ∅)

end Job

/-! ## `JobRegistry` -/

structure JobRegistry (φ : Type) where
  jobs : AList fun _ : String => Job φ
  ridToJob : AList fun _ : String => String

/-- The Python exceptions of the registry. -/
inductive RegistryError
  | valueError
  | keyError
deriving DecidableEq, Repr

/-- `REASON_PROGRAM_NOT_REGISTERED`. -/
def reasonProgramNotRegistered : String := "HALO_PROGRAM_NOT_REGISTERED"

/-- `JobAdmissionResult`. -/
structure JobAdmissionResult (φ : Type) where
  admitted : Bool
  job : Option (Job φ)
  reason : Option String

namespace JobRegistry

variable {φ : Type} [PyFloat φ]

/-- `__init__`. -/
def init : JobRegistry φ := ⟨∅, ∅⟩

variable (now : φ)

variable (r : JobRegistry φ)

/-- `register_program`: whether the job is new, and the job. -/
def registerProgram (jobId : String) (slo : φ)
    (declaredMaxConcurrency : Option ℤ) : Except RegistryError (JobRegistry φ × Bool × Job φ) :=
  if !PyFloat.isFinite slo || decide (slo ≤ 0) then .error .valueError
  else
    match r.jobs.lookup jobId with
    | some existing => .ok (r, false, existing)
    | none =>
      let job : Job φ := ⟨jobId, slo, .queued, 0, 0, 0, now, now, ∅, true, declaredMaxConcurrency, 0⟩
      .ok ({ r with jobs := r.jobs.insert jobId job }, true, job)

/-- The part of `admit_to_job` for a request id that no other job owns. -/
def claimFor (jobId rid : String) : JobRegistry φ × JobAdmissionResult φ :=
  match r.jobs.lookup jobId with
  | none => (r, ⟨false, none, some reasonProgramNotRegistered⟩)
  | some job =>
    (⟨Dict.update r.jobs jobId (Job.onRequestAdmitted now rid), r.ridToJob.insert rid jobId⟩,
      ⟨true, some (job.onRequestAdmitted now rid), none⟩)

/-- `admit_to_job`. A request id that another job owns stays with that job. -/
def admitToJob (jobId rid : String) : Except RegistryError (JobRegistry φ × JobAdmissionResult φ) :=
  match r.ridToJob.lookup rid with
  | none => .ok (r.claimFor now jobId rid)
  | some existing =>
    if existing ≠ jobId then
      match r.jobs.lookup existing with
      | none => .error .keyError
      | some job => .ok (r, ⟨true, some job, none⟩)
    else .ok (r.claimFor now jobId rid)

/-- `record_completion`. -/
def recordCompletion (rid : String) : JobRegistry φ × Option (Job φ) :=
  match r.ridToJob.lookup rid with
  | none => (r, none)
  | some jobId =>
    let jobs := Dict.update r.jobs jobId (Job.onRequestCompleted now rid)
    (⟨jobs, r.ridToJob.erase rid⟩, jobs.lookup jobId)

/-- `mark_job_done`. -/
def markJobDone (rid : String) : JobRegistry φ × Option (Job φ) :=
  match r.ridToJob.lookup rid with
  | none => (r, none)
  | some jobId =>
    let jobs := Dict.update r.jobs jobId (Job.markDone now)
    ({ r with jobs }, jobs.lookup jobId)

/-- What `gc_completed` drops. -/
def isExpired (now retainSeconds : φ) (job : Job φ) : Bool :=
  decide (job.state = .complete) && decide (job.requestIds = ∅) &&
    decide (retainSeconds < now - job.lastUpdateTs)

/-- `gc_completed`; returns how many jobs it drops. -/
def gcCompleted (now : φ) (r : JobRegistry φ) (retainSeconds : φ) : JobRegistry φ × ℕ :=
  let toDrop := keysWhere r.jobs (isExpired now retainSeconds)
  ({ r with jobs := eraseAll r.jobs toDrop }, toDrop.length)

/-- What `gc_quiescent_jobs` closes. -/
def isQuiescent (now quiescentSeconds : φ) (job : Job φ) : Bool :=
  decide (job.state = .queued ∨ job.state = .running) && decide (job.requestIds = ∅) &&
    decide (quiescentSeconds < now - job.lastUpdateTs)

/-- `gc_quiescent_jobs`; returns the ids of the jobs it closes. -/
def gcQuiescentJobs (now : φ) (r : JobRegistry φ) (quiescentSeconds : φ) : JobRegistry φ × List String :=
  if quiescentSeconds ≤ 0 then (r, [])
  else
    let flipped := keysWhere r.jobs (isQuiescent now quiescentSeconds)
    ({ r with jobs := Dict.updateAll r.jobs flipped (Job.markDone now) }, flipped)

/-- What `gc_idle_programs` drops. -/
def isIdleProgram (now idleSeconds : φ) (job : Job φ) : Bool :=
  job.fromProgram && job.isIdle && decide (idleSeconds < now - job.firstSeenTs)

/-- `gc_idle_programs`; returns how many jobs it drops. -/
def gcIdlePrograms (now : φ) (r : JobRegistry φ) (idleSeconds : φ) : JobRegistry φ × ℕ :=
  if idleSeconds ≤ 0 then (r, 0)
  else
    let toDrop := keysWhere r.jobs (isIdleProgram now idleSeconds)
    ({ r with jobs := eraseAll r.jobs toDrop }, toDrop.length)

/-! ## Runs -/

/-- One call of the registry, at any time and with any arguments; a call that raises changes nothing. -/
inductive Step : JobRegistry φ → JobRegistry φ → Prop
  | registerProgram {r r' : JobRegistry φ} {now slo : φ} {jobId : String} {cap : Option ℤ}
      {result : Bool × Job φ} : r.registerProgram now jobId slo cap = .ok (r', result) → Step r r'
  | admitToJob {r r' : JobRegistry φ} {now : φ} {jobId rid : String}
      {result : JobAdmissionResult φ} : r.admitToJob now jobId rid = .ok (r', result) → Step r r'
  | recordCompletion (r : JobRegistry φ) (now : φ) (rid : String) :
      Step r (r.recordCompletion now rid).1
  | markJobDone (r : JobRegistry φ) (now : φ) (rid : String) : Step r (r.markJobDone now rid).1
  | gcCompleted (r : JobRegistry φ) (now retainSeconds : φ) :
      Step r (r.gcCompleted now retainSeconds).1
  | gcQuiescentJobs (r : JobRegistry φ) (now quiescentSeconds : φ) :
      Step r (r.gcQuiescentJobs now quiescentSeconds).1
  | gcIdlePrograms (r : JobRegistry φ) (now idleSeconds : φ) :
      Step r (r.gcIdlePrograms now idleSeconds).1

/-- Registries reached from the empty one. -/
def Reachable (r : JobRegistry φ) : Prop := Relation.ReflTransGen Step init r

/-! ## Referential integrity -/

/-- A request id is mapped to the job that has it among its request ids, and to no other. -/
def Integrity (r : JobRegistry φ) : Prop :=
  ∀ rid jobId, r.ridToJob.lookup rid = some jobId ↔
    ∃ job, r.jobs.lookup jobId = some job ∧ rid ∈ job.requestIds

variable {r r' : JobRegistry φ} {now : φ} {jobId rid : String} {job : Job φ}

section

omit [PyFloat φ]

/-- Jobs with requests keep their request ids, whatever else happens to the jobs. -/
theorem Integrity.of_jobs (h : Integrity r) (hrid : r'.ridToJob = r.ridToJob)
    (hjobs : ∀ jobId x, (∃ job, r'.jobs.lookup jobId = some job ∧ x ∈ job.requestIds) ↔
      ∃ job, r.jobs.lookup jobId = some job ∧ x ∈ job.requestIds) : Integrity r' := by
  intro rid jobId
  rw [hrid, h rid jobId, hjobs]

theorem claimFor_jobs : (r.claimFor now jobId rid).1 = r ∨ (∃ job, r.jobs.lookup jobId = some job) ∧
    (r.claimFor now jobId rid).1 =
      ⟨update r.jobs jobId (Job.onRequestAdmitted now rid), r.ridToJob.insert rid jobId⟩ := by
  unfold claimFor
  cases hjob : r.jobs.lookup jobId with
  | none => exact .inl rfl
  | some job => exact .inr ⟨⟨job, rfl⟩, rfl⟩

/-- A request id is claimed only for the job that has it already or when no job has it. -/
theorem admitToJob_cases {result : JobRegistry φ × JobAdmissionResult φ}
    (h : r.admitToJob now jobId rid = .ok result) : result.1 = r ∨
      (∀ other, r.ridToJob.lookup rid = some other → other = jobId) ∧ result = r.claimFor now jobId rid := by
  unfold admitToJob at h
  cases hrid : r.ridToJob.lookup rid with
  | none =>
    rw [hrid] at h
    cases h
    refine .inr ⟨?_, rfl⟩
    intro other hother
    cases hother
  | some existing =>
    simp only [hrid] at h
    by_cases heq : existing = jobId
    · rw [if_neg (not_not.mpr heq)] at h
      cases h
      refine .inr ⟨?_, rfl⟩
      intro other hother
      cases hother
      exact heq
    · rw [if_pos heq] at h
      cases hjob : r.jobs.lookup existing with
      | none =>
        rw [hjob] at h
        cases h
      | some job =>
        rw [hjob] at h
        cases h
        exact .inl rfl

theorem Integrity.admitted (h : Integrity r) (hjob : r.jobs.lookup jobId = some job)
    (hfree : ∀ other, r.ridToJob.lookup rid = some other → other = jobId) : Integrity
      ⟨update r.jobs jobId (Job.onRequestAdmitted now rid), r.ridToJob.insert rid jobId⟩ := by
  intro x j
  rw [lookup_update, lookup_insert_iff, h x j]
  by_cases hj : j = jobId
  · subst hj
    by_cases hx : x = rid <;> simp [hx, hjob, Job.onRequestAdmitted]
  · -- the claimed id: only `jobId` has it
    rw [if_neg hj, ← h x j]
    simp only [hj, and_false, false_or, and_iff_right_iff_imp]
    rintro hmapped rfl
    exact hj (hfree j hmapped)

theorem Integrity.complete (h : Integrity r) (hrid : r.ridToJob.lookup rid = some jobId) : Integrity
    ⟨update r.jobs jobId (Job.onRequestCompleted now rid), r.ridToJob.erase rid⟩ := by
  intro x j
  rw [lookup_update, lookup_erase_iff, h x j]
  rcases (h rid jobId).mp hrid with ⟨job, hjob, hmem⟩
  by_cases hj : j = jobId
  · subst hj
    simp [hjob, Job.onRequestCompleted]
  · rw [if_neg hj, ← h x j, and_iff_right_iff_imp]
    rintro hmapped rfl
    exact hj (Option.some.inj (hmapped.symm.trans hrid))

/-! ### Collectors -/

section Collectors

variable {jobs : AList fun _ : String => Job φ} {p : Job φ → Bool}
  (hp : ∀ job, p job = true → job.requestIds = ∅)
include hp

theorem notMem_keysWhere (hjob : jobs.lookup jobId = some job) (hmem : rid ∈ job.requestIds) :
    jobId ∉ keysWhere jobs p := by
  intro hcon
  rcases mem_keysWhere.mp hcon with ⟨job', hjob', htrue⟩
  rw [hjob] at hjob'
  cases hjob'
  rw [hp job htrue] at hmem
  exact Finset.notMem_empty _ hmem

/-- A collector that drops jobs without requests keeps a job that has one. -/
theorem lookup_collect (hjob : jobs.lookup jobId = some job) (hmem : rid ∈ job.requestIds) :
    (eraseAll jobs (keysWhere jobs p)).lookup jobId = some job := by
  rw [lookup_eraseAll, if_neg (notMem_keysWhere hp hjob hmem), hjob]

theorem exists_collect : (∃ job, (eraseAll jobs (keysWhere jobs p)).lookup jobId = some job ∧
    rid ∈ job.requestIds) ↔ ∃ job, jobs.lookup jobId = some job ∧ rid ∈ job.requestIds := by
  constructor
  · rintro ⟨job, hjob, hmem⟩
    rw [lookup_eraseAll] at hjob
    split at hjob
    · cases hjob
    · exact ⟨job, hjob, hmem⟩
  · rintro ⟨job, hjob, hmem⟩
    exact ⟨job, lookup_collect hp hjob hmem, hmem⟩

/-- A collector that closes jobs without requests leaves a job that has one alone. -/
theorem lookup_close {f : Job φ → Job φ} (hjob : jobs.lookup jobId = some job) (hmem : rid ∈ job.requestIds) :
    (updateAll jobs (keysWhere jobs p) f).lookup jobId = some job := by
  rw [lookup_updateAll nodup_keysWhere, if_neg (notMem_keysWhere hp hjob hmem), hjob]

end Collectors

theorem exists_markDone {ks : List String} (hks : ks.Nodup) {jobs : AList fun _ : String => Job φ} :
    (∃ job, (updateAll jobs ks (Job.markDone now)).lookup jobId = some job ∧
      rid ∈ job.requestIds) ↔ ∃ job, jobs.lookup jobId = some job ∧ rid ∈ job.requestIds := by
  rw [lookup_updateAll hks]
  split
  · simp [Job.markDone]
  · rfl

theorem Integrity.register (h : Integrity r) (hnone : r.jobs.lookup jobId = none)
    (hempty : job.requestIds = ∅) : Integrity { r with jobs := r.jobs.insert jobId job } := by
  refine h.of_jobs rfl fun j rid => ?_
  by_cases hj : j = jobId
  · subst hj
    rw [AList.lookup_insert, hnone]
    simp [hempty]
  · rw [AList.lookup_insert_ne hj]

end

theorem registerProgram_jobs {slo : φ} {cap : Option ℤ} {result : Bool × Job φ}
    (h : r.registerProgram now jobId slo cap = .ok (r', result)) : r' = r ∨
      r.jobs.lookup jobId = none ∧ ∃ job : Job φ, job.requestIds = ∅ ∧ job.inFlightCount = 0 ∧
        job.remainingRequestNumber = 0 ∧ r' = { r with jobs := r.jobs.insert jobId job } := by
  unfold registerProgram at h
  split at h
  · cases h
  · split at h
    · cases h
      exact .inl rfl
    · next hnone =>
      cases h
      exact .inr ⟨hnone, _, rfl, rfl, rfl, rfl⟩

theorem requestIds_of_isExpired {retainSeconds : φ} (h : isExpired now retainSeconds job = true) :
    job.requestIds = ∅ := by
  simp only [isExpired, Bool.and_eq_true, decide_eq_true_eq] at h
  exact h.1.2

theorem requestIds_of_isQuiescent {quiescentSeconds : φ}
    (h : isQuiescent now quiescentSeconds job = true) : job.requestIds = ∅ := by
  simp only [isQuiescent, Bool.and_eq_true, decide_eq_true_eq] at h
  exact h.1.2

theorem requestIds_of_isIdleProgram {idleSeconds : φ}
    (h : isIdleProgram now idleSeconds job = true) : job.requestIds = ∅ := by
  simp only [isIdleProgram, Job.isIdle, Bool.and_eq_true, decide_eq_true_eq] at h
  exact h.1.2.2

/-- Every call keeps the integrity. -/
theorem step_integrity (h : Step r r') (hr : Integrity r) : Integrity r' := by
  cases h with
  | registerProgram hrun =>
    rcases registerProgram_jobs hrun with rfl | ⟨hnone, job, hempty, -, -, rfl⟩
    · exact hr
    · exact hr.register hnone hempty
  | admitToJob hrun =>
    rcases admitToJob_cases hrun with rfl | ⟨hfree, hclaim⟩
    · exact hr
    · have hr' : r' = _ := congrArg Prod.fst hclaim
      rw [hr']
      rcases claimFor_jobs with heq | ⟨⟨job, hjob⟩, heq⟩
      · rw [heq]
        exact hr
      · rw [heq]
        exact hr.admitted hjob hfree
  | recordCompletion now rid =>
    unfold recordCompletion
    split
    · exact hr
    · next jobId hrid => exact hr.complete hrid
  | markJobDone now rid =>
    unfold markJobDone
    split
    · exact hr
    · next jobId hrid =>
      refine hr.of_jobs rfl fun j x => ?_
      rw [lookup_update]
      split
      · next hj =>
        subst hj
        simp [Job.markDone]
      · rfl
  | gcCompleted now retainSeconds =>
    exact hr.of_jobs rfl fun _ _ => exists_collect fun _ => requestIds_of_isExpired
  | gcQuiescentJobs now quiescentSeconds =>
    unfold gcQuiescentJobs
    split
    · exact hr
    · exact hr.of_jobs rfl fun _ _ => exists_markDone nodup_keysWhere
  | gcIdlePrograms now idleSeconds =>
    unfold gcIdlePrograms
    split
    · exact hr
    · exact hr.of_jobs rfl fun _ _ => exists_collect fun _ => requestIds_of_isIdleProgram

theorem Reachable.integrity (h : Reachable r) : Integrity r := by
  induction h with
  | refl =>
    intro rid jobId
    simp [init]
  | tail _ hstep ih => exact step_integrity hstep ih

/-- **Referential integrity.** In every registry that any calls, at any times, can reach: a mapped
request id belongs to its job, which is registered; no request id belongs to two jobs; no collector
removes or changes a job with an outstanding request id; and `admit_to_job` never raises `KeyError`. -/
theorem registry_referential_integrity (h : Reachable r) :
    (∀ rid jobId, r.ridToJob.lookup rid = some jobId → ∃ job, r.jobs.lookup jobId = some job ∧
      rid ∈ job.requestIds) ∧
    (∀ rid jobId jobId' job job', r.jobs.lookup jobId = some job → r.jobs.lookup jobId' = some job' →
      rid ∈ job.requestIds → rid ∈ job'.requestIds → jobId = jobId') ∧
    (∀ jobId job rid, r.jobs.lookup jobId = some job → rid ∈ job.requestIds → ∀ now seconds,
      (r.gcCompleted now seconds).1.jobs.lookup jobId = some job ∧
      (r.gcQuiescentJobs now seconds).1.jobs.lookup jobId = some job ∧
      (r.gcIdlePrograms now seconds).1.jobs.lookup jobId = some job) ∧
    ∀ now jobId rid, ∃ result, r.admitToJob now jobId rid = .ok result := by
  have hint := h.integrity
  refine ⟨?_, ?_, ?_, ?_⟩
  · intro rid jobId hrid
    exact (hint rid jobId).mp hrid
  · intro rid jobId jobId' job job' hjob hjob' hmem hmem'
    have hmapped := (hint rid jobId).mpr ⟨job, hjob, hmem⟩
    have hmapped' := (hint rid jobId').mpr ⟨job', hjob', hmem'⟩
    exact Option.some.inj (hmapped.symm.trans hmapped')
  · intro jobId job rid hjob hmem now seconds
    refine ⟨lookup_collect (fun _ => requestIds_of_isExpired) hjob hmem, ?_, ?_⟩
    · unfold gcQuiescentJobs
      split
      · exact hjob
      · exact lookup_close (fun _ => requestIds_of_isQuiescent) hjob hmem
    · unfold gcIdlePrograms
      split
      · exact hjob
      · exact lookup_collect (fun _ => requestIds_of_isIdleProgram) hjob hmem
  · intro now jobId rid
    unfold admitToJob
    cases hrid : r.ridToJob.lookup rid with
    | none => exact ⟨_, rfl⟩
    | some existing =>
      rcases (hint rid existing).mp hrid with ⟨job, hjob, -⟩
      simp only [hjob]
      split <;> exact ⟨_, rfl⟩

/-- A job that is marked done while a request is outstanding survives the collector of finished jobs. -/
theorem registry_referential_integrity_of_done_job : ∃ r : JobRegistry ℚ, Reachable r ∧
    (∃ job, r.jobs.lookup "chain" = some job ∧ "call" ∈ job.requestIds ∧ job.state = .complete) ∧
    ∃ job, (r.gcCompleted 100 5).1.jobs.lookup "chain" = some job := by
  have h₁ := (Relation.ReflTransGen.refl (a := (init : JobRegistry ℚ))).tail
    (Step.registerProgram (rfl : registerProgram (0 : ℚ) init "chain" 1 none = .ok (_, _)))
  have h₂ := h₁.tail (Step.admitToJob (rfl : admitToJob (1 : ℚ) _ "chain" "call" = .ok (_, _)))
  have h₃ : Reachable _ := h₂.tail (Step.markJobDone _ 2 "call")
  refine ⟨_, h₃, ⟨_, rfl, ?_, rfl⟩, _, ((registry_referential_integrity h₃).2.2.1 _ _ "call" rfl ?_ 100 5).1⟩
  · decide
  · decide

end JobRegistry

end SGLang.Halo
