/-
# SGLang.Halo.Controller — the admission gate and the finish hook of Halo.

The model of `HaloController.register_request` and `on_request_finished`, over the registry of jobs. A
request passes in this order: it names a job, the job is registered, the KV cap, the predictive gate and
the concurrency cap. The cost models behind the predictive gate are not modelled: their predictions and
the SLO map that goes with them are inputs of the call, and what is done with them is not.
-/
import SGLang.Halo.JobRegistry

namespace SGLang.Halo

open SGLang.Lib

/-- `mode_name` of the predictors that `_build_admission_predictor` builds. -/
inductive PredictorMode
  | job
  | request
deriving DecidableEq, Repr

/-- The part of `HaloConfig` the gate reads. -/
structure HaloConfig where
  admissionViolationThreshold : ℚ
  admissionDryRun : Bool
  admissionKvCapRatio : ℚ

/-- `kv_cap_enabled`. -/
def HaloConfig.kvCapEnabled (cfg : HaloConfig) : Bool :=
  decide (0 < cfg.admissionKvCapRatio) && decide (cfg.admissionKvCapRatio < 1)

structure HaloController where
  config : HaloConfig
  admissionPredictor : Option PredictorMode
  registry : JobRegistry ℚ

/-- What the gate learns about the load: the KV usage of the pool, and the slowdowns the predictor
expects with the SLOs they are compared with. -/
structure HaloLoad where
  kvUsageRatio : Option ℚ
  predictions : List (String × ℚ)
  slos : String → Option ℚ

/-- `REASON_NO_JOB_ID`. -/
def reasonNoJobId : String := "HALO_NO_JOB_ID"

/-- `REASON_HALO_CONCURRENCY_CAP`. -/
def reasonHaloConcurrencyCap : String := "HALO_CONCURRENCY_CAP"

/-- `REASON_HALO_KV_CAP`. -/
def reasonHaloKvCap : String := "HALO_KV_CAP"

/-- `REASON_HALO_ADMISSION_PREDICTED`. -/
def reasonHaloAdmissionPredicted : String := "HALO_ADMISSION_PREDICTED"

/-- `HaloRejectError` with its reason, or the `KeyError` of the registry. -/
inductive HaloError
  | reject (reason : String)
  | registry (err : RegistryError)
deriving DecidableEq, Repr

/-- `decide_admission`: whether few enough of the predictions violate their SLO. A prediction without an
SLO violates nothing. -/
def decideAdmission (predictions : List (String × ℚ)) (slos : String → Option ℚ) (threshold : ℚ) : Bool :=
  if predictions.length = 0 then true
  else
    let violations := (predictions.filter fun p => decide ((slos p.1).getD p.2 < p.2)).length
    !decide (threshold < (violations : ℚ) / predictions.length)

namespace HaloController

/-- Whether the KV cap rejects the request: only the first request of a job. -/
def kvCapRejects (h : HaloController) (job : Job ℚ) (load : HaloLoad) : Bool :=
  decide (job.totalRequestNumber = 0) && h.config.kvCapEnabled &&
    (match load.kvUsageRatio with
      | none => false
      | some ratio => decide (h.config.admissionKvCapRatio ≤ ratio)) &&
    !h.config.admissionDryRun

/-- Whether the predictive gate rejects the request: in mode `job` only the first request of a job. -/
def stageARejects (h : HaloController) (job : Job ℚ) (load : HaloLoad) : Bool :=
  match h.admissionPredictor with
  | none => false
  | some mode =>
    (decide (mode = .request) || decide (job.totalRequestNumber = 0)) &&
      !decideAdmission load.predictions load.slos h.config.admissionViolationThreshold &&
      !h.config.admissionDryRun

/-- Whether the declared concurrency of the job is used up. -/
def concurrencyRejects (job : Job ℚ) : Bool :=
  match job.declaredMaxConcurrency with
  | none => false
  | some cap => decide (cap ≤ (job.inFlightCount : ℤ))

/-- `register_request`. -/
def registerRequest (now : ℚ) (h : HaloController) (rid : String) (haloJobId : Option String)
    (load : HaloLoad) : Except HaloError (HaloController × Job ℚ) :=
  match haloJobId with
  | none => .error (.reject reasonNoJobId)
  | some jobId =>
    if jobId = "" then .error (.reject reasonNoJobId)
    else
      match h.registry.jobs.lookup jobId with
      | none => .error (.reject reasonProgramNotRegistered)
      | some job =>
        if h.kvCapRejects job load then .error (.reject reasonHaloKvCap)
        else if h.stageARejects job load then .error (.reject reasonHaloAdmissionPredicted)
        else if concurrencyRejects job then .error (.reject reasonHaloConcurrencyCap)
        else
          match h.registry.admitToJob now jobId rid with
          | .error err => .error (.registry err)
          | .ok (registry, ⟨true, some job, _⟩) => .ok ({ h with registry }, job)
          | .ok (_, result) => .error (.reject (result.reason.getD reasonProgramNotRegistered))

/-- `on_request_finished`: `timed` says whether the call's span is recorded on its job, which counts as
activity of the job. -/
def onRequestFinished (now : ℚ) (h : HaloController) (rid : String) (timed haloJobDone : Bool) :
    HaloController :=
  let touched : JobRegistry ℚ :=
    match timed, h.registry.ridToJob.lookup rid with
    | true, some jobId => { h.registry with
        jobs := Dict.update h.registry.jobs jobId fun job => { job with lastUpdateTs := now } }
    | _, _ => h.registry
  let marked := if haloJobDone then (touched.markJobDone now rid).1 else touched
  { h with registry := (marked.recordCompletion now rid).1 }

/-! ## What the gate asks of a request -/

variable {h : HaloController} {now : ℚ} {rid jobId : String} {haloJobId : Option String}
variable {load : HaloLoad} {job : Job ℚ}

/-- The request names a registered job, neither the KV cap nor the predictive gate rejects it, the job's
count of requests in flight is below its cap, and no unregistered job owns the request id. -/
def Admits (h : HaloController) (rid : String) (haloJobId : Option String) (load : HaloLoad) : Prop :=
  ∃ jobId job, haloJobId = some jobId ∧ jobId ≠ "" ∧ h.registry.jobs.lookup jobId = some job ∧
    h.kvCapRejects job load = false ∧ h.stageARejects job load = false ∧
    concurrencyRejects job = false ∧
    ∀ other, h.registry.ridToJob.lookup rid = some other → other ≠ jobId →
      ∃ owner, h.registry.jobs.lookup other = some owner

/-- A registered job admits the id, or the job that owns it keeps it. -/
theorem admitToJob_registered (now : ℚ) {r : JobRegistry ℚ} (hjob : r.jobs.lookup jobId = some job)
    (howner : ∀ other, r.ridToJob.lookup rid = some other → other ≠ jobId →
      ∃ owner, r.jobs.lookup other = some owner) :
    ∃ r' job', r.admitToJob now jobId rid = .ok (r', ⟨true, some job', none⟩) := by
  have hclaim : r.claimFor now jobId rid =
      (⟨Dict.update r.jobs jobId (Job.onRequestAdmitted now rid), r.ridToJob.insert rid jobId⟩,
        ⟨true, some (job.onRequestAdmitted now rid), none⟩) := by
    rw [JobRegistry.claimFor, hjob]
  unfold JobRegistry.admitToJob
  cases hrid : r.ridToJob.lookup rid with
  | none => exact ⟨_, _, congrArg Except.ok hclaim⟩
  | some other =>
    by_cases heq : other = jobId
    · exact ⟨_, _, (if_neg (not_not.mpr heq)).trans (congrArg Except.ok hclaim)⟩
    · rcases howner other hrid heq with ⟨owner, hown⟩
      refine ⟨r, owner, ?_⟩
      simp only [if_pos heq, hown]

theorem registerRequest_of_admits (now : ℚ) (hadm : h.Admits rid haloJobId load) :
    ∃ result, h.registerRequest now rid haloJobId load = .ok result := by
  rcases hadm with ⟨jobId, job, rfl, hne, hjob, hkv, hstage, hcap, howner⟩
  rcases admitToJob_registered now hjob howner with ⟨r', job', hadmit⟩
  refine ⟨({ h with registry := r' }, job'), ?_⟩
  simp only [registerRequest, if_neg hne, hjob, hkv, hstage, hcap, Bool.false_eq_true, if_false, hadmit]

/-- What an accepted request did to the registry. -/
theorem registerRequest_ok {result : HaloController × Job ℚ}
    (hrun : h.registerRequest now rid haloJobId load = .ok result) : ∃ jobId job r' res,
      haloJobId = some jobId ∧ jobId ≠ "" ∧ h.registry.jobs.lookup jobId = some job ∧
      h.kvCapRejects job load = false ∧ h.stageARejects job load = false ∧
      concurrencyRejects job = false ∧ h.registry.admitToJob now jobId rid = .ok (r', res) ∧
      result.1 = { h with registry := r' } := by
  unfold registerRequest at hrun
  cases haloJobId with
  | none => cases hrun
  | some jobId =>
    simp only at hrun
    split at hrun
    · cases hrun
    · next hne =>
      split at hrun
      · cases hrun
      · next job hjob =>
        split at hrun
        · cases hrun
        · next hkv =>
          split at hrun
          · cases hrun
          · next hstage =>
            split at hrun
            · cases hrun
            · next hcap =>
              split at hrun
              · cases hrun
              · next r' job' reason hadmit =>
                cases hrun
                exact ⟨jobId, job, r', _, rfl, hne, hjob, by simpa using hkv, by simpa using hstage,
                  by simpa using hcap, hadmit, rfl⟩
              · cases hrun

theorem registerRequest_ok_iff : (∃ result, h.registerRequest now rid haloJobId load = .ok result) ↔
    h.Admits rid haloJobId load := by
  constructor
  · rintro ⟨result, hrun⟩
    rcases registerRequest_ok hrun with
      ⟨jobId, job, r', res, hid, hne, hjob, hkv, hstage, hcap, hadmit, -⟩
    refine ⟨jobId, job, hid, hne, hjob, hkv, hstage, hcap, ?_⟩
    intro other hother hdiff
    simp only [JobRegistry.admitToJob, hother, if_pos hdiff] at hadmit
    cases hown : h.registry.jobs.lookup other with
    | none =>
      rw [hown] at hadmit
      cases hadmit
    | some owner => exact ⟨owner, rfl⟩
  · exact registerRequest_of_admits now

end HaloController

end SGLang.Halo
