/-
# SGLang.Halo.Tick — the periodic tick of Halo, and whether it counts every SLO violation once.

A tick sweeps (every job with a call in flight gets a new slowdown), lets the three collectors run, and reports
by how much the violations of the jobs that are left have grown since the last tick. A collected job takes its
violations with it, and hides as many new ones of the others. So the reports add up to what was recorded as long
as no tick both records a violation and drops one, and a tick that does both breaks the sum (`reports_add_up`).

The slowdowns are inputs, since the cost models behind them are not modelled. Every call gets the times it
reads, and nothing is assumed about them. The metrics are on.
-/
import SGLang.Halo.JobRegistry

namespace SGLang.Halo

open SGLang.Lib Dict JobRegistry

variable {φ : Type} [PyFloat φ]

/-- `record_vjs`. -/
def Job.recordVjs (now vjs : φ) (job : Job φ) : Job φ :=
  { job with
    lastUpdateTs := now
    sloViolationCount := if job.slo < vjs then job.sloViolationCount + 1 else job.sloViolationCount
    state := if job.state = .queued ∧ job.requestIds ≠ ∅ then .running else job.state }

/-- The part of `HaloConfig` that a tick reads. -/
structure TickConfig (φ : Type) where
  tickInterval : φ
  quiescentTimeoutSeconds : φ
  gcRetainSeconds : φ
  programIdleTimeoutSeconds : φ

/-- What a tick reads: the slowdowns of the sweep, each with its job and the time at which it is recorded, and
the times of the tick and of the collectors. -/
structure TickInput (φ : Type) where
  now : φ
  sweep : List (String × φ × φ)
  quiescentNow : φ
  completedNow : φ
  idleNow : φ

/-- The part of `HaloController` that a tick uses, with the sum of all deltas passed to the metrics and the
number of violations recorded so far. -/
structure Ticker (φ : Type) where
  registry : JobRegistry φ
  lastTickMonotonic : φ
  lastTotalViolations : ℕ
  reported : ℕ
  recorded : ℕ

/-- One slowdown of a sweep; a job that is not registered is skipped. -/
def recordSweep (s : JobRegistry φ × ℕ) (m : String × φ × φ) : JobRegistry φ × ℕ :=
  match s.1.jobs.lookup m.1 with
  | none => s
  | some job =>
    ({ s.1 with jobs := update s.1.jobs m.1 (Job.recordVjs m.2.2 m.2.1) },
      if job.slo < m.2.1 then s.2 + 1 else s.2)

def totalViolations (r : JobRegistry φ) : ℕ := weigh Job.sloViolationCount r.jobs

section Tick

variable (cfg : TickConfig φ) (i : TickInput φ) (r : JobRegistry φ)

/-- The registry after the sweep, and how many violations the sweep recorded. -/
def TickInput.swept : JobRegistry φ × ℕ := i.sweep.foldl recordSweep (r, 0)

/-- The registry after the sweep and the collectors. -/
def TickInput.collected : JobRegistry φ :=
  let r := ((i.swept r).1.gcQuiescentJobs i.quiescentNow cfg.quiescentTimeoutSeconds).1
  let r := (r.gcCompleted i.completedNow cfg.gcRetainSeconds).1
  (r.gcIdlePrograms i.idleNow cfg.programIdleTimeoutSeconds).1

/-- `tick`. -/
def Ticker.tick (t : Ticker φ) : Ticker φ :=
  if i.now - t.lastTickMonotonic < cfg.tickInterval then t
  else
    let registry := i.collected cfg t.registry
    let total := totalViolations registry
    { registry
      lastTickMonotonic := i.now
      lastTotalViolations := total
      reported := t.reported + (total - t.lastTotalViolations)
      recorded := t.recorded + (i.swept t.registry).2 }

/-- The tick is not due, records no violation or drops none. -/
def Ticker.HidesNothing (t : Ticker φ) : Prop :=
  i.now - t.lastTickMonotonic < cfg.tickInterval ∨ (i.swept t.registry).2 = 0 ∨
    totalViolations (i.collected cfg t.registry) = totalViolations (i.swept t.registry).1

end Tick

/-- What happens to the registry between two ticks. -/
inductive Call : JobRegistry φ → JobRegistry φ → Prop
  | registerProgram {r r' : JobRegistry φ} {now slo : φ} {jobId : String} {cap : Option ℤ}
      {result : Bool × Job φ} :
      r.registerProgram now jobId slo cap = .ok (r', result) → Call r r'
  | admitToJob {r r' : JobRegistry φ} {now : φ} {jobId rid : String} {result : JobAdmissionResult φ} :
      r.admitToJob now jobId rid = .ok (r', result) → Call r r'
  | recordCompletedCall (r : JobRegistry φ) (now : φ) (jobId : String) :
      Call r { r with jobs := update r.jobs jobId fun job => { job with lastUpdateTs := now } }
  | recordCompletion (r : JobRegistry φ) (now : φ) (rid : String) : Call r (r.recordCompletion now rid).1
  | markJobDone (r : JobRegistry φ) (now : φ) (rid : String) : Call r (r.markJobDone now rid).1

/-- Runs in which every tick hides nothing. -/
inductive Ticker.Reachable (cfg : TickConfig φ) : Ticker φ → Prop
  | init (start : φ) : Reachable cfg ⟨.init, start, 0, 0, 0⟩
  | call {t : Ticker φ} {r : JobRegistry φ} : Reachable cfg t → Call t.registry r →
      Reachable cfg { t with registry := r }
  | tick {t : Ticker φ} (i : TickInput φ) : Reachable cfg t → t.HidesNothing cfg i →
      Reachable cfg (t.tick cfg i)

variable {cfg : TickConfig φ} {i : TickInput φ} {r r' : JobRegistry φ} {t : Ticker φ}

theorem Call.totalViolations (h : Call r r') : totalViolations r' = totalViolations r := by
  have hupdate : ∀ {jobs : AList fun _ : String => Job φ} {jobId : String} {f : Job φ → Job φ},
      (∀ job, (f job).sloViolationCount = job.sloViolationCount) →
      weigh Job.sloViolationCount (update jobs jobId f) = weigh Job.sloViolationCount jobs :=
    fun {jobs jobId f} hf => (weigh_updateAll hf : weigh _ (updateAll jobs [jobId] f) = _)
  cases h with
  | registerProgram hrun =>
    unfold JobRegistry.registerProgram at hrun
    split at hrun
    · cases hrun
    · split at hrun
      · cases hrun
        rfl
      · next hnone =>
        cases hrun
        rw [Halo.totalViolations, weigh, AList.entries_insert_of_notMem (AList.lookup_eq_none.mp hnone),
          List.map_cons]
        exact Nat.zero_add _
  | admitToJob hrun =>
    rcases JobRegistry.admitToJob_cases hrun with rfl | ⟨-, hclaim⟩
    · rfl
    · rw [show r' = _ from congrArg Prod.fst hclaim]
      rcases claimFor_jobs with heq | ⟨-, heq⟩
      · rw [heq]
      · rw [heq]
        exact hupdate fun _ => rfl
  | recordCompletedCall now jobId => exact hupdate fun _ => rfl
  | recordCompletion now rid =>
    unfold JobRegistry.recordCompletion
    split
    · rfl
    · exact hupdate fun _ => rfl
  | markJobDone now rid =>
    unfold JobRegistry.markJobDone
    split
    · rfl
    · exact hupdate fun _ => rfl

theorem totalViolations_sweep (sweep : List (String × φ × φ)) (s : JobRegistry φ × ℕ) :
    totalViolations (sweep.foldl recordSweep s).1 + s.2 =
      totalViolations s.1 + (sweep.foldl recordSweep s).2 := by
  induction sweep generalizing s with
  | nil => rfl
  | cons m sweep ih =>
    have hm := ih (recordSweep s m)
    have hone : totalViolations (recordSweep s m).1 + s.2 = totalViolations s.1 + (recordSweep s m).2 := by
      unfold recordSweep
      split
      · rfl
      · next job hjob =>
        have hw := weigh_update (w := Job.sloViolationCount) (f := Job.recordVjs m.2.2 m.2.1) hjob
        have hcount : (job.recordVjs m.2.2 m.2.1).sloViolationCount = if job.slo < m.2.1 then
            job.sloViolationCount + 1 else job.sloViolationCount := rfl
        unfold totalViolations
        dsimp only
        split at hcount
        · next hv =>
          rw [if_pos hv]
          omega
        · next hv =>
          rw [if_neg hv]
          omega
    rw [List.foldl_cons]
    omega

theorem totalViolations_collected_le : totalViolations (i.collected cfg r) ≤ totalViolations (i.swept r).1 := by
  have hquiet : totalViolations ((i.swept r).1.gcQuiescentJobs i.quiescentNow cfg.quiescentTimeoutSeconds).1 =
      totalViolations (i.swept r).1 := by
    unfold gcQuiescentJobs
    split
    · rfl
    · exact weigh_updateAll fun _ => rfl
  rw [← hquiet]
  unfold TickInput.collected gcIdlePrograms
  dsimp only
  split
  · exact weigh_eraseAll_le
  · exact weigh_eraseAll_le.trans weigh_eraseAll_le

/-- What a tick does to the sum, when the total of the last tick is still that of the registry. -/
theorem Ticker.tick_reported (ht : t.lastTotalViolations = totalViolations t.registry)
    (heq : t.reported = t.recorded) :
      (t.tick cfg i).lastTotalViolations = totalViolations (t.tick cfg i).registry ∧
      ((t.tick cfg i).reported = (t.tick cfg i).recorded ↔ t.HidesNothing cfg i) := by
  unfold Ticker.tick Ticker.HidesNothing
  split
  · next hearly => exact ⟨ht, by simp [heq, hearly]⟩
  · next hdue =>
    have hsweep := totalViolations_sweep i.sweep (t.registry, 0)
    have hle : totalViolations (i.collected cfg t.registry) ≤ totalViolations (i.swept t.registry).1 :=
      totalViolations_collected_le
    refine ⟨rfl, ?_⟩
    unfold TickInput.swept at hle ⊢
    simp only [hdue, false_or, ht]
    dsimp only at hsweep
    omega

theorem Ticker.Reachable.inv (h : Reachable cfg t) :
    t.lastTotalViolations = totalViolations t.registry ∧ t.reported = t.recorded := by
  induction h with
  | init start => exact ⟨rfl, rfl⟩
  | call _ hcall ih => exact ⟨ih.1.trans hcall.totalViolations.symm, ih.2⟩
  | tick i _ hhides ih =>
    obtain ⟨htotal, hiff⟩ := tick_reported ih.1 ih.2
    exact ⟨htotal, hiff.mpr hhides⟩

/-- **The reports add up.** In every run in which no tick both records a violation and drops one, the deltas
passed to the metrics add up to the number of violations recorded; and in every state of such a run a tick keeps
this exactly if it does not do both. -/
theorem reports_add_up (h : t.Reachable cfg) : t.reported = t.recorded ∧
    ∀ i, (t.tick cfg i).reported = (t.tick cfg i).recorded ↔ t.HidesNothing cfg i :=
  ⟨h.inv.2, fun _ => (Ticker.tick_reported h.inv.1 h.inv.2).2⟩

/-- The default configuration of Halo's collectors, and a job that violates its SLO while another one waits. -/
theorem reports_add_up_one_violation : ∃ t : Ticker ℚ, t.Reachable ⟨1, 60, 5, 300⟩ ∧ t.reported = 1 ∧
    t.recorded = 1 := by
  have h₁ := (@Ticker.Reachable.init ℚ _ ⟨1, 60, 5, 300⟩ 0).call
    (.registerProgram (rfl : registerProgram (0 : ℚ) .init "a" 1 none = .ok (_, _)))
  have h₂ := h₁.tick ⟨3, [("a", 3, 3)], 3, 3, 3⟩ (.inr (.inr (by decide +kernel)))
  exact ⟨_, h₂, (reports_add_up h₂).1.trans (by decide +kernel), by decide +kernel⟩

/-- The first job violates its SLO once and finishes. The tick that records the violation of the second job
drops the first one, and reports nothing. -/
theorem collected_job_hides_violation : ∃ (t : Ticker ℚ) (i : TickInput ℚ), t.Reachable ⟨1, 60, 5, 300⟩ ∧
    (t.tick ⟨1, 60, 5, 300⟩ i).reported = 1 ∧ (t.tick ⟨1, 60, 5, 300⟩ i).recorded = 2 := by
  have h₁ := (@Ticker.Reachable.init ℚ _ ⟨1, 60, 5, 300⟩ 0).call
    (.registerProgram (rfl : registerProgram (0 : ℚ) .init "a" 1 none = .ok (_, _)))
  have h₂ := h₁.call (.registerProgram (rfl : registerProgram (0 : ℚ) _ "b" 1 none = .ok (_, _)))
  have h₃ := h₂.call (.admitToJob (rfl : JobRegistry.admitToJob (1 : ℚ) _ "a" "call" = .ok (_, _)))
  have h₄ := h₃.tick ⟨3, [("a", 3, 3)], 3, 3, 3⟩ (.inr (.inr (by decide +kernel)))
  have h₅ := (h₄.call (.markJobDone _ 4 "call")).call (.recordCompletion _ 4 "call")
  exact ⟨_, ⟨12, [("b", 3, 12)], 12, 12, 12⟩, h₅, by decide +kernel, by decide +kernel⟩

end SGLang.Halo
