/-
# SGLang.Halo.InFlight — the counts of requests in flight over whole runs of the scheduler.

A server is a scheduler with the requests that were retracted or preempted and wait to be queued again.
Its steps are those that Halo's counters depend on: a program is registered, a request arrives, is
scheduled, is retracted or preempted, is queued again, finishes, is aborted while it waits or when decoding
runs out of memory, and the collectors run. The counters of a job are right as long as every tracked request
that was admitted leaves through the finish hook and is not queued a second time.
-/
import SGLang.Managers.RequestQueue
import Mathlib.Data.Finset.Card

namespace SGLang.Halo

open SGLang.Lib SGLang.Managers JobRegistry Multiset Scheduler

/-- A scheduler and the requests it has taken out of the running batch to queue them again. -/
structure Server where
  sched : Scheduler
  retracted : List Req

namespace Server

/-- The requests that have neither finished nor been aborted. -/
def alive (s : Server) : List Req := s.sched.waitingQueue ++ s.retracted ++ s.sched.runningBatch

/-- Halo tracks the request. -/
def Tracked (q : Req) : Prop := q.haloBypass = false

instance : DecidablePred Tracked := fun q => inferInstanceAs (Decidable (q.haloBypass = false))

/-- The ids of a job's requests that are alive. -/
def aliveIds (s : Server) (jobId : String) : Finset String :=
  ((s.alive.filter fun q => decide (Tracked q ∧ q.haloJobId = some jobId)).map Req.rid).toFinset

/-- `_halo_on_request_finished`. -/
def finishHook (now : ℚ) (s : Scheduler) (q : Req) : Scheduler :=
  let timed := q.haloJobId.isSome && q.haloFirstAdmittedTs.isSome
  { s with
    haloController := s.haloController.map fun halo =>
      halo.onRequestFinished now q.rid timed q.haloJobDone }

/-- The collectors of `tick`. -/
def collect (now retainSeconds quiescentSeconds idleSeconds : ℚ) (r : JobRegistry ℚ) : JobRegistry ℚ :=
  (((r.gcQuiescentJobs now quiescentSeconds).1.gcCompleted now retainSeconds).1.gcIdlePrograms now
    idleSeconds).1

/-- The registry changes, and nothing else. -/
def withRegistry (s : Scheduler) (halo : HaloController) (r : JobRegistry ℚ) : Scheduler :=
  { s with haloController := some { halo with registry := r } }

/-- What happens in a step, as far as it matters to the counters. -/
inductive Event
  | arrive (req : Req)
  | abortOutOfMemory (q : Req)
  | requeue (req : Req)
  | abortWaiting (start : String)
  | other

/-- What the server does. -/
inductive Step : Server → Event → Server → Prop
  | registerProgram {s : Server} {halo : HaloController} {now slo : ℚ} {jobId : String}
      {cap : Option ℤ} {r : JobRegistry ℚ} {result : Bool × Job ℚ} :
      s.sched.haloController = some halo →
      halo.registry.registerProgram now jobId slo cap = .ok (r, result) →
      Step s .other { s with sched := withRegistry s.sched halo r }
  /-- A request arrives; the tokenizer manager sends no request id that is in use. -/
  | arrive {s : Server} {now : ℚ} {req : Req} {load : Load} {sched : Scheduler} :
      (∀ q ∈ s.alive, q.rid ≠ req.rid) → s.sched.addRequestToQueue now req load = .ok sched →
      Step s (.arrive req) { s with sched := sched }
  | schedule {s : Server} {before after : List Req} {q : Req} :
      s.sched.waitingQueue = before ++ q :: after →
      Step s .other { s with sched := { s.sched with
        waitingQueue := before ++ after, runningBatch := s.sched.runningBatch ++ [q] } }
  /-- A running request produces a token. -/
  | decode {s : Server} {before after : List Req} {q : Req} :
      s.sched.runningBatch = before ++ q :: after →
      Step s .other { s with sched := { s.sched with
        runningBatch := before ++ { q with outputLen := q.outputLen + 1 } :: after } }
  /-- Requests are retracted or preempted. -/
  | retract {s : Server} {kept gone : List Req} :
      s.sched.runningBatch.Perm (kept ++ gone) → Step s .other
        { sched := { s.sched with runningBatch := kept }, retracted := s.retracted ++ gone }
  /-- The last request does not fit in memory and is aborted. -/
  | abortOutOfMemory {s : Server} {before after : List Req} {q : Req} {message : String} :
      s.sched.runningBatch = before ++ q :: after →
      Step s (.abortOutOfMemory q) { s with sched := { s.sched with
        runningBatch := before ++ after
        sent := s.sched.sent ++ [⟨q.rid, some (500, message)⟩] } }
  | requeue {s : Server} {now : ℚ} {req : Req} {rest : List Req} {load : Load} {sched : Scheduler} :
      s.retracted = req :: rest → s.sched.addRequestToQueue now req load = .ok sched →
      Step s (.requeue req) ⟨sched, rest⟩
  | finish {s : Server} {now : ℚ} {before after : List Req} {q : Req} :
      s.sched.runningBatch = before ++ q :: after →
      Step s .other { s with
        sched := finishHook now { s.sched with runningBatch := before ++ after } q }
  /-- `abort_request` takes the requests whose id starts with the given text out of the queue. -/
  | abortWaiting {s : Server} (start : String) :
      Step s (.abortWaiting start) { s with sched := { s.sched with
        waitingQueue := s.sched.waitingQueue.filter fun q => !start.toList.isPrefixOf q.rid.toList
        sent := s.sched.sent ++ (s.sched.waitingQueue.filter fun q =>
          start.toList.isPrefixOf q.rid.toList).map fun q => ⟨q.rid, none⟩ } }
  | tick {s : Server} {halo : HaloController} (now retain quiescent idle : ℚ) :
      s.sched.haloController = some halo → Step s .other { s with
        sched := withRegistry s.sched halo (collect now retain quiescent idle halo.registry) }

variable (s : Server)

/-- No request that Halo tracks is queued a second time or leaves outside the finish path: not while it
waits, not for a more preferred request that takes its place, and not when memory runs out. -/
def Orderly : Event → Prop
  | .arrive req => ∀ q, s.sched.Displaces req q → ¬ Tracked q
  | .requeue req => ¬ Tracked req ∧ ∀ q, s.sched.Displaces req q → ¬ Tracked q
  | .abortOutOfMemory q => ¬ Tracked q
  | .abortWaiting start =>
    ∀ q ∈ s.sched.waitingQueue, start.toList.isPrefixOf q.rid.toList = true → ¬ Tracked q
  | .other => True

/-- A server with Halo on that has not seen a request or a program. -/
def Initial : Prop :=
  s.alive = [] ∧ ∃ halo, s.sched.haloController = some halo ∧ halo.registry = .init

/-- Servers reached by steps of which every one is orderly. -/
def OrderlyReachable : Prop :=
  ∃ s₀, Initial s₀ ∧ Relation.ReflTransGen (fun s s' => ∃ e, Step s e s' ∧ Orderly s e) s₀ s

/-- Servers reached by any steps. -/
def Reachable : Prop :=
  ∃ s₀, Initial s₀ ∧ Relation.ReflTransGen (fun s s' => ∃ e, Step s e s') s₀ s

/-! ## The accounts -/

/-- What identifies a request to Halo. -/
def tag (q : Req) : String × Option String × Bool := (q.rid, q.haloJobId, q.haloBypass)

/-- The requests that are alive, as Halo knows them. -/
def tags (s : Server) : Multiset (String × Option String × Bool) :=
  (s.alive : Multiset Req).map tag

/-- The counters of every job count its request ids. -/
def Counted (r : JobRegistry ℚ) : Prop :=
  ∀ jobId job, r.jobs.lookup jobId = some job →
    job.inFlightCount = job.requestIds.card ∧ job.remainingRequestNumber = job.requestIds.card

/-- The registry maps exactly the tracked requests that are alive. -/
def Maps (r : JobRegistry ℚ) (T : Multiset (String × Option String × Bool)) : Prop :=
  ∀ rid jobId, r.ridToJob.lookup rid = some jobId ↔ (rid, some jobId, false) ∈ T

/-- The registry is in order with the requests that are alive. -/
structure Ledger (r : JobRegistry ℚ) (T : Multiset (String × Option String × Bool)) : Prop where
  unique : (T.map Prod.fst).Nodup
  integrity : r.Integrity
  maps : Maps r T
  counted : Counted r

variable {s s' : Server} {r r' : JobRegistry ℚ} {T T' : Multiset (String × Option String × Bool)}
variable {rid jobId : String} {job : Job ℚ} {now : ℚ} {q req : Req} {job? : Option String} {bypass : Bool}
  {sched : Scheduler}

theorem Counted.of_subset (h : Counted r)
    (hsub : ∀ jobId job, r'.jobs.lookup jobId = some job → r.jobs.lookup jobId = some job) :
    Counted r' := fun jobId job hjob => h jobId job (hsub jobId job hjob)

/-- A change of jobs that touches neither request ids nor counters. -/
def KeepsCounts (f : Job ℚ → Job ℚ) : Prop :=
  ∀ job, (f job).requestIds = job.requestIds ∧ (f job).inFlightCount = job.inFlightCount ∧
    (f job).remainingRequestNumber = job.remainingRequestNumber

variable {f : Job ℚ → Job ℚ}

theorem Counted.update (h : Counted r) (hf : KeepsCounts f)
    (hjobs : ∀ jobId, r'.jobs.lookup jobId = r.jobs.lookup jobId ∨
      r'.jobs.lookup jobId = (r.jobs.lookup jobId).map f) : Counted r' := by
  intro jobId job hjob
  rcases hjobs jobId with heq | heq
  · exact h jobId job (heq ▸ hjob)
  · rw [heq, Option.map_eq_some_iff] at hjob
    rcases hjob with ⟨job₀, hjob₀, rfl⟩
    rw [(hf job₀).1, (hf job₀).2.1, (hf job₀).2.2]
    exact h jobId job₀ hjob₀

section

variable (h : Ledger r T)

include h

/-- Requests that Halo does not track may leave. -/
theorem Ledger.drop (hle : T' ≤ T)
    (hkeep : ∀ rid jobId, (rid, some jobId, false) ∈ T → (rid, some jobId, false) ∈ T') :
    Ledger r T' where
  unique := nodup_of_le (map_le_map hle) h.unique
  integrity := h.integrity
  maps rid jobId := (h.maps rid jobId).trans ⟨hkeep rid jobId, mem_of_le hle⟩
  counted := h.counted

/-- A new request that Halo does not track. -/
theorem Ledger.addUntracked (hfresh : rid ∉ T.map Prod.fst) : Ledger r ((rid, job?, true) ::ₘ T) where
  unique := by
    rw [map_cons]
    exact nodup_cons.mpr ⟨hfresh, h.unique⟩
  integrity := h.integrity
  maps x j := by
    rw [h.maps x j, mem_cons]
    simp
  counted := h.counted

theorem Ledger.quiet (hrid : r'.ridToJob = r.ridToJob) (hf : KeepsCounts f)
    (hjobs : ∀ jobId, r'.jobs.lookup jobId = r.jobs.lookup jobId ∨
      r'.jobs.lookup jobId = (r.jobs.lookup jobId).map f) : Ledger r' T where
  unique := h.unique
  integrity := by
    refine h.integrity.of_jobs hrid fun jobId x => ?_
    rcases hjobs jobId with heq | heq
    · rw [heq]
    · rw [heq]
      simp [(hf _).1]
  maps rid jobId := by
    rw [hrid]
    exact h.maps rid jobId
  counted := h.counted.update hf hjobs

theorem Ledger.update (hf : KeepsCounts f) : Ledger { r with jobs := Dict.update r.jobs jobId f } T := by
  refine h.quiet rfl hf fun j => ?_
  rw [Dict.lookup_update]
  split
  · next hj =>
    subst hj
    exact .inr rfl
  · exact .inl rfl

/-- Jobs without requests may go. -/
theorem Ledger.collect {p : Job ℚ → Bool} (hp : ∀ job, p job = true → job.requestIds = ∅) :
    Ledger { r with jobs := Dict.eraseAll r.jobs (Dict.keysWhere r.jobs p) } T where
  unique := h.unique
  integrity := h.integrity.of_jobs rfl fun _ _ => exists_collect hp
  maps := h.maps
  counted := by
    refine h.counted.of_subset fun jobId job hjob => ?_
    rw [Dict.lookup_eraseAll] at hjob
    split at hjob
    · cases hjob
    · exact hjob

theorem Ledger.tick (now retain quiescent idle : ℚ) :
    Ledger (Server.collect now retain quiescent idle r) T := by
  have hclosed : Ledger (r.gcQuiescentJobs now quiescent).1 T := by
    unfold gcQuiescentJobs
    split
    · exact h
    · refine h.quiet rfl (f := Job.markDone now) (fun _ => ⟨rfl, rfl, rfl⟩) fun jobId => ?_
      rw [Dict.lookup_updateAll Dict.nodup_keysWhere]
      split
      · exact .inr rfl
      · exact .inl rfl
  have hdropped : Ledger ((r.gcQuiescentJobs now quiescent).1.gcCompleted now retain).1 T :=
    hclosed.collect fun _ => requestIds_of_isExpired
  unfold Server.collect gcIdlePrograms
  split
  · exact hdropped
  · exact hdropped.collect fun _ => requestIds_of_isIdleProgram

theorem Ledger.register (hnone : r.jobs.lookup jobId = none)
    (hempty : job.requestIds = ∅) (hin : job.inFlightCount = 0) (hrem : job.remainingRequestNumber = 0) :
    Ledger { r with jobs := r.jobs.insert jobId job } T where
  unique := h.unique
  integrity := h.integrity.register hnone hempty
  maps := h.maps
  counted := by
    intro j job' hjob'
    rcases Dict.lookup_insert_iff.mp hjob' with ⟨-, rfl⟩ | ⟨-, hold⟩
    · simp [hempty, hin, hrem]
    · exact h.counted j job' hold

theorem Ledger.unmapped (hfresh : rid ∉ T.map Prod.fst) : r.ridToJob.lookup rid = none := by
  cases hrid : r.ridToJob.lookup rid with
  | none => rfl
  | some jobId => exact absurd (mem_map_of_mem Prod.fst ((h.maps rid jobId).mp hrid)) hfresh

theorem Ledger.admitted (hjob : r.jobs.lookup jobId = some job) (hfresh : rid ∉ T.map Prod.fst) :
    Ledger ⟨Dict.update r.jobs jobId (Job.onRequestAdmitted now rid), r.ridToJob.insert rid jobId⟩
      ((rid, some jobId, false) ::ₘ T) where
  unique := by
    rw [map_cons]
    exact nodup_cons.mpr ⟨hfresh, h.unique⟩
  integrity := by
    refine h.integrity.admitted hjob fun other hother => ?_
    rw [h.unmapped hfresh] at hother
    cases hother
  maps x j := by
    have hne : (x, some j, false) ∈ T → x ≠ rid := by
      rintro hmem rfl
      exact hfresh (mem_map_of_mem Prod.fst hmem)
    rw [mem_cons, Dict.lookup_insert_iff, h.maps x j]
    simp only [Prod.mk.injEq, Option.some.injEq, and_true]
    tauto
  counted := by
    intro j job' hjob'
    rw [Dict.lookup_update] at hjob'
    split at hjob'
    · next hj =>
      subst hj
      rw [hjob, Option.map_some] at hjob'
      cases hjob'
      have hnew : rid ∉ job.requestIds := by
        intro hmem
        have hmapped := (h.integrity rid j).mpr ⟨job, hjob, hmem⟩
        rw [h.unmapped hfresh] at hmapped
        cases hmapped
      rcases h.counted j job hjob with ⟨hin, hrem⟩
      simp only [Job.onRequestAdmitted, Finset.card_insert_of_notMem hnew, hin, hrem, and_self]
    · exact h.counted j job' hjob'

end

/-- The completed request leaves its job and the requests that are alive. -/
theorem Ledger.complete (now : ℚ) (h : Ledger r ((rid, job?, bypass) ::ₘ T)) :
    Ledger (r.recordCompletion now rid).1 T := by
  have hnodup := h.unique
  rw [map_cons, nodup_cons] at hnodup
  rcases hnodup with ⟨hgone, hunique⟩
  unfold recordCompletion
  cases hrid : r.ridToJob.lookup rid with
  | none =>
    refine h.drop (le_cons_self _ _) fun x j hmem => ?_
    rcases mem_cons.mp hmem with heq | hmem'
    · -- a tracked request would be mapped
      rw [Prod.mk.injEq] at heq
      have hmapped := (h.maps x j).mpr hmem
      rw [heq.1, hrid] at hmapped
      cases hmapped
    · exact hmem'
  | some jobId =>
    refine ⟨hunique, h.integrity.complete hrid, ?_, ?_⟩
    · intro x j
      have hne : (x, some j, false) ∈ T → x ≠ rid := by
        rintro hmem rfl
        exact hgone (mem_map.mpr ⟨_, hmem, rfl⟩)
      rw [Dict.lookup_erase_iff, h.maps x j, mem_cons, Prod.mk.injEq]
      tauto
    · intro j job' hjob'
      rw [Dict.lookup_update] at hjob'
      split at hjob'
      · next hj =>
        subst hj
        rcases (h.integrity rid j).mp hrid with ⟨job, hjob, hmem⟩
        rw [hjob, Option.map_some] at hjob'
        cases hjob'
        rcases h.counted j job hjob with ⟨hin, hrem⟩
        simp only [Job.onRequestCompleted, Finset.card_erase_of_mem hmem, hin, hrem, and_self]
      · exact h.counted j job' hjob'

/-- `on_request_finished`, for a request that leaves. -/
theorem Ledger.finish {halo : HaloController} (now : ℚ) (timed done : Bool)
    (h : Ledger halo.registry ((rid, job?, bypass) ::ₘ T)) :
    Ledger (halo.onRequestFinished now rid timed done).registry T := by
  have htouched : ∀ r', (r' = halo.registry ∨ ∃ jobId, r' = { halo.registry with
      jobs := Dict.update halo.registry.jobs jobId fun job => { job with lastUpdateTs := now } }) →
      Ledger r' ((rid, job?, bypass) ::ₘ T) := by
    rintro r' (rfl | ⟨jobId, rfl⟩)
    · exact h
    · exact h.update (fun _ => ⟨rfl, rfl, rfl⟩)
  have hmarked : ∀ r', Ledger r' ((rid, job?, bypass) ::ₘ T) →
      Ledger (if done then (r'.markJobDone now rid).1 else r') ((rid, job?, bypass) ::ₘ T) := by
    intro r' h'
    split
    · unfold markJobDone
      split
      · exact h'
      · exact h'.update (fun _ => ⟨rfl, rfl, rfl⟩)
    · exact h'
  apply Ledger.complete
  apply hmarked
  apply htouched
  split
  · exact .inr ⟨_, rfl⟩
  · exact .inl rfl

/-! ## Runs -/

/-- Halo is on and its registry is in order with the requests that are alive. -/
structure Accounts (s : Server) (halo : HaloController) : Prop where
  on : s.sched.haloController = some halo
  ledger : Ledger halo.registry (tags s)

variable {halo halo' : HaloController}

/-- Steps that leave Halo alone: requests move about, and those Halo does not track may leave. -/
theorem Accounts.leave (h : Accounts s halo) (hon : s'.sched.haloController = s.sched.haloController)
    (hsub : s'.alive.Subperm s.alive) (hkeep : ∀ q ∈ s.alive, Tracked q → q ∈ s'.alive) :
    Accounts s' halo where
  on := hon.trans h.on
  ledger := by
    refine h.ledger.drop (map_le_map (coe_le.mpr hsub)) fun rid jobId hmem => ?_
    rcases mem_map.mp hmem with ⟨q, hq, htag⟩
    have htracked : Tracked q := congrArg (fun t : String × Option String × Bool => t.2.2) htag
    exact mem_map.mpr ⟨q, hkeep q hq htracked, htag⟩

/-- A request that is not in use goes through the queue's gates. -/
theorem Accounts.enqueue {load : Load} {q? : Option Req} {halo? : Option HaloController} (h : Accounts s halo)
    (hfresh : ∀ q ∈ s.alive, q.rid ≠ req.rid) (hsched : sched.haloController = some halo)
    (henq : Enqueued now sched req load halo? q?) (hon : s'.sched.haloController = halo?)
    (halive : tags s' = (q?.toList.map tag : Multiset _) + tags s) : ∃ halo', Accounts s' halo' := by
  have hnew : req.rid ∉ (tags s).map Prod.fst := by
    intro hmem
    rcases mem_map.mp hmem with ⟨t, ht, hrid⟩
    rcases mem_map.mp ht with ⟨q, hq, rfl⟩
    exact hfresh q hq hrid
  cases henq with
  | rejected =>
    refine ⟨halo, hon.trans hsched, ?_⟩
    rw [halive]
    simpa using h.ledger
  | @untracked q hrid hjob hbypass hoff =>
    have htrue : req.haloBypass = true := by
      rcases hoff with hoff | htrue
      · rw [hsched] at hoff
        cases hoff
      · exact htrue
    refine ⟨halo, hon.trans hsched, ?_⟩
    rw [halive]
    have htag : tag q = (req.rid, req.haloJobId, true) := by
      rw [tag, hrid, hjob, hbypass, htrue]
    simpa [htag] using h.ledger.addUntracked hnew
  | @tracked q halo₁ result hrid hjob hbypass hon₁ htracked hreg =>
    rw [hsched] at hon₁
    cases hon₁
    rcases HaloController.registerRequest_ok hreg with
      ⟨jobId, job, r', res, hid, -, hjobs, -, -, -, hadmit, hresult⟩
    have hclaim : r' = (halo.registry.claimFor now jobId req.rid).1 := by
      rw [JobRegistry.admitToJob, h.ledger.unmapped hnew] at hadmit
      exact (congrArg Prod.fst (Except.ok.inj hadmit)).symm
    rw [claimFor, hjobs] at hclaim
    refine ⟨result.1, hon, ?_⟩
    have htag : tag q = (req.rid, some jobId, false) := by
      rw [tag, hrid, hjob, hbypass, htracked, hid]
    rw [halive, hresult, hclaim]
    simpa [htag] using h.ledger.admitted hjobs hnew

/-- Displacement takes only requests that Halo does not track. -/
theorem displaced_untracked {W : List Req}
    (hW : W = s.sched.waitingQueue ∨ ∃ x, s.sched.Displaces req x ∧ W = s.sched.waitingQueue.erase x)
    (horderly : ∀ q, s.sched.Displaces req q → ¬ Tracked q) :
    W.Sublist s.sched.waitingQueue ∧ ∀ q ∈ s.sched.waitingQueue, Tracked q → q ∈ W := by
  rcases hW with rfl | ⟨x, hx, rfl⟩
  · exact ⟨.refl _, fun q hq _ => hq⟩
  · refine ⟨List.erase_sublist, fun q hq htracked => ?_⟩
    refine (List.mem_erase_of_ne ?_).mpr hq
    rintro rfl
    exact horderly q hx htracked

/-- The requests alive, part by part. -/
theorem mem_alive : q ∈ s.alive ↔ (q ∈ s.sched.waitingQueue ∨ q ∈ s.retracted) ∨ q ∈ s.sched.runningBatch := by
  simp [alive, or_assoc]

theorem tags_of_perm (h : s.alive.Perm (q :: s'.alive)) : tags s = tag q ::ₘ tags s' := by
  rw [tags, coe_eq_coe.mpr h]
  rfl

/-- A request leaves the running batch. -/
theorem alive_perm_of_batch {before after : List Req} (hbatch : s.sched.runningBatch = before ++ q :: after) :
    s.alive.Perm (q :: alive { s with sched := { s.sched with runningBatch := before ++ after } }) := by
  simp only [alive, hbatch, ← List.append_assoc]
  exact List.perm_middle

theorem Accounts.addRequest {load : Load} {rest : List Req} (h : Accounts s halo)
    (hfresh : ∀ q ∈ s.sched.waitingQueue ++ rest ++ s.sched.runningBatch,
      q.rid ≠ req.rid) (hrest : rest.Sublist s.retracted) (hkept : ∀ q ∈ s.retracted, Tracked q → q ∈ rest)
    (hrun : s.sched.addRequestToQueue now req load = .ok sched)
    (horderly : ∀ q, s.sched.Displaces req q → ¬ Tracked q) :
    ∃ halo', Accounts ⟨sched, rest⟩ halo' := by
  rcases addRequestToQueue_cases hrun with ⟨W, halo?, q?, hW, henq, hon, hqueue, hbatch⟩
  rcases displaced_untracked hW horderly with ⟨hsub, hkeep⟩
  -- the requests that stay are in order before the new one is queued
  have hstay : Accounts ⟨{ s.sched with waitingQueue := W }, rest⟩ halo := by
    refine h.leave rfl ((hsub.append hrest).append (.refl _)).subperm ?_
    intro q hq htracked
    rw [mem_alive] at hq ⊢
    rcases hq with (hq | hq) | hq
    · exact .inl (.inl (hkeep q hq htracked))
    · exact .inl (.inr (hkept q hq htracked))
    · exact .inr hq
  refine hstay.enqueue ?_ h.on henq hon ?_
  · intro q hq
    apply hfresh q
    rw [mem_alive] at hq
    simp only [List.mem_append]
    exact hq.imp_left (Or.imp_left fun hq => hsub.subset hq)
  · unfold tags alive
    simp only [hqueue, hbatch]
    rw [← map_coe, ← map_add, coe_add]
    refine congrArg (map tag) (coe_eq_coe.mpr ?_)
    simp only [List.append_assoc]
    exact List.perm_append_comm_assoc _ _ _

/-- Every orderly step keeps the accounts. -/
theorem Step.accounts {e : Event} (hstep : Step s e s') (horderly : Orderly s e)
    (h : Accounts s halo) : ∃ halo', Accounts s' halo' := by
  cases hstep with
  | registerProgram hon hrun =>
    rw [h.on] at hon
    cases hon
    refine ⟨_, rfl, ?_⟩
    rcases registerProgram_jobs hrun with rfl | ⟨hnone, job, hempty, hin, hrem, rfl⟩
    · exact h.ledger
    · exact h.ledger.register hnone hempty hin hrem
  | arrive hfresh hrun => exact h.addRequest hfresh (.refl _) (fun _ hq _ => hq) hrun horderly
  | @schedule before after q hqueue =>
    have hperm : ((before ++ after) ++ s.retracted ++ (s.sched.runningBatch ++ [q])).Perm s.alive := by
      unfold alive
      rw [hqueue]
      refine List.perm_iff_count.mpr fun x => ?_
      simp only [List.count_append, List.count_cons, List.count_nil]
      omega
    exact ⟨halo, h.leave rfl hperm.subperm (fun q hq _ => hperm.mem_iff.mpr hq)⟩
  | @decode before after q hbatch =>
    refine ⟨halo, h.on, ?_⟩
    have htags : tags s = tags { s with sched := { s.sched with
        runningBatch := before ++ { q with outputLen := q.outputLen + 1 } :: after } } := by
      unfold tags alive
      simp only [hbatch, map_coe, List.map_append, List.map_cons]
      rfl
    rw [← htags]
    exact h.ledger
  | @retract kept gone hperm =>
    have hperm' : (s.sched.waitingQueue ++ (s.retracted ++ gone) ++ kept).Perm s.alive := by
      refine List.perm_iff_count.mpr fun x => ?_
      have := List.perm_iff_count.mp hperm x
      simp only [alive, List.count_append] at this ⊢
      omega
    exact ⟨halo, h.leave rfl hperm'.subperm fun q hq _ => hperm'.mem_iff.mpr hq⟩
  | @abortOutOfMemory before after q message hbatch =>
    have hperm := alive_perm_of_batch hbatch
    refine ⟨halo, h.leave rfl ((List.sublist_cons_self _ _).subperm.trans hperm.symm.subperm) ?_⟩
    intro x hx htracked
    refine (List.mem_cons.mp (hperm.mem_iff.mp hx)).resolve_left ?_
    rintro rfl
    exact horderly htracked
  | @requeue now req rest load sched hret hrun =>
    rcases horderly with ⟨huntracked, hdisplaced⟩
    have hkept : ∀ q ∈ s.retracted, Tracked q → q ∈ rest := by
      intro q hq htracked
      rw [hret] at hq
      rcases List.mem_cons.mp hq with rfl | hq
      · exact absurd htracked huntracked
      · exact hq
    refine h.addRequest ?_ (hret ▸ List.sublist_cons_self _ _) hkept hrun hdisplaced
    have hperm : s.alive.Perm (req :: alive ⟨s.sched, rest⟩) := by
      simp only [alive, hret, List.append_assoc]
      exact List.perm_middle
    have hnodup := h.ledger.unique
    rw [tags_of_perm hperm, map_cons, nodup_cons] at hnodup
    intro q hq heq
    apply hnodup.1
    rw [← show (tag q).1 = (tag req).1 from heq]
    exact mem_map_of_mem _ (mem_map_of_mem _ hq)
  | @finish now before after q hbatch =>
    refine ⟨_, congrArg (Option.map _) h.on, ?_⟩
    have hledger := h.ledger
    rw [tags_of_perm (alive_perm_of_batch hbatch)] at hledger
    exact hledger.finish now _ _
  | abortWaiting start =>
    refine ⟨halo, h.leave rfl ?_ ?_⟩
    · exact ((List.filter_sublist.append (.refl _)).append (.refl _)).subperm
    · intro q hq htracked
      rw [mem_alive] at hq ⊢
      refine hq.imp_left (Or.imp_left fun hq => List.mem_filter.mpr ⟨hq, ?_⟩)
      cases hstart : start.toList.isPrefixOf q.rid.toList with
      | false => rfl
      | true => exact absurd htracked (horderly q hq hstart)
  | tick now retain quiescent idle hon =>
    rw [h.on] at hon
    cases hon
    exact ⟨_, rfl, h.ledger.tick now retain quiescent idle⟩

theorem OrderlyReachable.accounts (h : OrderlyReachable s) : ∃ halo, Accounts s halo := by
  rcases h with ⟨s₀, ⟨halive, halo, hon, hinit⟩, hrun⟩
  induction hrun with
  | refl =>
    refine ⟨halo, hon, ?_⟩
    rw [hinit, tags, halive]
    refine ⟨nodup_zero, Reachable.integrity .refl, ?_, ?_⟩
    · intro rid jobId
      simp [init]
    · intro jobId job hjob
      cases hjob
  | tail _ hstep ih =>
    rcases hstep with ⟨e, hstep, horderly⟩
    rcases ih with ⟨halo', h⟩
    exact hstep.accounts horderly h

theorem mem_aliveIds : rid ∈ s.aliveIds jobId ↔ (rid, some jobId, false) ∈ tags s := by
  simp only [aliveIds, tags, List.mem_toFinset, List.mem_map, List.mem_filter, decide_eq_true_eq,
    mem_map, mem_coe, tag, Prod.mk.injEq]
  constructor
  · rintro ⟨q, ⟨hq, hbypass, hjob⟩, hrid⟩
    exact ⟨q, hq, hrid, hjob, hbypass⟩
  · rintro ⟨q, hq, hrid, hjob, hbypass⟩
    exact ⟨q, ⟨hq, hbypass, hjob⟩, hrid⟩

/-- **In-flight accounting.** In every run without retraction into the queue or abort of a tracked request,
the counters of a job and its set of request ids count the job's requests that are alive; the count of an
idle job is zero, and a cap that allows a request at all does not block it. -/
theorem inFlight_accounting {jobId : String} (h : OrderlyReachable s) (hon : s.sched.haloController = some halo)
    (hjob : halo.registry.jobs.lookup jobId = some job) :
    job.requestIds = s.aliveIds jobId ∧ job.inFlightCount = (s.aliveIds jobId).card ∧
      job.remainingRequestNumber = (s.aliveIds jobId).card ∧ job.inFlightCount = job.requestIds.card ∧
      (s.aliveIds jobId = ∅ → job.inFlightCount = 0 ∧
        ((∀ cap, job.declaredMaxConcurrency = some cap → 0 < cap) →
          HaloController.concurrencyRejects job = false)) := by
  rcases h.accounts with ⟨halo', hacc⟩
  rw [hacc.on] at hon
  cases hon
  have hids : job.requestIds = s.aliveIds jobId := by
    ext rid
    rw [mem_aliveIds, ← hacc.ledger.maps rid jobId, hacc.ledger.integrity rid jobId]
    simp [hjob]
  rcases hacc.ledger.counted jobId job hjob with ⟨hin, hrem⟩
  refine ⟨hids, hids ▸ hin, hids ▸ hrem, hin, ?_⟩
  intro hidle
  have hzero : job.inFlightCount = 0 := by rw [hin, hids, hidle, Finset.card_empty]
  refine ⟨hzero, ?_⟩
  intro hcap
  unfold HaloController.concurrencyRejects
  split
  · rfl
  · next cap heq =>
    have := hcap cap heq
    rw [hzero, decide_eq_false_iff_not]
    omega

/-- A server with Halo on. -/
def fresh : Server := ⟨haloOnly .init [], []⟩

/-- The program "chain" is registered with a cap of one request, whose only call is queued. -/
def oneQueued : Server :=
  ⟨{ haloOnly (Scheduler.oneInFlight 1) [] with
      waitingQueue := [{ newCall with waitQueueEntryTime := 1, haloFirstAdmittedTs := some 1 }] },
    []⟩

theorem fresh_initial : Initial fresh := ⟨rfl, _, rfl, rfl⟩

theorem registered_step : Step fresh .other ⟨haloOnly (registered 1) [], []⟩ := by
  have hrun : ∃ result, registerProgram (0 : ℚ) .init "chain" 5 (some 1) = .ok (registered 1, result) :=
    ⟨_, rfl⟩
  rcases hrun with ⟨result, hrun⟩
  have hon : fresh.sched.haloController = some ⟨⟨1 / 5, false, 0⟩, none, .init⟩ := rfl
  exact Step.registerProgram hon hrun

theorem oneQueued_step : Step ⟨haloOnly (registered 1) [], []⟩ (.arrive newCall) oneQueued :=
  .arrive (by simp [alive, haloOnly]) (rfl : addRequestToQueue 1
    (haloOnly (registered 1) []) newCall noLoad = .ok _)

theorem oneQueued_orderly : Orderly ⟨haloOnly (registered 1) [], []⟩ (.arrive newCall) := by
  intro q hq
  cases hq.1

/-- A queued call is counted once. -/
theorem inFlight_accounting_one_queued : ∃ halo job, oneQueued.sched.haloController = some halo ∧
    halo.registry.jobs.lookup "chain" = some job ∧ (oneQueued.aliveIds "chain").card = 1 ∧
    job.inFlightCount = (oneQueued.aliveIds "chain").card := by
  have hreach : OrderlyReachable oneQueued := by
    refine ⟨fresh, fresh_initial, .tail (.single ⟨_, registered_step, trivial⟩) ?_⟩
    exact ⟨_, oneQueued_step, oneQueued_orderly⟩
  refine ⟨_, _, rfl, rfl, rfl, ?_⟩
  exact (inFlight_accounting hreach rfl rfl).2.1

/-- The only call of a program with a cap of one is aborted while it waits. The program is idle then, but
its call is still counted, and the cap rejects the next call. -/
theorem idle_job_blocked : ∃ s : Server, Reachable s ∧ s.alive = [] ∧ ∃ halo job,
    s.sched.haloController = some halo ∧ halo.registry.jobs.lookup "chain" = some job ∧
    job.inFlightCount = 1 ∧ job.remainingRequestNumber = 1 ∧ s.aliveIds "chain" = ∅ ∧
    halo.registerRequest 3 "next" (some "chain") ⟨none, [], fun _ => none⟩ =
      .error (.reject reasonHaloConcurrencyCap) := by
  refine ⟨_, ⟨fresh, fresh_initial, .tail (.tail (.single ⟨_, registered_step⟩)
    ⟨_, oneQueued_step⟩) ⟨_, .abortWaiting "call"⟩⟩, ?_, _, _, rfl, rfl, rfl, rfl, ?_, rfl⟩
  · rfl
  · rfl

end Server

end SGLang.Halo
