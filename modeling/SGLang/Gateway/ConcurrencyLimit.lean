/-
# SGLang.Gateway.ConcurrencyLimit — the gateway's concurrency limit, a token bucket that refills.

`concurrency_limit_middleware` lets a request through when it takes a token from a bucket of
`max_concurrent_requests` tokens. A request that finds no token waits in a queue; a single task takes queued
requests out and takes tokens for them, or leaves a waiter behind that tries again until it times out. The
token goes back when the response body is dropped.

Tokens also come back with time: every attempt to take one first adds the refill of the time since the last
attempt. A bucket that is never refilled is a semaphore, and the requests that hold a token are then at most its
capacity. `maybe_rate_limiter` never builds such a bucket: it replaces a missing or zero rate by the limit
itself.

A queued request is to be given up after the queue timeout. `acquire` bounds its own wait by the time the
missing tokens take to refill, from one look at the bucket, and when that has passed it is answered with a
timeout as well. A request is not given up early if that time is not shorter than what is left of the queue
timeout.
-/
import Mathlib.Tactic.Linarith
import Mathlib.Tactic.FieldSimp
import SGLang.Lib.TaskPool

namespace SGLang.Gateway

open SGLang.Lib Pool List

/-! ## `TokenBucket` -/

/-- The bucket, over exact rational time and tokens. -/
structure TokenBucket where
  capacity : ℚ
  refillRate : ℚ
  tokens : ℚ
  lastRefill : ℚ

namespace TokenBucket

/-- `TokenBucket::new`, at time `now`. -/
def new (capacity refillRate : ℕ) (now : ℚ) : TokenBucket where
  capacity := capacity
  refillRate := refillRate
  tokens := capacity
  lastRefill := now

variable (b : TokenBucket)

/-- The first half of `try_acquire_sync`: what the time since the last call added. -/
def refill (now : ℚ) : TokenBucket :=
  let elapsed := now - b.lastRefill
  let refillAmount := elapsed * b.refillRate
  { b with tokens := min (b.tokens + refillAmount) b.capacity, lastRefill := now }

/-- `try_acquire_sync`: the bucket afterwards, and whether the tokens were taken. -/
def tryAcquire (now tokens : ℚ) : TokenBucket × Bool :=
  let b := b.refill now
  if tokens ≤ b.tokens then ({ b with tokens := b.tokens - tokens }, true) else (b, false)

/-- `return_tokens_sync`. -/
def returnTokens (tokens : ℚ) : TokenBucket :=
  { b with tokens := min (b.tokens + tokens) b.capacity }

end TokenBucket

open TokenBucket

/-- `maybe_rate_limiter`: `max_concurrent_requests` is `n`, `rate_limit_tokens_per_second` is `rate`. -/
def maybeRateLimiter (n : ℤ) (rate : Option ℤ) (now : ℚ) : Option TokenBucket :=
  if n ≤ 0 then none
  else
    let rateLimitTokens := (rate.filter fun t => decide (0 < t)).getD n
    some (new n.toNat rateLimitTokens.toNat now)

/-! ## Requests -/

/-- What all requests share. A queue of size zero is disabled; an entry of the queue is the ticket of the
request that sent it. -/
structure Limiter where
  bucket : TokenBucket
  queueSize : ℕ
  queueTimeout : ℚ
  queue : List ℕ
  nextTicket : ℕ
  now : ℚ

inductive StatusCode
  | tooManyRequests
  | requestTimeout
  deriving DecidableEq, Repr

/-- Where a request stands. `dropped` says that its client went away while it was queued or waited for, which
the task that serves the queue does not see; deadlines are points in time. -/
inductive RequestPhase
  | arrived
  -- in the channel of the queue processor
  | queued (ticket : ℕ) (queuedAt : ℚ) (dropped : Bool)
  -- in the spawned task: before `acquire`, between its first attempt and its sleep, in its loop
  | waiting (deadline : ℚ) (dropped : Bool)
  | planning (deadline : ℚ) (dropped : Bool)
  | polling (deadline : ℚ) (innerDeadline : Option ℚ) (dropped : Bool)
  -- with a token: the permit was sent, `next.run` is running, the body is being sent
  | granted
  | handling
  | responding
  -- the ends
  | done
  | gone
  | rejected (status : StatusCode)
  deriving DecidableEq

/-- What the request that runs next does: its own next step, losing its client, or running into a deadline. -/
inductive RequestEvent
  | proceed
  | cancel
  | timeOut
  deriving DecidableEq, Repr

/-- A step of a request and the time at which it is made. -/
structure Move where
  now : ℚ
  event : RequestEvent
  deriving DecidableEq

/-- The one condition requests sleep on: tokens were returned. -/
abbrev Returned := Unit

abbrev RequestOut := Outcome Limiter RequestPhase Returned

namespace RequestPhase

/-- A permit for a request whose client went away is lost with its token. -/
def permit (dropped : Bool) : RequestPhase := if dropped then .gone else .granted

variable (s : Limiter)

/-- Ask the bucket for one token. -/
def ask (accepted : RequestPhase) (refused : Limiter → RequestOut) : RequestOut :=
  let (bucket, ok) := s.bucket.tryAcquire s.now 1
  let s := { s with bucket := bucket }
  if ok then { shared := s, phase := accepted } else refused s

/-- The second half of `concurrency_limit_middleware`: a request that found no token is queued, if the queue
exists and is not full. -/
def enqueue : RequestOut :=
  if s.queue.length < s.queueSize then
    { shared := { s with queue := s.queue ++ [s.nextTicket], nextTicket := s.nextTicket + 1 }
      phase := .queued s.nextTicket s.now false }
  else { shared := s, phase := .rejected .tooManyRequests }

/-- The body of the loop of `QueueProcessor::run`, for the entry it received. -/
def receive (queuedAt : ℚ) (dropped : Bool) : RequestOut :=
  let elapsed := s.now - queuedAt
  if s.queueTimeout ≤ elapsed then { shared := s, phase := .rejected .requestTimeout }
  else
    let remainingTimeout := s.queueTimeout - elapsed
    ask s (permit dropped) fun s =>
      { shared := s, phase := .waiting (s.now + remainingTimeout) dropped }

/-- One step of a request at the time `s.now`. -/
def act : RequestPhase → RequestEvent → Option RequestOut
  | .arrived, .proceed => some (ask s .handling enqueue)
  | .arrived, .cancel => some { shared := s, phase := .gone }
  | .queued ticket queuedAt dropped, .proceed =>
    match s.queue with
    | head :: rest =>
      if head = ticket then some (receive { s with queue := rest } queuedAt dropped) else none
    | [] => none
  | .queued ticket queuedAt _, .cancel => some { shared := s, phase := .queued ticket queuedAt true }
  | .waiting deadline dropped, .proceed =>
    some (ask s (permit dropped) fun s =>
      if s.bucket.refillRate = 0 then
        { shared := s, phase := .polling deadline none dropped, sleepOn := some () }
      else { shared := s, phase := .planning deadline dropped })
  | .planning deadline dropped, .proceed =>
    let tokensNeeded := 1 - s.bucket.tokens
    let waitSecs := max (tokensNeeded / s.bucket.refillRate) 0
    some { shared := s, phase := .polling deadline (some (s.now + waitSecs)) dropped }
  | .polling deadline innerDeadline dropped, .proceed =>
    some (ask s (permit dropped) fun s =>
      { shared := s, phase := .polling deadline innerDeadline dropped
        -- without refill the loop waits for returned tokens only
        sleepOn := if s.bucket.refillRate = 0 then some () else none })
  | .waiting deadline _, .cancel => some { shared := s, phase := .waiting deadline true }
  | .planning deadline _, .cancel => some { shared := s, phase := .planning deadline true }
  | .polling deadline innerDeadline _, .cancel =>
    some { shared := s, phase := .polling deadline innerDeadline true }
  | .waiting deadline _, .timeOut =>
    if deadline ≤ s.now then some { shared := s, phase := .rejected .requestTimeout } else none
  | .planning deadline _, .timeOut =>
    if deadline ≤ s.now then some { shared := s, phase := .rejected .requestTimeout } else none
  | .polling deadline innerDeadline _, .timeOut =>
    if deadline ≤ s.now ∨ ∃ d ∈ innerDeadline, d ≤ s.now then
      some { shared := s, phase := .rejected .requestTimeout }
    else none
  | .granted, .proceed => some { shared := s, phase := .handling }
  | .handling, .proceed => some { shared := s, phase := .responding }
  -- no guard holds the token before the response exists: it is lost
  | .granted, .cancel | .handling, .cancel => some { shared := s, phase := .gone }
  -- `TokenGuardBody::drop`
  | .responding, .proceed | .responding, .cancel =>
    some {
      shared := { s with bucket := s.bucket.returnTokens 1 }
      phase := .done
      notify := some () }
  | _, _ => none

/-- One step of a request at the time of the move; time does not go back. -/
def step (φ : RequestPhase) (m : Move) : Option RequestOut :=
  if m.now < s.now then none else φ.act { s with now := m.now } m.event

/-- The request obtained a token and its response body was not dropped. -/
def holdsToken : RequestPhase → Bool
  | .granted | .handling | .responding => true
  | _ => false

/-- The step asks the bucket for a token. -/
def asks (m : Move) : RequestPhase → Bool
  | .arrived | .waiting _ _ | .polling _ _ _ => decide (m.event = .proceed)
  | .queued _ queuedAt _ =>
    decide (m.event = .proceed) && decide (m.now - queuedAt < s.queueTimeout)
  | _ => false

/-- If the step is the look at the bucket by which `acquire` bounds its wait: the missing tokens take at least
the rest of the timeout to refill. -/
def LongWait (b : TokenBucket) (m : Move) : RequestPhase → Prop
  | .planning deadline _ => m.event = .proceed → deadline - m.now ≤ max ((1 - b.tokens) / b.refillRate) 0
  | _ => True

instance (b : TokenBucket) (m : Move) (φ : RequestPhase) : Decidable (φ.LongWait b m) := by
  cases φ <;> unfold LongWait <;> infer_instance

/-- A request starts by arriving. -/
def starts : RequestPhase → Bool
  | .arrived => true
  | _ => false

end RequestPhase

open RequestPhase

/-- The limiter with all requests that ever arrived. -/
abbrev Traffic := Pool Limiter RequestPhase Returned

namespace Traffic

/-- The requests that hold a token. -/
def inFlight (s : Traffic) : ℕ := s.crew.countP fun φ => φ.holdsToken = true

/-- No request has arrived yet. -/
def init (bucket : TokenBucket) (queueSize : ℕ) (queueTimeout : ℚ) : Traffic :=
  ⟨⟨bucket, queueSize, queueTimeout, [], 0, bucket.lastRefill⟩, []⟩

/-- A condition on what runs when. -/
abbrev Guard := Traffic → ℕ → Move → Bool

/-- Requests arrive, move and end at any time, under a guard on the moves. -/
abbrev Step (guard : Guard) : Traffic → Traffic → Prop :=
  Pool.Step starts step guard

def Reachable (guard : Guard) (bucket : TokenBucket) (queueSize : ℕ) (queueTimeout : ℚ) : Traffic → Prop :=
  Relation.ReflTransGen (Step guard) (init bucket queueSize queueTimeout)

/-- Any move at any time. -/
abbrev anyMove : Guard := fun _ _ _ => true

/-- The bucket may be asked: no request holds a token, or the refill that is due, added to the tokens in the
bucket and to those held, stays within the capacity. -/
def RefillFits (s : Traffic) (now : ℚ) : Prop :=
  s.inFlight = 0 ∨
    s.shared.bucket.tokens + (now - s.shared.bucket.lastRefill) * s.shared.bucket.refillRate +
      s.inFlight ≤ s.shared.bucket.capacity

instance (s : Traffic) (now : ℚ) : Decidable (s.RefillFits now) := by
  unfold RefillFits
  infer_instance

/-- The guard: the bucket is asked for a token only under a condition. -/
def askGuard (P : Traffic → ℚ → Prop) [∀ s now, Decidable (P s now)] : Guard := fun s i m =>
  match s.tasks[i]? with
  | some t => !t.phase.asks s.shared m || decide (P s m.now)
  | none => true

/-- The bucket is asked for a token only when its refill fits. -/
abbrev refillGuard : Guard := askGuard RefillFits

/-- No refill is due while a request is in flight. -/
def NothingDue (s : Traffic) (now : ℚ) : Prop :=
  s.inFlight = 0 ∨ now = s.shared.bucket.lastRefill ∨ s.shared.bucket.refillRate = 0

instance (s : Traffic) (now : ℚ) : Decidable (s.NothingDue now) := by
  unfold NothingDue
  infer_instance

/-- Request `i` looks at the bucket, to bound its wait, only when the wait is long enough. -/
def longWaitGuard (i : ℕ) : Guard := fun s j m =>
  match s.tasks[j]? with
  | some t => decide (j = i → t.phase.LongWait s.shared.bucket m)
  | none => true

/-! ## What a step does to the bucket -/

end Traffic

open Traffic

/-- Everything a step can do to the bucket, and to whether the request that moves holds a token; `asked` is
known when the bucket is asked. -/
inductive TokenEffect (asked : Prop) (now : ℚ) (b : TokenBucket) : Bool → TokenBucket → Bool → Prop
  | idle (holds : Bool) : TokenEffect asked now b holds b holds
  | lose : TokenEffect asked now b true b false
  | giveBack : TokenEffect asked now b true (b.returnTokens 1) false
  | ask (ha : asked) (holds : Bool) (h : holds = true → (b.tryAcquire now 1).2 = true) :
      TokenEffect asked now b false (b.tryAcquire now 1).1 holds

namespace RequestPhase

/-- What is known of a request that was queued at `q`: it is in the queue still, it waits until the queue
timeout has passed, or the wait is over. -/
def QueuedSince (q timeout : ℚ) : RequestPhase → Prop
  | .arrived => False
  | .queued _ queuedAt _ => queuedAt = q
  | .waiting deadline _ | .planning deadline _ => deadline = q + timeout
  | .polling deadline innerDeadline _ => deadline = q + timeout ∧ ∀ d ∈ innerDeadline, q + timeout ≤ d
  | _ => True

/-- What a step at the time `now` does to the wait of a request that was queued at `q`, if its look at the
bucket finds a `long` wait. -/
structure Waits (long : Prop) (q timeout now : ℚ) (φ : RequestPhase) (o : RequestOut) : Prop where
  timeout_eq : o.shared.queueTimeout = timeout
  since : long → φ.QueuedSince q timeout → o.phase.QueuedSince q timeout
  timedOut : φ.QueuedSince q timeout → o.phase = .rejected .requestTimeout → timeout ≤ now - q

variable {asked long : Prop} {s : Limiter} {q timeout now : ℚ} {φ : RequestPhase} {o : RequestOut}
  {dropped : Bool}

/-- A step whose outcome is not a timeout. -/
theorem Waits.of_ne (ht : o.shared.queueTimeout = timeout)
    (hs : φ.QueuedSince q timeout → o.phase.QueuedSince q timeout) (hne : o.phase ≠ .rejected .requestTimeout) :
    Waits long q timeout now φ o :=
  ⟨ht, fun _ => hs, fun _ h => absurd h hne⟩

/-- A timeout at the deadline. -/
theorem Waits.of_deadline (ht : o.shared.queueTimeout = timeout)
    (hφ : φ.QueuedSince q timeout → q + timeout ≤ now)
    (ho : o.phase = .rejected .requestTimeout) : Waits long q timeout now φ o := by
  refine ⟨ht, fun _ _ => by rw [ho]; trivial, fun h _ => ?_⟩
  rw [le_sub_iff_add_le']
  exact hφ h

theorem Waits.permit (ht : s.queueTimeout = timeout) :
    Waits long q timeout now φ { shared := s, phase := permit dropped } := by
  cases dropped <;> exact .of_ne ht (fun _ => trivial) (by simp [permit])

theorem ask_effect (ha : asked) {accepted : RequestPhase} {refused : Limiter → RequestOut}
    (hacc : ∀ b, Waits long q s.queueTimeout s.now φ { shared := { s with bucket := b }, phase := accepted })
    (hr : ∀ b, (refused { s with bucket := b }).shared.bucket = b ∧
      (refused { s with bucket := b }).shared.now = s.now ∧
      (refused { s with bucket := b }).phase.holdsToken = false ∧
      Waits long q s.queueTimeout s.now φ (refused { s with bucket := b })) :
    TokenEffect asked s.now s.bucket false (ask s accepted refused).shared.bucket
        (ask s accepted refused).phase.holdsToken ∧
      (ask s accepted refused).shared.now = s.now ∧
        Waits long q s.queueTimeout s.now φ (ask s accepted refused) := by
  unfold ask
  rcases hb : s.bucket.tryAcquire s.now 1 with ⟨bucket, ok⟩
  have hfst : bucket = (s.bucket.tryAcquire s.now 1).1 := by rw [hb]
  have hsnd : ok = (s.bucket.tryAcquire s.now 1).2 := by rw [hb]
  cases ok with
  | true =>
    refine ⟨?_, rfl, hacc bucket⟩
    rw [hfst]
    exact .ask ha _ fun _ => hsnd.symm
  | false =>
    obtain ⟨h1, h2, h3, hw⟩ := hr bucket
    refine ⟨?_, h2, hw⟩
    show TokenEffect asked s.now s.bucket false (refused _).shared.bucket (refused _).phase.holdsToken
    rw [h1, h3, hfst]
    exact .ask ha _ fun h => by cases h

theorem receive_effect {ticket : ℕ} {queuedAt : ℚ} (ha : s.now - queuedAt < s.queueTimeout → asked) :
    TokenEffect asked s.now s.bucket false (receive s queuedAt dropped).shared.bucket
        (receive s queuedAt dropped).phase.holdsToken ∧
      (receive s queuedAt dropped).shared.now = s.now ∧
      Waits long q s.queueTimeout s.now (.queued ticket queuedAt dropped) (receive s queuedAt dropped) := by
  simp only [receive]
  split
  · next hlate =>
    refine ⟨.idle false, rfl, .of_deadline rfl ?_ rfl⟩
    rintro rfl
    exact add_le_of_le_sub_left hlate
  · next hlate =>
    apply ask_effect (ha (not_le.mp hlate)) (fun b => .permit rfl)
    intro b
    refine ⟨rfl, rfl, rfl, .of_ne rfl ?_ (by simp)⟩
    rintro rfl
    show s.now + (s.queueTimeout - (s.now - queuedAt)) = queuedAt + s.queueTimeout
    linarith

/-- Every step has one of the effects. -/
theorem act_effect {e : RequestEvent} (h : φ.act s e = some o) (ha : φ.asks s ⟨s.now, e⟩ = true → asked)
    (hl : long → φ.LongWait s.bucket ⟨s.now, e⟩) :
    TokenEffect asked s.now s.bucket φ.holdsToken o.shared.bucket o.phase.holdsToken ∧
      o.shared.now = s.now ∧ Waits long q s.queueTimeout s.now φ o := by
  cases φ with
  | arrived =>
    cases e with
    | proceed =>
      cases h
      apply ask_effect (ha rfl) (fun b => .of_ne rfl False.elim (by simp))
      intro b
      unfold enqueue
      split
      · exact ⟨rfl, rfl, rfl, .of_ne rfl False.elim (by simp)⟩
      · exact ⟨rfl, rfl, rfl, .of_ne rfl False.elim (by simp)⟩
    | cancel =>
      cases h
      exact ⟨.idle _, rfl, .of_ne rfl False.elim (by simp)⟩
    | timeOut => cases h
  | queued ticket queuedAt dropped =>
    cases e with
    | proceed =>
      simp only [act] at h
      split at h
      · next head rest _ =>
        split at h
        · cases h
          exact receive_effect (s := { s with queue := rest }) fun hlt => ha (decide_eq_true hlt)
        · cases h
      · cases h
    | cancel =>
      cases h
      exact ⟨.idle _, rfl, .of_ne rfl id (by simp)⟩
    | timeOut => cases h
  | waiting deadline dropped =>
    cases e with
    | proceed =>
      cases h
      apply ask_effect (ha rfl) (fun b => .permit rfl)
      intro b
      split
      · exact ⟨rfl, rfl, rfl, .of_ne rfl (fun h => ⟨h, nofun⟩) (by simp)⟩
      · exact ⟨rfl, rfl, rfl, .of_ne rfl id (by simp)⟩
    | cancel =>
      cases h
      exact ⟨.idle _, rfl, .of_ne rfl id (by simp)⟩
    | timeOut =>
      obtain ⟨hd, h⟩ := Option.ite_none_right_eq_some.mp h
      cases h
      exact ⟨.idle _, rfl, .of_deadline rfl (fun h => h ▸ hd) rfl⟩
  | planning deadline dropped =>
    cases e with
    | proceed =>
      cases h
      refine ⟨.idle _, rfl, rfl, fun hlong => ?_, fun _ h => by cases h⟩
      rintro rfl
      refine ⟨rfl, fun d hd => ?_⟩
      cases hd
      exact sub_le_iff_le_add'.mp (hl hlong rfl)
    | cancel =>
      cases h
      exact ⟨.idle _, rfl, .of_ne rfl id (by simp)⟩
    | timeOut =>
      obtain ⟨hd, h⟩ := Option.ite_none_right_eq_some.mp h
      cases h
      exact ⟨.idle _, rfl, .of_deadline rfl (fun h => h ▸ hd) rfl⟩
  | polling deadline innerDeadline dropped =>
    cases e with
    | proceed =>
      cases h
      apply ask_effect (ha rfl) (fun b => .permit rfl)
      intro b
      exact ⟨rfl, rfl, rfl, .of_ne rfl id (by simp)⟩
    | cancel =>
      cases h
      exact ⟨.idle _, rfl, .of_ne rfl id (by simp)⟩
    | timeOut =>
      obtain ⟨hd, h⟩ := Option.ite_none_right_eq_some.mp h
      cases h
      refine ⟨.idle _, rfl, .of_deadline rfl ?_ rfl⟩
      rintro ⟨rfl, hinner⟩
      rcases hd with hd | ⟨d, hd, hle⟩
      · exact hd
      · exact (hinner d hd).trans hle
  | granted | handling =>
    cases e with
    | proceed =>
      cases h
      exact ⟨.idle _, rfl, .of_ne rfl (fun _ => trivial) (by simp)⟩
    | cancel =>
      cases h
      exact ⟨.lose, rfl, .of_ne rfl (fun _ => trivial) (by simp)⟩
    | timeOut => cases h
  | responding =>
    cases e with
    | proceed | cancel =>
      cases h
      exact ⟨.giveBack, rfl, .of_ne rfl (fun _ => trivial) (by simp)⟩
    | timeOut => cases h
  | done | gone | rejected => cases h

theorem step_effect {m : Move} (h : φ.step s m = some o) (ha : φ.asks s m = true → asked)
    (hl : long → φ.LongWait s.bucket m) :
    TokenEffect asked m.now s.bucket φ.holdsToken o.shared.bucket o.phase.holdsToken ∧
      s.now ≤ m.now ∧ o.shared.now = m.now ∧ Waits long q s.queueTimeout m.now φ o := by
  unfold step at h
  split at h
  · cases h
  · next hlt =>
    have hask : φ.asks { s with now := m.now } m = φ.asks s m := by
      cases φ <;> rfl
    obtain ⟨he, hnow, hw⟩ := act_effect (s := { s with now := m.now }) h (fun h => ha (hask ▸ h)) hl
    exact ⟨he, not_lt.mp hlt, hnow, hw⟩

end RequestPhase

/-! ## The invariant: tokens in the bucket and tokens held -/

/-- A bucket of which `held` tokens are out: together with those in it they are at most its capacity. -/
structure TokenBucket.Covers (b : TokenBucket) (now : ℚ) (held : ℕ) : Prop where
  rate_nonneg : 0 ≤ b.refillRate
  last_le : b.lastRefill ≤ now
  tokens_nonneg : 0 ≤ b.tokens
  sum_le : b.tokens + held ≤ b.capacity

namespace TokenBucket

variable {b : TokenBucket} {now now' : ℚ} {held held' : ℕ}

theorem Covers.held_le (c : b.Covers now held) : (held : ℚ) ≤ b.capacity := by
  have h1 := c.tokens_nonneg
  have h2 := c.sum_le
  linarith

section

variable (c : b.Covers now held) (hnow : now ≤ now')
  (hfit : held = 0 ∨ b.tokens + (now' - b.lastRefill) * b.refillRate + held ≤ b.capacity)
include c hnow hfit

theorem Covers.refill : (b.refill now').Covers now' held := by
  have helapsed : 0 ≤ (now' - b.lastRefill) * b.refillRate := by
    apply mul_nonneg _ c.rate_nonneg
    have := c.last_le
    linarith
  have hcap : (0 : ℚ) ≤ b.capacity := le_trans (Nat.cast_nonneg held) c.held_le
  refine ⟨c.rate_nonneg, le_refl _, ?_, ?_⟩
  · apply le_min
    · exact add_nonneg c.tokens_nonneg helapsed
    · exact hcap
  · show min (b.tokens + (now' - b.lastRefill) * b.refillRate) b.capacity + held ≤ b.capacity
    rcases hfit with rfl | hfit
    · have := min_le_right (b.tokens + (now' - b.lastRefill) * b.refillRate) b.capacity
      rw [Nat.cast_zero, add_zero]
      exact this
    · have := min_le_left (b.tokens + (now' - b.lastRefill) * b.refillRate) b.capacity
      linarith

/-- Asking for a token, when the refill fits: one more token is out if it was taken. -/
theorem Covers.tryAcquire (hle : held' = held ∨ held' = held + 1 ∧ (b.tryAcquire now' 1).2 = true) :
    (b.tryAcquire now' 1).1.Covers now' held' := by
  have c' := c.refill hnow hfit
  unfold TokenBucket.tryAcquire at hle ⊢
  by_cases hok : 1 ≤ (b.refill now').tokens
  · simp only [if_pos hok] at hle ⊢
    have hcount : (held' : ℚ) ≤ held + 1 := by
      rcases hle with rfl | ⟨rfl, _⟩
      · linarith
      · push_cast
        linarith
    refine ⟨c'.rate_nonneg, c'.last_le, ?_, ?_⟩
    · linarith
    · show (b.refill now').tokens - 1 + held' ≤ b.capacity
      have h : (b.refill now').tokens + held ≤ b.capacity := c'.sum_le
      linarith
  · simp only [if_neg hok] at hle ⊢
    rcases hle with rfl | ⟨_, h⟩
    · exact c'
    · cases h

end

theorem Covers.returnTokens (c : b.Covers now (held + 1)) : (b.returnTokens 1).Covers now held := by
  have h := c.sum_le
  push_cast at h
  refine ⟨c.rate_nonneg, c.last_le, ?_, ?_⟩
  · apply le_min
    · have := c.tokens_nonneg
      linarith
    · have := c.tokens_nonneg
      linarith
  · show min (b.tokens + 1) b.capacity + held ≤ b.capacity
    have := min_le_left (b.tokens + 1) b.capacity
    linarith

theorem Covers.mono (c : b.Covers now held) (hnow : now ≤ now') (h : held' ≤ held) : b.Covers now' held' := by
  refine ⟨c.rate_nonneg, le_trans c.last_le hnow, c.tokens_nonneg, ?_⟩
  have hcast : (held' : ℚ) ≤ held := Nat.cast_le.mpr h
  have := c.sum_le
  linarith

theorem refill_capacity (b : TokenBucket) (now : ℚ) :
    (b.tryAcquire now 1).1.capacity = b.capacity ∧ (b.tryAcquire now 1).1.refillRate = b.refillRate := by
  simp only [tryAcquire]
  split
  · exact ⟨rfl, rfl⟩
  · exact ⟨rfl, rfl⟩

/-- What is out besides the token of the request that moves stays out. -/
theorem Covers.effect {asked : Prop} {b' : TokenBucket} {holds holds' : Bool} {rest : ℕ}
    (c : b.Covers now (rest + holds.toNat)) (hnow : now ≤ now') (e : TokenEffect asked now' b holds b' holds')
    (hfit : asked → rest + holds.toNat = 0 ∨
      b.tokens + (now' - b.lastRefill) * b.refillRate + (rest + holds.toNat : ℕ) ≤ b.capacity) :
    b'.Covers now' (rest + holds'.toNat) ∧ b'.capacity = b.capacity ∧ b'.refillRate = b.refillRate := by
  cases e with
  | idle => exact ⟨c.mono hnow (le_refl _), rfl, rfl⟩
  | lose => exact ⟨c.mono hnow (Nat.le_succ _), rfl, rfl⟩
  | giveBack => exact ⟨(c.mono hnow (le_refl _)).returnTokens, rfl, rfl⟩
  | ask ha holds h =>
    refine ⟨c.tryAcquire hnow (hfit ha) ?_, refill_capacity b now'⟩
    cases holds' with
    | false => exact .inl rfl
    | true => exact .inr ⟨rfl, h rfl⟩

end TokenBucket

namespace Traffic

variable {s : Traffic} {bucket : TokenBucket} {queueSize capacity rate : ℕ} {queueTimeout : ℚ}
  {t : Task RequestPhase Returned}

/-- The bucket covers the requests in flight. -/
structure Inv (bucket : TokenBucket) (s : Traffic) : Prop where
  covers : s.shared.bucket.Covers s.shared.now s.inFlight
  capacity_eq : s.shared.bucket.capacity = bucket.capacity
  rate_eq : s.shared.bucket.refillRate = bucket.refillRate

theorem inFlight_of_crew {φ : RequestPhase} {rest : Multiset RequestPhase} (h : s.crew = φ ::ₘ rest) :
    s.inFlight = rest.countP (fun φ => φ.holdsToken = true) + φ.holdsToken.toNat := by
  unfold inFlight
  rw [h, Multiset.countP_cons]
  cases φ.holdsToken <;> rfl

/-- One move keeps the invariant if the bucket is asked only when its refill fits. -/
theorem Inv.resume {i : ℕ} {m : Move} {o : RequestOut} (inv : s.Inv bucket) (hi : s.tasks[i]? = some t)
    (ho : t.phase.step s.shared m = some o) (hfit : t.phase.asks s.shared m = true → s.RefillFits m.now) :
    Inv bucket (s.resume i o) := by
  obtain ⟨rest, hcrew, hcrew'⟩ := crew_resume hi o
  have hcount := inFlight_of_crew hcrew
  obtain ⟨he, hle, hnow, -⟩ := step_effect (q := 0) ho hfit False.elim
  have hcovers := inv.covers
  rw [hcount] at hcovers
  obtain ⟨hc, hcap, hrate⟩ := hcovers.effect hle he (by
    intro h
    unfold RefillFits at h
    rw [hcount] at h
    exact h)
  refine ⟨?_, hcap.trans inv.capacity_eq, hrate.trans inv.rate_eq⟩
  rw [inFlight_of_crew hcrew']
  show o.shared.bucket.Covers o.shared.now _
  rw [hnow]
  exact hc

theorem Inv.spawn (inv : s.Inv bucket) {φ : RequestPhase} (h : φ.starts = true) : Inv bucket (s.spawn φ) := by
  have hφ : φ.holdsToken = false := by
    cases φ with
    | arrived => rfl
    | _ => cases h
  have hcount : inFlight (s.spawn φ) = s.inFlight := by
    rw [inFlight_of_crew (crew_spawn s φ), hφ]
    exact Nat.add_zero _
  refine ⟨?_, inv.capacity_eq, inv.rate_eq⟩
  rw [hcount]
  exact inv.covers

theorem init_inv (hb : bucket.Covers bucket.lastRefill 0) : (init bucket queueSize queueTimeout).Inv bucket :=
  ⟨hb, rfl, rfl⟩

/-- The invariant over runs, for every guard under which the bucket is asked only when its refill fits. -/
theorem Reachable.inv {guard : Guard} (hb : bucket.Covers bucket.lastRefill 0)
    (hguard : ∀ {s : Traffic} {i m t}, s.Inv bucket → s.tasks[i]? = some t → guard s i m = true →
      t.phase.asks s.shared m = true → s.RefillFits m.now)
    (h : Reachable guard bucket queueSize queueTimeout s) : s.Inv bucket := by
  induction h with
  | refl => exact init_inv hb
  | tail _ hstep ih =>
    cases hstep with
    | spawn φ hφ => exact ih.spawn hφ
    | run i m t o hi _ ho hg => exact ih.resume hi ho (hguard ih hi hg)

theorem askGuard_spec {P : Traffic → ℚ → Prop} [∀ s now, Decidable (P s now)] {i : ℕ} {m : Move}
    (hi : s.tasks[i]? = some t) (hg : askGuard P s i m = true) (ha : t.phase.asks s.shared m = true) :
      P s m.now := by
  simp only [askGuard, hi, ha, Bool.not_true, Bool.false_or, decide_eq_true_eq] at hg
  exact hg

/-- What is not due does not add to the tokens. -/
theorem Inv.refillFits {now : ℚ} (inv : s.Inv bucket) (h : s.NothingDue now) : s.RefillFits now := by
  refine h.imp_right fun h => ?_
  have hdue : (now - s.shared.bucket.lastRefill) * s.shared.bucket.refillRate = 0 :=
    mul_eq_zero.mpr (h.imp_left sub_eq_zero.mpr)
  rw [hdue, add_zero]
  exact inv.covers.sum_le

theorem new_covers (capacity rate : ℕ) (now : ℚ) : (new capacity rate now).Covers now 0 := by
  refine ⟨Nat.cast_nonneg rate, le_refl _, Nat.cast_nonneg capacity, ?_⟩
  show (capacity : ℚ) + (0 : ℕ) ≤ capacity
  rw [Nat.cast_zero, add_zero]

theorem Inv.inFlight_le {now : ℚ} (inv : s.Inv (new capacity rate now)) : s.inFlight ≤ capacity := by
  have hle := inv.covers.held_le
  rw [inv.capacity_eq] at hle
  exact Nat.cast_le.mp hle

/-! ## With refill: one request too many -/

/-- `k` requests are being handled and none waits. -/
def serving (queueSize : ℕ) (queueTimeout : ℚ) (b : TokenBucket) (now : ℚ) (k : ℕ) : Traffic where
  shared := ⟨b, queueSize, queueTimeout, [], 0, now⟩
  tasks := List.replicate k ⟨.handling, none⟩

theorem serving_inFlight (b : TokenBucket) (now : ℚ) (k : ℕ) :
    (serving queueSize queueTimeout b now k).inFlight = k := by
  unfold inFlight crew phases serving
  rw [map_replicate, Multiset.coe_countP, countP_replicate]
  exact if_pos rfl

/-- One more request arrives and finds a token. -/
theorem serving_next {b b' : TokenBucket} {now later : ℚ} (k : ℕ) (hle : now ≤ later)
    (h : b.tryAcquire later 1 = (b', true)) :
    Relation.ReflTransGen (Step anyMove) (serving queueSize queueTimeout b now k)
      (serving queueSize queueTimeout b' later (k + 1)) := by
  set s₀ := serving queueSize queueTimeout b now k with hs₀
  have hi : (s₀.spawn arrived).tasks[k]? = some ⟨.arrived, none⟩ := by
    show (replicate k _ ++ [_])[k]? = _
    rw [getElem?_append_right (by simp)]
    simp
  have hact : step s₀.shared .arrived ⟨later, .proceed⟩ = some
      { shared := ⟨b', queueSize, queueTimeout, [], 0, later⟩, phase := .handling } := by
    have htime : ¬ (Move.mk later .proceed).now < s₀.shared.now := not_lt.mpr hle
    have hask : s₀.shared.bucket.tryAcquire later 1 = (b', true) := h
    unfold step
    rw [if_neg htime]
    simp only [act, ask, hask, if_true]
    rfl
  have hlast : (s₀.spawn arrived).resume k
      { shared := ⟨b', queueSize, queueTimeout, [], 0, later⟩, phase := .handling } =
      serving queueSize queueTimeout b' later (k + 1) := by
    unfold resume serving
    congr 1
    show ((replicate k _ ++ [_]).set k _).map _ = _
    rw [set_append_right _ _ (by simp)]
    simp [wake, replicate_succ']
  have hspawn : Step anyMove s₀ (s₀.spawn .arrived) := .spawn _ rfl
  have hrun : Step anyMove (s₀.spawn .arrived) ((s₀.spawn .arrived).resume k
      { shared := ⟨b', queueSize, queueTimeout, [], 0, later⟩, phase := .handling }) :=
    .run k (Move.mk later .proceed) _ _ hi rfl hact rfl
  rw [hlast] at hrun
  exact Relation.ReflTransGen.refl.tail hspawn |>.tail hrun

/-- The bucket that a refill brought to `x` tokens gives one of them away. -/
theorem tryAcquire_refilled {c r t l now x : ℚ} (hx : min (t + (now - l) * r) c = x) (h : 1 ≤ x) :
    tryAcquire ⟨c, r, t, l⟩ now 1 = (⟨c, r, x - 1, now⟩, true) := by
  have hrefill : refill ⟨c, r, t, l⟩ now = ⟨c, r, x, now⟩ := by
    rw [← hx]
    rfl
  simp only [tryAcquire, hrefill, if_pos h]

/-- As many requests as the bucket has tokens can arrive at once. -/
theorem serving_reachable {now : ℚ} {k : ℕ} (hk : k ≤ capacity) :
    Reachable anyMove (new capacity rate now) queueSize queueTimeout
      (serving queueSize queueTimeout ⟨capacity, rate, capacity - k, now⟩ now k) := by
  induction k with
  | zero =>
    rw [Nat.cast_zero, sub_zero]
    exact .refl
  | succ k ih =>
    have hlt : (k : ℚ) + 1 ≤ capacity := by exact_mod_cast hk
    -- no time has passed, so nothing is refilled
    have hmin : min ((capacity - k : ℚ) + (now - now) * rate) capacity = capacity - k := by
      rw [sub_self, zero_mul, add_zero]
      exact min_eq_left (by linarith)
    have htake := tryAcquire_refilled hmin (by linarith)
    rw [sub_sub] at htake
    rw [Nat.cast_succ]
    exact (ih (Nat.le_of_succ_le hk)).trans (serving_next k (le_refl now) htake)

/-- A bucket that refills lets one request too many in: all tokens are out, and after the time that refills
one token the next request finds it. -/
theorem overrun (queueSize : ℕ) (queueTimeout : ℚ) (now : ℚ) (hc : 0 < capacity) (hr : 0 < rate) :
    ∃ s, Reachable anyMove (new capacity rate now) queueSize queueTimeout s ∧ capacity < s.inFlight := by
  have hrate : (rate : ℚ) ≠ 0 := Nat.cast_ne_zero.mpr (Nat.ne_of_gt hr)
  have hcap : (1 : ℚ) ≤ capacity := by exact_mod_cast hc
  have hlater : now ≤ now + 1 / rate := by
    have : (0 : ℚ) ≤ 1 / rate := one_div_nonneg.mpr (Nat.cast_nonneg rate)
    linarith
  have hmin : min ((capacity - capacity : ℚ) + (now + 1 / rate - now) * rate) capacity = 1 := by
    rw [sub_self, zero_add, add_sub_cancel_left, div_mul_cancel₀ 1 hrate]
    exact min_eq_left hcap
  have htake := tryAcquire_refilled hmin (le_refl 1)
  refine ⟨_, (serving_reachable (le_refl capacity)).trans (serving_next capacity hlater htake), ?_⟩
  rw [serving_inFlight]
  exact Nat.lt_succ_self capacity

/-! ## The limit -/

/-- A bucket bounds the requests in flight, in every run, exactly if it is never refilled. -/
theorem inFlight_le_iff (now : ℚ) (hc : 0 < capacity) :
    (∀ s, Reachable anyMove (new capacity rate now) queueSize queueTimeout s →
      s.inFlight ≤ capacity) ↔ rate = 0 := by
  constructor
  · intro h
    by_contra hrate
    obtain ⟨s, hs, hlt⟩ := overrun queueSize queueTimeout now hc (Nat.pos_of_ne_zero hrate)
    exact absurd (h s hs) (Nat.not_le_of_lt hlt)
  · rintro rfl s hs
    refine (hs.inv (new_covers capacity 0 now) fun inv _ _ _ => ?_).inFlight_le
    -- without refill the bucket is a semaphore, whatever moves
    exact inv.refillFits (.inr (.inr (inv.rate_eq.trans Nat.cast_zero)))

deriving instance DecidableEq for TokenBucket, Limiter, Pool

/-- The one token is taken, and a second request is queued. -/
def secondQueued (rate queueSize : ℕ) (queueTimeout : ℚ) : Traffic :=
  ⟨⟨⟨1, rate, 0, 0⟩, queueSize, queueTimeout, [0], 1, 0⟩, [⟨.handling, none⟩, ⟨.queued 0 0 false, none⟩]⟩

/-- Two requests arrive at once. -/
def twoArrive : List (Decision RequestPhase Move) :=
  [.spawn .arrived, .run 0 ⟨0, .proceed⟩, .spawn .arrived, .run 1 ⟨0, .proceed⟩]

theorem inFlight_le_iff_one : ∃ s, Reachable anyMove (new 1 0 0) 4 10 s ∧
    s.phases = [.handling, .queued 0 0 false] ∧ s.inFlight ≤ 1 := by
  have hrun : Reachable anyMove (new 1 0 0) 4 10 (secondQueued 0 4 10) :=
    exec_reachable (by decide +kernel : exec starts step anyMove _ twoArrive = some _)
  exact ⟨_, hrun, rfl, (inFlight_le_iff 0 (by decide)).mpr rfl _ hrun⟩

end Traffic

/-- `maybe_rate_limiter` always builds a bucket that refills. -/
theorem maybeRateLimiter_refills {n : ℤ} (hn : 0 < n) (rate : Option ℤ) (now : ℚ) :
    ∃ r : ℕ, 0 < r ∧ maybeRateLimiter n rate now = some (new n.toNat r now) := by
  refine ⟨((rate.filter fun t => decide (0 < t)).getD n).toNat, ?_, if_neg (not_le.mpr hn)⟩
  cases hr : rate.filter fun t => decide (0 < t) with
  | none =>
    show 0 < n.toNat
    omega
  | some t =>
    have ht := Option.filter_eq_some_iff.mp hr
    have := of_decide_eq_true ht.2
    show 0 < t.toNat
    omega

/-- **The limit on concurrent requests.** For every `max_concurrent_requests = n > 0`, every rate and every
queue: as long as the bucket is asked for a token only when the refill that is due fits beside the tokens that
are in it or held, and so as long as no refill is due while a request is in flight, at most `n` requests are in
flight; but there are always runs with more than `n`. -/
theorem concurrency_within_limit {n : ℤ} (hn : 0 < n) (rate : Option ℤ) (now : ℚ) (queueSize : ℕ)
    (queueTimeout : ℚ) : ∃ bucket, maybeRateLimiter n rate now = some bucket ∧
      (∀ s, Traffic.Reachable refillGuard bucket queueSize queueTimeout s → (s.inFlight : ℤ) ≤ n) ∧
      (∀ s, Traffic.Reachable (askGuard NothingDue) bucket queueSize queueTimeout s → (s.inFlight : ℤ) ≤ n) ∧
      ∃ s, Traffic.Reachable anyMove bucket queueSize queueTimeout s ∧ n < s.inFlight := by
  obtain ⟨r, hr, hb⟩ := maybeRateLimiter_refills hn rate now
  refine ⟨_, hb, ?_, ?_, ?_⟩
  · intro s hs
    have hle := (hs.inv (new_covers n.toNat r now) fun _ hi hg ha => askGuard_spec hi hg ha).inFlight_le
    omega
  · intro s hs
    have hle := (hs.inv (new_covers n.toNat r now) fun inv hi hg ha =>
      inv.refillFits (askGuard_spec hi hg ha)).inFlight_le
    omega
  · obtain ⟨s, hs, hlt⟩ := overrun queueSize queueTimeout now (show 0 < n.toNat by omega) hr
    exact ⟨s, hs, by omega⟩

/-- `max_concurrent_requests = 1` and no rate: a request is being handled, and one that arrives a second later
is let in beside it. -/
theorem second_request_let_in :
    maybeRateLimiter 1 none 0 = some (new 1 1 0) ∧
      Traffic.Reachable anyMove (new 1 1 0) 0 0 (serving 0 0 ⟨1, 1, 0, 1⟩ 1 2) ∧
      (serving 0 0 ⟨1, 1, 0, 1⟩ 1 2).inFlight = 2 := by
  refine ⟨rfl, ?_, serving_inFlight _ _ _⟩
  have hfirst : tryAcquire (new 1 1 0) 0 1 = (⟨1, 1, 0, 0⟩, true) := by
    norm_num [tryAcquire, refill, new]
  have hsecond : tryAcquire ⟨1, 1, 0, 0⟩ 1 1 = (⟨1, 1, 0, 1⟩, true) := by
    norm_num [tryAcquire, refill]
  exact (serving_next 0 (le_refl 0) hfirst).trans (serving_next 1 zero_le_one hsecond)

/-- A guarded run: one request is being handled, and a second one, at the same time, is queued. -/
theorem concurrency_within_limit_of_one : maybeRateLimiter 1 (some 0) 0 = some (new 1 1 0) ∧
    Traffic.Reachable refillGuard (new 1 1 0) 4 60 (secondQueued 1 4 60) ∧
    (secondQueued 1 4 60).inFlight = 1 ∧ ((secondQueued 1 4 60).inFlight : ℤ) ≤ 1 := by
  have hrun : Traffic.Reachable refillGuard (new 1 1 0) 4 60 (secondQueued 1 4 60) :=
    exec_reachable (by decide +kernel : exec starts step refillGuard _ twoArrive = some _)
  obtain ⟨bucket, hb, hle, -⟩ := concurrency_within_limit (n := 1) (by decide) (some 0) 0 4 60
  obtain rfl : new 1 1 0 = bucket := Option.some.inj hb
  exact ⟨rfl, hrun, rfl, hle _ hrun⟩

/-! ## When a queued request times out -/

namespace Traffic

variable {s s' : Traffic} {bucket : TokenBucket} {queueSize i : ℕ} {timeout q : ℚ}

theorem queueTimeout_of_run {guard : Guard} (hrun : Relation.ReflTransGen (Step guard) s s') :
    s'.shared.queueTimeout = s.shared.queueTimeout := by
  induction hrun with
  | refl => rfl
  | tail _ hstep ih =>
    cases hstep with
    | spawn => exact ih
    | run j m t o hj _ ho =>
      obtain ⟨-, -, -, hw⟩ := step_effect (q := 0) ho (fun _ => trivial) False.elim
      exact hw.timeout_eq.trans ih

/-- What is known of a queued request is kept by the steps of all, if its own look at the bucket finds a long
wait. -/
theorem queuedSince_of_run (hrun : Relation.ReflTransGen (Step (longWaitGuard i)) s s')
    (h : ∃ φ, s.phases[i]? = some φ ∧ φ.QueuedSince q s.shared.queueTimeout) :
    ∃ φ, s'.phases[i]? = some φ ∧ φ.QueuedSince q s.shared.queueTimeout := by
  induction hrun with
  | refl => exact h
  | tail hrun hstep ih =>
    obtain ⟨φ, hi, hφ⟩ := ih
    cases hstep with
    | spawn ψ =>
      refine ⟨φ, ?_, hφ⟩
      rw [← hi]
      exact (congrArg (·[i]?) map_append).trans (getElem?_append_left (List.getElem?_eq_some_iff.mp hi).1)
    | run j m t o hj _ ho hg =>
      simp only [longWaitGuard, hj, decide_eq_true_eq] at hg
      obtain ⟨-, -, -, hw⟩ := step_effect (q := q) ho (fun _ => trivial) hg
      rw [queueTimeout_of_run hrun] at hw
      rw [phases_resume, getElem?_set]
      split
      · next hji =>
        subst hji
        have hlt := (List.getElem?_eq_some_iff.mp hi).1
        rw [phases, getElem?_map, hj] at hi
        cases hi
        exact ⟨o.phase, if_pos hlt, hw.since rfl hφ⟩
      · exact ⟨φ, hi, hφ⟩

/-- No step that request `i`, queued at `q`, could make now answers it with a timeout before the queue
timeout. -/
def TimesOutLate (s : Traffic) (i : ℕ) (timeout q : ℚ) : Prop :=
  ∀ φ m o, s.phases[i]? = some φ → φ.step s.shared m = some o → o.phase = .rejected .requestTimeout →
    timeout ≤ m.now - q

theorem timesOutLate_of_queuedSince (hs : s.shared.queueTimeout = timeout)
    (h : ∃ φ, s.phases[i]? = some φ ∧ φ.QueuedSince q timeout) : s.TimesOutLate i timeout q := by
  intro φ m o hi ho hto
  obtain ⟨ψ, hi', hψ⟩ := h
  obtain rfl : φ = ψ := Option.some.inj (hi.symm.trans hi')
  obtain ⟨-, -, -, hw⟩ := step_effect (q := q) ho (fun _ => trivial) False.elim
  rw [hs] at hw
  exact hw.timedOut hψ hto

/-- The look at the bucket, and what it sets. -/
theorem step_planning {l : Limiter} {deadline now : ℚ} {dropped : Bool} {o : RequestOut}
    (h : RequestPhase.step l (.planning deadline dropped) ⟨now, .proceed⟩ = some o) :
    o.phase = .polling deadline (some (now + max ((1 - l.bucket.tokens) / l.bucket.refillRate) 0)) dropped ∧
      o.shared.now = now := by
  unfold step at h
  split at h
  · cases h
  · cases h
    exact ⟨rfl, rfl⟩

/-- The wait of `acquire` can run out as soon as it is over. -/
theorem step_polling_timeOut {l : Limiter} {d : ℚ} (deadline : ℚ) (dropped : Bool) (h : l.now ≤ d) : ∃ o,
    RequestPhase.step l (.polling deadline (some d) dropped) ⟨d, .timeOut⟩ = some o ∧
      o.phase = .rejected .requestTimeout := by
  refine ⟨{ shared := { l with now := d }, phase := .rejected .requestTimeout }, ?_, rfl⟩
  simp [step, act, not_lt.mpr h]

/-- **A queued request times out only after the queue timeout**, in every run and whatever the other requests
do, if its own look at the bucket, by which `acquire` bounds its wait, finds so many tokens missing that their
refill takes what is left of the timeout; without refill there is no such look. The condition is exact: after a
look that finds a shorter wait the request can time out early. -/
theorem timeout_after_queue_timeout {s₀ : Traffic} {ticket : ℕ} {dropped : Bool}
    (h₀ : Reachable anyMove bucket queueSize timeout s₀) (hq : s₀.phases[i]? = some (.queued ticket q dropped))
    (hrun : Relation.ReflTransGen (Step (longWaitGuard i)) s₀ s) :
    s.TimesOutLate i timeout q ∧ ∀ deadline dropped now o, s.phases[i]? = some (.planning deadline dropped) →
      RequestPhase.step s.shared (.planning deadline dropped) ⟨now, .proceed⟩ = some o →
      (LongWait s.shared.bucket ⟨now, .proceed⟩ (.planning deadline dropped) ↔
        ∀ s', Relation.ReflTransGen (Step (longWaitGuard i)) (s.resume i o) s' →
          s'.TimesOutLate i timeout q) := by
  have hs : s.shared.queueTimeout = timeout := (queueTimeout_of_run hrun).trans (queueTimeout_of_run h₀)
  have hsince := queuedSince_of_run (q := q) hrun ⟨_, hq, rfl⟩
  rw [queueTimeout_of_run h₀] at hsince
  refine ⟨timesOutLate_of_queuedSince hs hsince, fun deadline dropped now o hi ho => ?_⟩
  obtain ⟨ψ, hi', hψ⟩ := hsince
  obtain rfl := Option.some.inj (hi.symm.trans hi')
  have hlen := (List.getElem?_eq_some_iff.mp hi).1
  have hphase : (s.resume i o).phases[i]? = some o.phase := by
    rw [phases_resume, getElem?_set_self hlen]
  constructor
  · intro hlong s' hrun'
    obtain ⟨-, -, -, hw⟩ := step_effect (q := q) ho (fun _ => trivial) fun _ : True => hlong
    rw [hs] at hw
    have hshared : (s.resume i o).shared.queueTimeout = timeout := hw.timeout_eq
    refine timesOutLate_of_queuedSince ((queueTimeout_of_run hrun').trans hshared) ?_
    have := queuedSince_of_run (q := q) hrun' ⟨_, hphase, hshared.symm ▸ hw.since trivial hψ⟩
    rwa [hshared] at this
  · -- the wait that was set can run out before any other step
    rintro hlate -
    obtain ⟨ho, hnow⟩ := step_planning ho
    rw [ho] at hphase
    have hle : (s.resume i o).shared.now ≤
        now + max ((1 - s.shared.bucket.tokens) / s.shared.bucket.refillRate) 0 :=
      hnow.trans_le (le_add_of_nonneg_right (le_max_right _ _))
    obtain ⟨o', ho', hto⟩ := step_polling_timeOut deadline dropped hle
    have hd : deadline = q + timeout := hψ
    have := hlate _ .refl _ _ o' hphase ho' hto
    dsimp only at this
    show deadline - now ≤ _
    linarith

/-- The second request, in a run in which it waits for the missing token at most half a second. -/
def halfSecond : Traffic :=
  ⟨⟨⟨1, 1, 0, 0⟩, 1, 1 / 2, [], 1, 0⟩, [⟨.handling, none⟩, ⟨.polling (1 / 2) (some 1) false, none⟩]⟩

theorem timeout_after_queue_timeout_of_half : ∃ φ o, halfSecond.phases[1]? = some φ ∧
    φ.step halfSecond.shared ⟨1 / 2, .timeOut⟩ = some o ∧ o.phase = .rejected .requestTimeout ∧
    (1 / 2 : ℚ) ≤ 1 / 2 - 0 := by
  have h₀ : Reachable anyMove (new 1 1 0) 1 (1 / 2) (secondQueued 1 1 (1 / 2)) :=
    exec_reachable (by decide +kernel : exec starts step anyMove _ twoArrive = some _)
  have hrun : Relation.ReflTransGen (Step (longWaitGuard 1)) (secondQueued 1 1 (1 / 2)) halfSecond :=
    exec_reachable (by decide +kernel : exec starts step (longWaitGuard 1) _
      [.run 1 ⟨0, .proceed⟩, .run 1 ⟨0, .proceed⟩, .run 1 ⟨0, .proceed⟩] = some _)
  have hout : (RequestPhase.polling (1 / 2) (some 1) false).step halfSecond.shared ⟨1 / 2, .timeOut⟩ = some
      { shared := { halfSecond.shared with now := 1 / 2 }, phase := .rejected .requestTimeout } := by
    simp [step, act, halfSecond]
  exact ⟨_, _, rfl, hout, rfl, (timeout_after_queue_timeout h₀ rfl hrun).1 _ _ _ rfl hout rfl⟩

/-- The second request waits for the refill of one second, and a third one has taken that token. -/
def refillTaken : Traffic :=
  ⟨⟨⟨1, 1, 0, 1⟩, 1, 10, [], 1, 1⟩, [⟨.handling, none⟩, ⟨.polling 10 (some 1) false, none⟩, ⟨.handling, none⟩]⟩

/-- **Cut short**: with a queue timeout of ten seconds the second request is answered with a timeout after one
second, when `acquire` gives up waiting for the one missing token. -/
theorem timeout_after_one_second : Reachable anyMove (new 1 1 0) 1 10 (secondQueued 1 1 10) ∧
    Relation.ReflTransGen (Step anyMove) (secondQueued 1 1 10) refillTaken ∧
    (refillTaken.phases[1]?.bind fun φ => φ.step refillTaken.shared ⟨1, .timeOut⟩).map Outcome.phase =
      some (.rejected .requestTimeout) ∧ ¬ (10 : ℚ) ≤ 1 - 0 := by
  refine ⟨exec_reachable (by decide +kernel : exec starts step anyMove _ twoArrive = some _),
    exec_reachable (by decide +kernel : exec starts step anyMove _ [.run 1 ⟨0, .proceed⟩, .run 1 ⟨0, .proceed⟩,
      .run 1 ⟨0, .proceed⟩, .spawn .arrived, .run 2 ⟨1, .proceed⟩, .run 1 ⟨1, .proceed⟩] = some _),
    by decide +kernel, by norm_num⟩

end Traffic

end SGLang.Gateway
