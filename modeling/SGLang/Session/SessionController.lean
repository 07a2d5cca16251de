/-
# SGLang.Session.SessionController — the requests of a streaming session, one at a time.

A streaming session accepts a request only while none is in flight; the others are refused, which means that
they are created all the same, marked for abortion, and run through the scheduler like any request. Between two
turns the session's slot keeps the row of the request-to-token table that the last request had, and the next
request takes it over when its prefix is matched. A session that is closed while a request is in flight is
released later, by the reaper.

The model is one session with any number of requests, next to the requests of everybody else, which only take
rows from the pool and give them back. The token ids and the KV lengths are left out: nothing here depends on
them.

The flag `_inflight` does not know whose it is. `one_live_request` says that it is right as long as nobody but
the live request touches it.
-/
import Mathlib.Data.Int.Notation
import Mathlib.Logic.Relation
import Mathlib.Data.List.Nodup

namespace SGLang.Session

open Function List Or Option
open Bool (false_ne_true)
open Relation (ReflTransGen)

abbrev Rid := ℕ

/-- `finished_reason`. -/
inductive FinishReason
  | abort
  | other
  deriving DecidableEq, Repr

/-- Where a request is: in the waiting queue, in a batch, or in neither any more. -/
inductive Place
  | waiting
  | running
  | gone
  deriving DecidableEq, Repr

/-- `session` says that `req.session` is the session and not `None`, and `toFinish` that `to_finish` holds an
abort. `refusal` is the message with which `create_req` refused the request. -/
structure Req where
  session : Bool
  toFinish : Bool
  finishedReason : Option FinishReason
  reqPoolIdx : Option ℕ
  refusal : Option String
  place : Place
  deriving DecidableEq, Repr

structure SessionParams where
  replace : Bool
  dropPreviousOutput : Bool
  offset : Option ℤ
  deriving DecidableEq, Repr

/-- The session, its slot, the requests that were ever made for it, and the pool of rows. `isOpen` says that the
controller still has the session. `slot` is the session's entry of `slots` with its `req_pool_idx`. `others` are
the rows of all other requests, and `closeAsked` records that the session was to be closed. -/
structure Server where
  isOpen : Bool
  closeOnFinish : Bool
  inflight : Bool
  reqNode : Option Rid
  slot : Option (Option ℕ)
  reqs : Rid → Option Req
  freeSlots : List ℕ
  others : List ℕ
  closeAsked : Bool

namespace Server

variable (s : Server)

def setReq (rid : Rid) (r : Req) : Server := { s with reqs := Function.update s.reqs rid (some r) }

/-! ## `Session` -/

/-- The `abort_message` of `create_req`, if it aborts. -/
def refusal (p : SessionParams) : Option String :=
  if s.inflight then some "Streaming session already has an active request."
  else if p.replace then some "Streaming sessions do not support replace."
  else if p.dropPreviousOutput then some "Streaming sessions do not support drop_previous_output."
  else if p.offset.getD 0 ≠ 0 then some "Streaming sessions do not support offset."
  else none

variable (rid : Rid)

/-- `create_req`. The scheduler may abort the new request at once, for an input that is not valid. -/
def createReq (p : SessionParams) (invalid : Bool) : Server :=
  match s.refusal p with
  | some message => s.setReq rid ⟨true, true, none, none, some message, .waiting⟩
  | none => { s with inflight := true }.setReq rid ⟨true, invalid, none, none, none, .waiting⟩

/-- `prev_node.req.session = None`, for the request of the one node there is. -/
def detachNode : Server :=
  match s.reqNode with
  | none => s
  | some prev =>
    match s.reqs prev with
    | none => s
    | some r => s.setReq prev { r with session := false }

/-- `finish_req`. -/
def finishReq : Server := { ({ s with inflight := false } : Server).detachNode with reqNode := some rid }

/-! ## `StreamingSession` -/

/-- `release_session`. -/
def releaseSession : Server :=
  match s.slot with
  | none => s
  | some idx => { s with slot := none, freeSlots := s.freeSlots ++ idx.toList }

/-- `match_prefix`, which starts with `find_active_slot`: a request that is to be aborted leaves the session,
any other takes over the row of the slot. -/
def matchPrefix (r : Req) : Server :=
  if !r.session then s
  else
    match s.slot with
    | some (some idx) =>
      if r.toFinish then
        { s with inflight := false }.setReq rid { r with session := false }
      else
        s.setReq rid { r with reqPoolIdx := some idx }
    | _ => s

/-- `try_cache_finished_req`; `none` stands for the answer that the request is not for the session. -/
def tryCacheFinishedReq (r : Req) : Option Server :=
  if !r.session then none
  else if r.finishedReason = some .abort then
    -- without a slot, one is made up from the request
    let nuked := ({ s with slot := some (s.slot.getD r.reqPoolIdx) } : Server).releaseSession
    some ({ nuked with inflight := false }.setReq rid { r with reqPoolIdx := none })
  else
    some ((({ s with slot := some r.reqPoolIdx } : Server).setReq rid
      { r with reqPoolIdx := none }).finishReq rid)

/-- `release_kv_cache`, of a request that has a row. -/
def releaseKvCache (r : Req) (idx : ℕ) : Server :=
  match s.tryCacheFinishedReq rid r with
  | some s' => s'
  | none => { s with freeSlots := s.freeSlots ++ [idx] }.setReq rid { r with reqPoolIdx := none }

/-! ## `SessionController` -/

/-- `req.finished()`, of the request of the one node there is. -/
def nodeFinished : Bool :=
  match s.reqNode with
  | none => true
  | some n => ((s.reqs n).bind Req.finishedReason).isSome

/-- `_close`. -/
def closeSession : Server :=
  if s.inflight || !s.nodeFinished then
    { s with closeOnFinish := true }
  else
    { s.detachNode.releaseSession with isOpen := false }

/-- `close`. -/
def close : Server := if s.isOpen then { s.closeSession with closeAsked := true } else s

/-- The deferred closes of `maybe_reap`. -/
def reapPending : Server :=
  if s.isOpen && s.closeOnFinish && s.nodeFinished then
    ({ s with closeOnFinish := false } : Server).closeSession
  else
    s

/-- `maybe_reap`; `due` says that the interval is over, and `timedOut` what `is_timed_out` says. -/
def maybeReap (due timedOut : Bool) : Server :=
  if due then
    if timedOut then s.reapPending.close else s.reapPending
  else
    s

/-! ## `Scheduler` -/

/-- The request is moved. -/
def move (place : Place) : Server :=
  match s.reqs rid with
  | none => s
  | some r => s.setReq rid { r with place := place }

/-- The request joins a batch, with a row of its own if it has none. -/
def allocRow : Option Server :=
  match s.reqs rid with
  | none => none
  | some r =>
    match r.reqPoolIdx, s.freeSlots with
    | some _, _ => some (s.setReq rid { r with place := .running })
    | none, [] => none
    | none, idx :: rest =>
      some ({ s with freeSlots := rest }.setReq rid { r with reqPoolIdx := some idx, place := .running })

end Server

/-- What can happen to the session and its requests. -/
inductive Event
  /-- a request for the session arrives -/
  | create (rid : Rid) (p : SessionParams) (invalid : Bool)
  /-- a waiting request is matched, and joins the batch or not -/
  | schedule (rid : Rid) (admitted : Bool)
  /-- the request stops, or its abort takes effect -/
  | finish (rid : Rid)
  | abortRunning (rid : Rid)
  /-- the request is taken from the waiting queue: by an abort, a timeout or a limit on the queue -/
  | abortWaiting (rid : Rid)
  | retract (rid : Rid)
  /-- the last request of a batch is aborted by `retract_decode` -/
  | outOfMemory (rid : Rid)
  | close
  | reap (due timedOut : Bool)
  /-- other requests take a row and give it back -/
  | othersTake
  | othersGive (idx : ℕ)

namespace Server

variable (s : Server)

/-- The request, if it is at this place. -/
def reqAt (rid : Rid) (place : Place) : Option Req := (s.reqs rid).filter fun r => r.place = place

/-- `req.check_finished()` of a request that finishes now. -/
def checkFinished (r : Req) : Req :=
  { r with
    finishedReason := some (if r.toFinish then .abort else .other)
    toFinish := false }

/-- One event; `none` if it cannot happen or raises. -/
def step : Event → Option Server
  | .create rid p invalid =>
    if (s.reqs rid).isSome then none
    else if s.isOpen && !s.closeOnFinish then some (s.createReq rid p invalid)
    -- the request is aborted outside the session
    else some s
  | .schedule rid admitted => do
      let r ← s.reqAt rid .waiting
      let s' := s.matchPrefix rid r
      if admitted then s'.allocRow rid else some s'
  | .finish rid => do
      let r ← s.reqAt rid .running
      let idx ← r.reqPoolIdx
      return (s.releaseKvCache rid (checkFinished r) idx).move rid .gone
  | .abortRunning rid => do
      let r ← s.reqAt rid .running
      return s.setReq rid { r with toFinish := true }
  | .abortWaiting rid => do
      let r ← s.reqAt rid .waiting
      return s.setReq rid { r with place := .gone }
  | .retract rid => do
      let r ← s.reqAt rid .running
      let idx ← r.reqPoolIdx
      return (s.releaseKvCache rid r idx).move rid .waiting
  | .outOfMemory rid => do
      let r ← s.reqAt rid .running
      let idx ← r.reqPoolIdx
      return (s.releaseKvCache rid { r with toFinish := true } idx).move rid .gone
  | .close => some s.close
  | .reap due timedOut => some (s.maybeReap due timedOut)
  | .othersTake =>
    match s.freeSlots with
    | [] => none
    | idx :: rest => some { s with freeSlots := rest, others := idx :: s.others }
  | .othersGive idx =>
    if idx ∈ s.others then some { s with freeSlots := s.freeSlots ++ [idx], others := s.others.erase idx }
    else none

end Server

/-! ## Live requests -/

/-- A request is live if it was accepted and is neither finished nor aborted. A request that was to be aborted
and has left the session counts as aborted, although it still runs. -/
def Req.Live (r : Req) : Prop := r.refusal = none ∧ r.place ≠ .gone ∧ (r.session = true ∨ r.toFinish = false)

instance : DecidablePred Req.Live := fun r => by
  unfold Req.Live
  infer_instance

namespace Server

variable (s : Server)

/-- The request with this id is live. -/
def LiveAt (rid : Rid) : Prop := ∃ r, s.reqs rid = some r ∧ r.Live

/-- No other request is live. -/
def Alone (rid : Rid) : Prop := ∀ a, s.LiveAt a → a = rid

/-- The request is in the system and holds the row. -/
def Holds (rid : Rid) (idx : ℕ) : Prop :=
  ∃ r, s.reqs rid = some r ∧ r.place ≠ .gone ∧ r.reqPoolIdx = some idx

/-- The events in which nobody but the live request touches the flag: a request that leaves the session or
finishes in it does not do so next to a live one, no live request is taken from the waiting queue, and no
request of the session is retracted. -/
def Separate : Event → Prop
  | .schedule rid _ =>
    ∀ r, s.reqs rid = some r → r.session = true → r.toFinish = true → s.slot ≠ none → s.Alone rid
  | .finish rid => ∀ r, s.reqs rid = some r → r.session = true → s.Alone rid
  | .abortWaiting rid => ¬ s.LiveAt rid
  | .retract rid => ∀ r, s.reqs rid = some r → r.session = false
  | .outOfMemory rid => ∀ r, s.reqs rid = some r → r.session = false
  | _ => True

end Server

/-! ## What is kept -/

/-- What holds of each request: the live one is in the session, a refused one in the session is to be aborted,
one that is to be aborted has no row while it waits, and the reason why a request finished is set when it
goes. -/
structure Req.Regular (r : Req) : Prop where
  attached : r.Live → r.session = true
  refused : r.refusal ≠ none → r.place ≠ .gone → r.session = true → r.toFinish = true
  rowless : r.place = .waiting → r.toFinish = true → r.reqPoolIdx = none
  unfinished : r.place ≠ .gone → r.finishedReason = none

namespace Server

variable {s s' : Server} {rid a b : Rid} {r r' : Req} {idx k : ℕ} {place : Place}

/-- The flag is right. -/
structure Flag (s : Server) : Prop where
  regular : ∀ a r, s.reqs a = some r → r.Regular
  unique : ∀ a b, s.LiveAt a → s.LiveAt b → a = b
  flag : s.inflight = true ↔ ∃ a, s.LiveAt a
  node : ∀ n, s.reqNode = some n → ∃ r, s.reqs n = some r ∧ r.place = .gone ∧ r.finishedReason.isSome = true

/-- Every row is with at most one holder: the pool, the others, the slot or a request; only the live request may
share the slot's. -/
structure Rows (s : Server) : Prop where
  free : s.freeSlots.Nodup
  others : s.others.Nodup
  disjoint : ∀ k ∈ s.freeSlots, k ∉ s.others
  held : ∀ a k, s.Holds a k → k ∉ s.freeSlots ∧ k ∉ s.others
  slotRow : ∀ k, s.slot = some (some k) → k ∉ s.freeSlots ∧ k ∉ s.others
  slotSome : s.slot ≠ some none
  apart : ∀ a b k, s.Holds a k → s.Holds b k → a = b
  shared : ∀ a k, s.Holds a k → s.slot = some (some k) → s.LiveAt a

/-! ### Changing one request -/

@[simp] theorem reqs_setReq_self : (s.setReq rid r).reqs rid = some r := by
  show Function.update s.reqs rid (some r) rid = some r
  rw [update_self]

theorem liveAt_iff (hr : s.reqs rid = some r) : s.LiveAt rid ↔ r.Live := by
  simp [LiveAt, hr]

theorem liveAt_update (h : s'.reqs = Function.update s.reqs rid (some r')) :
    s'.LiveAt a ↔ (a = rid ∧ r'.Live) ∨ (a ≠ rid ∧ s.LiveAt a) := by
  unfold LiveAt
  rw [h]
  by_cases ha : a = rid
  · subst ha
    simp
  · simp [ha]

theorem holds_update (h : s'.reqs = Function.update s.reqs rid (some r')) :
    s'.Holds a k ↔ (a = rid ∧ r'.place ≠ .gone ∧ r'.reqPoolIdx = some k) ∨ (a ≠ rid ∧ s.Holds a k) := by
  unfold Holds
  rw [h]
  by_cases ha : a = rid
  · subst ha
    simp
  · simp [ha]

/-- A request changes, and the flag with it. -/
theorem Flag.update (h : s.Flag) (hreqs : s'.reqs = Function.update s.reqs rid (some r')) (hr' : r'.Regular)
    (halone : r'.Live → s.Alone rid) (hflag : s'.inflight = true ↔ r'.Live ∨ ∃ a, a ≠ rid ∧ s.LiveAt a)
    (hnode : ∀ n, s'.reqNode = some n →
      (n = rid ∧ r'.place = .gone ∧ r'.finishedReason.isSome = true) ∨ (n ≠ rid ∧ s.reqNode = some n)) :
    s'.Flag where
  regular := by
    rw [hreqs]
    exact (forall_update_iff s.reqs fun _ q => ∀ r, q = some r → r.Regular).mpr
      ⟨by rintro _ ⟨⟩; exact hr', fun a _ => h.regular a⟩
  unique := by
    intro a b ha hb
    rw [liveAt_update hreqs] at ha hb
    rcases ha with ⟨rfl, hlive⟩ | ⟨_, ha⟩
    · rcases hb with ⟨rfl, _⟩ | ⟨_, hb⟩
      · rfl
      · exact (halone hlive b hb).symm
    · rcases hb with ⟨rfl, hlive⟩ | ⟨_, hb⟩
      · exact halone hlive a ha
      · exact h.unique a b ha hb
  flag := by
    rw [hflag]
    constructor
    · rintro (hlive | ⟨a, hne, ha⟩)
      · exact ⟨rid, (liveAt_update hreqs).mpr (inl ⟨rfl, hlive⟩)⟩
      · exact ⟨a, (liveAt_update hreqs).mpr (inr ⟨hne, ha⟩)⟩
    · rintro ⟨a, ha⟩
      rcases (liveAt_update hreqs).mp ha with ⟨_, hlive⟩ | ⟨hne, ha⟩
      · exact inl hlive
      · exact inr ⟨a, hne, ha⟩
  node := by
    intro n hn
    rcases hnode n hn with ⟨rfl, hgone, hfin⟩ | ⟨hne, hold⟩
    · exact ⟨r', by rw [hreqs, update_self], hgone, hfin⟩
    · obtain ⟨r, hr, hgone, hfin⟩ := h.node n hold
      exact ⟨r, by rw [hreqs, update_of_ne hne, hr], hgone, hfin⟩

section

variable (h : s.Flag) (hr : s.reqs rid = some r)
include h hr

/-- A request that is in the system is not the one of the node. -/
theorem Flag.node_ne (hplace : r.place ≠ .gone) : s.reqNode ≠ some rid := by
  intro hn
  obtain ⟨r₁, hr₁, hgone, _⟩ := h.node rid hn
  rw [hr] at hr₁
  cases hr₁
  exact hplace hgone

theorem Flag.node_other (hplace : r.place ≠ .gone) {n : Rid}
    (hn : s.reqNode = some n) : n ≠ rid ∧ s.reqNode = some n := by
  refine ⟨?_, hn⟩
  rintro rfl
  exact h.node_ne hr hplace hn

/-- The flag stays if the request is live before and after, or neither. -/
theorem Flag.flag_of_iff (hiff : r'.Live ↔ r.Live) : s.inflight = true ↔ r'.Live ∨ ∃ a, a ≠ rid ∧
    s.LiveAt a := by
  rw [h.flag, hiff]
  constructor
  · rintro ⟨a, ha⟩
    by_cases hrid : a = rid
    · subst hrid
      exact inl ((liveAt_iff hr).mp ha)
    · exact inr ⟨a, hrid, ha⟩
  · rintro (hlive | ⟨a, _, ha⟩)
    · exact ⟨rid, r, hr, hlive⟩
    · exact ⟨a, ha⟩

/-- A request in the system changes without becoming or ceasing to be live. -/
theorem Flag.setReq (hplace : r.place ≠ .gone) (hr' : r'.Regular)
    (hiff : r'.Live ↔ r.Live) : (s.setReq rid r').Flag := by
  refine h.update rfl hr' ?_ (h.flag_of_iff hr hiff) fun n hn => inr (h.node_other hr hplace hn)
  intro hlive a ha
  exact h.unique a rid ha ⟨r, hr, hiff.mp hlive⟩

end

theorem Rows.pool (h : s.Rows) : (s.freeSlots ++ s.others).Nodup :=
  nodup_append'.mpr ⟨h.free, h.others, h.disjoint⟩

/-- A row in use is not in the pool. -/
theorem Rows.taken (h : s.Rows) (hk : (∃ a, s.Holds a k) ∨ s.slot = some (some k)) :
    k ∉ s.freeSlots ++ s.others := by
  rw [mem_append, not_or]
  rcases hk with ⟨a, ha⟩ | hk
  · exact h.held a k ha
  · exact h.slotRow k hk

/-- The pool or the other requests change, and nobody in the session gets a row. -/
theorem Rows.shift (h : s.Rows) (hpool : (s'.freeSlots ++ s'.others).Nodup) (hslot : s'.slot = s.slot)
    (hholds : ∀ a k, s'.Holds a k → s.Holds a k) (hlive : ∀ a k, s'.Holds a k → s.LiveAt a → s'.LiveAt a)
    (hin : ∀ k, (∃ a, s.Holds a k) ∨ s.slot = some (some k) → k ∉ s'.freeSlots ++ s'.others) : s'.Rows := by
  obtain ⟨hfree, hothers, hdisjoint⟩ := nodup_append'.mp hpool
  simp only [mem_append, not_or] at hin
  exact ⟨hfree, hothers, hdisjoint, fun a k ha => hin k (.inl ⟨a, hholds a k ha⟩), fun k hk =>
    hin k (.inr (hslot ▸ hk)),
    hslot ▸ h.slotSome, fun a b k ha hb => h.apart a b k (hholds a k ha) (hholds b k hb),
    fun a k ha hk => hlive a k ha (h.shared a k (hholds a k ha) (hslot ▸ hk))⟩

/-- One request changes without getting a row. -/
theorem Rows.update (h : s.Rows) (hreqs : s'.reqs = Function.update s.reqs rid (some r'))
    (hfree : s'.freeSlots = s.freeSlots) (hothers : s'.others = s.others) (hslot : s'.slot = s.slot)
    (hrow : ∀ k, r'.place ≠ .gone → r'.reqPoolIdx = some k → s.Holds rid k ∧ (s.LiveAt rid → r'.Live)) :
    s'.Rows := by
  refine h.shift (hfree ▸ hothers ▸ h.pool) hslot ?_ ?_ (hfree ▸ hothers ▸ fun _ => h.taken)
  · intro a k ha
    rcases (holds_update hreqs).mp ha with ⟨rfl, hplace, hk⟩ | ⟨_, ha⟩
    · exact (hrow k hplace hk).1
    · exact ha
  · intro a k ha hlive
    rw [liveAt_update hreqs]
    rcases (holds_update hreqs).mp ha with ⟨rfl, hplace, hk⟩ | ⟨hne, _⟩
    · exact inl ⟨rfl, (hrow k hplace hk).2 hlive⟩
    · exact inr ⟨hne, hlive⟩

/-- A request gets a row that no other has; the slot may share it if the request is live. -/
theorem Rows.grant (h : s.Rows) (hreqs : s'.reqs = Function.update s.reqs rid (some r'))
    (hothers : s'.others = s.others)
    (hslot : s'.slot = s.slot) (hnodup : s'.freeSlots.Nodup) (hsub : ∀ j ∈ s'.freeSlots, j ∈ s.freeSlots)
    (hrow : r'.reqPoolIdx = some k) (hk : k ∉ s'.freeSlots ∧ k ∉ s.others)
    (honly : ∀ a, a ≠ rid → ¬ s.Holds a k) (hshared : s.slot = some (some k) → r'.Live) : s'.Rows := by
  have hcases : ∀ a j, s'.Holds a j → (a = rid ∧ j = k) ∨ (a ≠ rid ∧ s.Holds a j) := by
    intro a j ha
    rcases (holds_update hreqs).mp ha with ⟨ha, _, hj⟩ | ha
    · exact inl ⟨ha, some.inj (hj.symm.trans hrow)⟩
    · exact inr ha
  refine ⟨hnodup, hothers ▸ h.others, fun j hj => hothers ▸ h.disjoint j (hsub j hj), ?_, ?_,
    hslot ▸ h.slotSome, ?_, ?_⟩
  · intro a j ha
    rw [hothers]
    rcases hcases a j ha with ⟨_, rfl⟩ | ⟨_, ha⟩
    · exact hk
    · exact ⟨fun hj => (h.held a j ha).1 (hsub j hj), (h.held a j ha).2⟩
  · intro j hj
    rw [hslot] at hj
    rw [hothers]
    exact ⟨fun hj' => (h.slotRow j hj).1 (hsub j hj'), (h.slotRow j hj).2⟩
  · intro a b j ha hb
    rcases hcases a j ha with ⟨hra, hja⟩ | ⟨hna, ha'⟩
    · rcases hcases b j hb with ⟨hrb, _⟩ | ⟨hnb, hb'⟩
      · exact hra.trans hrb.symm
      · exact absurd (hja ▸ hb') (honly b hnb)
    · rcases hcases b j hb with ⟨_, hjb⟩ | ⟨_, hb'⟩
      · exact absurd (hjb ▸ ha') (honly a hna)
      · exact h.apart a b j ha' hb'
  · intro a j ha hj
    rw [hslot] at hj
    rw [liveAt_update hreqs]
    rcases hcases a j ha with ⟨hra, rfl⟩ | ⟨hne, ha⟩
    · exact inl ⟨hra, hshared hj⟩
    · exact inr ⟨hne, h.shared a j ha hj⟩

/-- A row that nobody holds, not even the slot, goes back to the pool. -/
theorem Rows.giveBack (h : s.Rows) (hreqs : s'.reqs = s.reqs) (hothers : s'.others = s.others)
    (hslot : s'.slot = s.slot) (hfree : s'.freeSlots = s.freeSlots ++ [idx])
    (hin : idx ∉ s.freeSlots ∧ idx ∉ s.others)
    (hnobody : ∀ a, ¬ s.Holds a idx) (hnoslot : s.slot ≠ some (some idx)) : s'.Rows := by
  have hpool : s'.freeSlots ++ s'.others ~ idx :: (s.freeSlots ++ s.others) := by
    rw [hfree, hothers, append_assoc]
    exact perm_middle
  refine h.shift ?_ hslot (by simp [Holds, hreqs]) (by simp [LiveAt, hreqs]) fun k hk => ?_
  · rw [hpool.nodup_iff, nodup_cons, mem_append, not_or]
    exact ⟨hin, h.pool⟩
  · rw [hpool.mem_iff, mem_cons, not_or]
    refine ⟨?_, h.taken hk⟩
    rintro rfl
    exact hk.elim (fun ⟨a, ha⟩ => hnobody a ha) hnoslot

/-- The other requests take rows from the pool and give them back. -/
theorem Rows.exchange {free others : List ℕ} (h : s.Rows) (hpool : free ++ others ~ s.freeSlots ++ s.others) :
    ({ s with freeSlots := free, others := others } : Server).Rows :=
  h.shift (hpool.nodup_iff.mpr h.pool) rfl (fun _ _ => id) (fun _ _ _ => id)
    fun k hk => (hpool.mem_iff (a := k)).not.mpr (h.taken hk)

/-! ### The node's request -/

/-- Both invariants, and that a session which was to be closed will be. -/
structure Inv (s : Server) : Prop where
  flag : s.Flag
  rows : s.Rows
  closing : s.closeAsked = true → s.isOpen = true → s.closeOnFinish = true

/-- After a request has gone, the rows are held by others. -/
theorem holds_of_gone (hreqs : s'.reqs = Function.update s.reqs rid (some r')) (hgone : r'.place = .gone)
    (ha : s'.Holds a k) : a ≠ rid ∧ s.Holds a k := by
  rcases (holds_update hreqs).mp ha with ⟨_, hp, _⟩ | ha
  · exact absurd hgone hp
  · exact ha

theorem not_live_of_gone (h : r.place = .gone) : ¬ r.Live := fun hlive => hlive.2.1 h

theorem regular_of_gone (h : r.place = .gone) : r.Regular := by
  refine ⟨fun hlive => absurd hlive (not_live_of_gone h), fun _ hplace => absurd h hplace, ?_, ?_⟩
  · intro hwait
    rw [h] at hwait
    cases hwait
  · exact fun hplace => absurd h hplace

/-- Detaching the request of the node changes nothing but that: it has finished. -/
theorem Flag.detachNode (h : s.Flag) : s.detachNode.Flag := by
  unfold Server.detachNode
  cases hn : s.reqNode with
  | none => exact h
  | some n =>
    obtain ⟨r, hr, hgone, hfin⟩ := h.node n hn
    dsimp only
    rw [hr]
    have hgone' : ({ r with session := false } : Req).place = .gone := hgone
    refine h.update rfl (regular_of_gone hgone') ?_ ?_ ?_
    · exact fun hlive => absurd hlive (not_live_of_gone hgone')
    · apply h.flag_of_iff hr
      exact iff_of_false (not_live_of_gone hgone') (not_live_of_gone hgone)
    · intro m hm
      have hmn : m = n := some.inj (hm.symm.trans hn)
      exact inl ⟨hmn, hgone', hfin⟩

theorem Rows.detachNode (h : s.Rows) (hflag : s.Flag) : s.detachNode.Rows := by
  unfold Server.detachNode
  cases hn : s.reqNode with
  | none => exact h
  | some n =>
    obtain ⟨r, hr, hgone, _⟩ := hflag.node n hn
    dsimp only
    rw [hr]
    exact h.update rfl rfl rfl rfl fun k hplace => absurd hgone hplace

@[simp] theorem inflight_detachNode : s.detachNode.inflight = s.inflight := by
  unfold detachNode
  split
  · rfl
  · split <;> rfl

theorem closing_detachNode : (s.detachNode.closeAsked = true → s.detachNode.isOpen = true →
    s.detachNode.closeOnFinish = true) = (s.closeAsked = true → s.isOpen = true → s.closeOnFinish = true) := by
  unfold detachNode
  split
  · rfl
  · split <;> rfl

theorem reqs_detachNode_ne (h : s.reqNode ≠ some a) : s.detachNode.reqs a = s.reqs a := by
  unfold detachNode
  split
  · rfl
  · rename_i n hn
    split
    · rfl
    · apply update_of_ne
      rintro rfl
      exact h hn

theorem liveAt_detachNode (h : s.Flag) (ha : s.detachNode.LiveAt a) : s.LiveAt a := by
  by_cases hn : s.reqNode = some a
  · -- the node's request has finished
    obtain ⟨r, hr, hgone, _⟩ := h.node a hn
    obtain ⟨q, hq, hlive⟩ := ha
    unfold detachNode at hq
    rw [hn] at hq
    dsimp only at hq
    rw [hr] at hq
    have hq' : some ({ r with session := false } : Req) = some q := reqs_setReq_self.symm.trans hq
    cases hq'
    exact absurd hgone hlive.2.1
  · obtain ⟨q, hq, hlive⟩ := ha
    rw [reqs_detachNode_ne hn] at hq
    exact ⟨q, hq, hlive⟩

/-- Detaching the node's request commutes with changing another one. -/
theorem detachNode_setReq (h : s.reqNode ≠ some rid) :
    (s.setReq rid r).detachNode = s.detachNode.setReq rid r := by
  unfold detachNode
  show (match s.reqNode with
    | none => s.setReq rid r
    | some prev =>
      match Function.update s.reqs rid (some r) prev with
      | none => s.setReq rid r
      | some q => (s.setReq rid r).setReq prev { q with session := false }) = _
  cases hn : s.reqNode with
  | none => rfl
  | some n =>
    have hne : n ≠ rid := fun hnr => h (hnr ▸ hn)
    dsimp only
    rw [update_of_ne hne]
    cases hq : s.reqs n with
    | none => rfl
    | some q =>
      show ({ s with reqs := Function.update (Function.update s.reqs rid (some r)) n _ } : Server) =
        { s with reqs := Function.update (Function.update s.reqs n _) rid (some r) }
      rw [update_comm hne]

/-! ### Releasing -/

/-- A slot that no live request shares gives its row back. -/
theorem Rows.releaseSession (h : s.Rows) (hnobody : ∀ a k, s.Holds a k → s.slot ≠ some (some k)) :
    s.releaseSession.Rows := by
  unfold Server.releaseSession
  cases hslot : s.slot with
  | none => exact h
  | some i =>
    cases i with
    | none => exact absurd hslot h.slotSome
    | some k =>
      have hempty : ({ s with slot := none } : Server).Rows := by
        refine ⟨h.free, h.others, h.disjoint, h.held, ?_, ?_, h.apart, ?_⟩
        · exact fun j hj => absurd hj (some_ne_none _).symm
        · exact (some_ne_none _).symm
        · exact fun a j _ hj => absurd hj (some_ne_none _).symm
      exact hempty.giveBack rfl rfl rfl rfl (h.slotRow k hslot) (fun a ha => hnobody a k ha hslot)
        (some_ne_none _).symm

theorem Flag.releaseSession (h : s.Flag) : s.releaseSession.Flag := by
  unfold Server.releaseSession
  split
  · exact h
  · exact { h with }

/-- A request that goes while no other is live leaves the flag down. -/
theorem Flag.flag_down (halone : s.Alone rid) (hr' : ¬ r'.Live) :
    false = true ↔ r'.Live ∨ ∃ a, a ≠ rid ∧ s.LiveAt a := by
  refine iff_of_false false_ne_true ?_
  rintro (hlive | ⟨a, hne, ha⟩)
  · exact hr' hlive
  · exact hne (halone a ha)

/-- The request's row goes back to the pool and the request somewhere else, outside the session. -/
theorem Inv.releaseRaw (h : s.Inv) (hr : s.reqs rid = some r) (hplace : r.place ≠ .gone)
    (hout : r.session = false)
    (hrow : r.reqPoolIdx = some idx) (hr' : r'.Regular) (hlive : ¬ r'.Live) (hnone : r'.reqPoolIdx = none) :
    ({ s with freeSlots := s.freeSlots ++ [idx] }.setReq rid r').Inv := by
  have hdead : ¬ r.Live := fun hl => false_ne_true (hout.symm.trans ((h.flag.regular rid r hr).attached hl))
  have hholds : s.Holds rid idx := ⟨r, hr, hplace, hrow⟩
  have hset : (s.setReq rid r').Inv := by
    refine ⟨h.flag.setReq hr hplace hr' (iff_of_false hlive hdead), h.rows.update rfl rfl rfl rfl ?_, h.closing⟩
    intro k _ hk
    rw [hnone] at hk
    cases hk
  refine ⟨{ hset.flag with }, ?_, h.closing⟩
  refine hset.rows.giveBack rfl rfl rfl rfl (h.rows.held rid idx hholds) ?_ ?_
  · intro a ha
    rcases (holds_update rfl).mp ha with ⟨rfl, _, hk⟩ | ⟨hne, ha⟩
    · rw [hnone] at hk
      cases hk
    · exact hne (h.rows.apart a rid idx ha hholds)
  · intro hslot
    exact hdead ((liveAt_iff hr).mp (h.rows.shared rid idx hholds hslot))

section

variable (h : s.Inv) (hr : s.reqs rid = some r) (hplace : r.place ≠ .gone) (hrow : r.reqPoolIdx = some idx)
  (halone : s.Alone rid) (hr' : r'.Regular) (hgone : r'.place = .gone)
include h hr hplace hrow halone hr' hgone

/-- A request of the session is aborted: the session's rows go back to the pool. -/
theorem Inv.nuke : ({ ({ s with slot := some (s.slot.getD r.reqPoolIdx) } : Server).releaseSession with
      inflight := false }.setReq rid r').Inv := by
  have hholds : s.Holds rid idx := ⟨r, hr, hplace, hrow⟩
  -- first the request goes, then the slot is released
  have hset : ({ s with inflight := false }.setReq rid r').Inv := by
    refine ⟨h.flag.update rfl hr' ?_ (Flag.flag_down halone (not_live_of_gone hgone)) ?_, ?_, h.closing⟩
    · exact fun hlive => absurd hlive (not_live_of_gone hgone)
    · exact fun n hn => inr (h.flag.node_other hr hplace hn)
    · exact h.rows.update rfl rfl rfl rfl fun k hp => absurd hgone hp
  have hothers : ∀ a k, ({ s with inflight := false }.setReq rid r').Holds a k → a ≠ rid ∧ s.Holds a k :=
    fun _ _ =>
    holds_of_gone rfl hgone
  cases hslot : s.slot with
  | none =>
    rw [hrow]
    refine ⟨{ hset.flag with }, ?_, h.closing⟩
    refine hset.rows.giveBack rfl rfl hslot.symm rfl (h.rows.held rid idx hholds) ?_ ?_
    · intro a ha
      exact (hothers a idx ha).1 (h.rows.apart a rid idx (hothers a idx ha).2 hholds)
    · rw [hslot]
      exact (some_ne_none _).symm
  | some i =>
    cases i with
    | none => exact absurd hslot h.rows.slotSome
    | some k =>
      have hrelease := hset.rows.releaseSession (by
        intro a j ha hj
        obtain ⟨hne, hold⟩ := hothers a j ha
        exact hne (halone a (h.rows.shared a j hold hj)))
      unfold Server.releaseSession at hrelease
      have hslot' : ({ s with inflight := false }.setReq rid r').slot = some (some k) := hslot
      rw [hslot'] at hrelease
      exact ⟨{ hset.flag with }, hrelease, h.closing⟩

/-- The session after a request with this row has finished. -/
def keep (s : Server) (rid : Rid) (idx : ℕ) : Server :=
  { s with
    slot := some (some idx)
    inflight := false
    reqNode := some rid }

/-- A request of the session finishes: its row goes to the slot and its id to the node. -/
theorem Inv.save (hfin : r'.finishedReason.isSome = true) : ((s.keep rid idx).setReq rid r').Inv := by
  have hholds : s.Holds rid idx := ⟨r, hr, hplace, hrow⟩
  have hothers : ∀ a k, ((s.keep rid idx).setReq rid r').Holds a k → a ≠ rid ∧ s.Holds a k := fun _ _ =>
    holds_of_gone rfl hgone
  refine ⟨?_, ?_, h.closing⟩
  · refine h.flag.update rfl hr' ?_ (Flag.flag_down halone (not_live_of_gone hgone)) ?_
    · exact fun hlive => absurd hlive (not_live_of_gone hgone)
    · intro n hn
      exact inl ⟨(some.inj hn).symm, hgone, hfin⟩
  · refine ⟨h.rows.free, h.rows.others, h.rows.disjoint, ?_, ?_, ?_, ?_, ?_⟩
    · exact fun a k ha => h.rows.held a k (hothers a k ha).2
    · intro k hk
      cases hk
      exact h.rows.held rid idx hholds
    · intro hnone
      cases hnone
    · exact fun a b k ha hb => h.rows.apart a b k (hothers a k ha).2 (hothers b k hb).2
    · intro a k ha hk
      cases hk
      obtain ⟨hne, hold⟩ := hothers a idx ha
      exact absurd (h.rows.apart a rid idx hold hholds) hne

end

/-- Closing releases the session only when no request is live. -/
theorem Inv.closeSession (hflag : s.Flag) (hrows : s.Rows) : s.closeSession.Inv := by
  unfold Server.closeSession
  split
  · exact ⟨{ hflag with }, { hrows with }, fun _ _ => rfl⟩
  · rename_i hbusy
    have hdown : s.inflight = false := by
      cases hi : s.inflight
      · rfl
      · simp [hi] at hbusy
    have hrel : s.detachNode.releaseSession.Rows := by
      apply (hrows.detachNode hflag).releaseSession
      intro a k ha hk
      have hlive := (hrows.detachNode hflag).shared a k ha hk
      have hup := hflag.detachNode.flag.mpr ⟨a, hlive⟩
      rw [inflight_detachNode, hdown] at hup
      exact false_ne_true hup
    have hflag' := hflag.detachNode.releaseSession
    refine ⟨{ hflag' with }, { hrel with }, ?_⟩
    intro _ hopen
    cases hopen

theorem Inv.close (h : s.Inv) : s.close.Inv := by
  unfold Server.close
  split
  · have hclose := Inv.closeSession h.flag h.rows
    refine ⟨{ hclose.flag with }, { hclose.rows with }, ?_⟩
    intro _ hopen
    have hopen' : s.closeSession.isOpen = true := hopen
    unfold Server.closeSession at hopen' ⊢
    split at hopen'
    · rename_i hbusy
      rw [if_pos hbusy]
    · cases hopen'
  · exact h

theorem Inv.reapPending (h : s.Inv) : s.reapPending.Inv := by
  unfold Server.reapPending
  split
  · exact Inv.closeSession { h.flag with } { h.rows with }
  · exact h

/-! ### The events -/

/-- A step of a request that is in some place. -/
theorem reqAt_bind_eq_some {f : Req → Option Server} (h : (s.reqAt rid place).bind f = some s') :
    ∃ r, s.reqs rid = some r ∧ r.place = place ∧ f r = some s' := by
  obtain ⟨r, hat, hf⟩ := bind_eq_some_iff.mp h
  obtain ⟨hr, hp⟩ := filter_eq_some_iff.mp hat
  exact ⟨r, hr, of_decide_eq_true hp, hf⟩

theorem move_setReq : (s.setReq rid r).move rid place = s.setReq rid { r with place := place } := by
  unfold move
  rw [reqs_setReq_self]
  show ({ s with reqs := Function.update (Function.update s.reqs rid (some r)) rid _ } : Server) = _
  rw [update_idem]
  rfl

/-- `finish_req` after the request has changed. -/
theorem finishReq_eq (h : s.reqNode ≠ some rid) :
    (({ s with slot := some (some idx) } : Server).setReq rid r).finishReq rid =
      (s.detachNode.keep rid idx).setReq rid r := by
  have hdetach : ({ s with slot := some (some idx), inflight := false } : Server).detachNode =
      { s.detachNode with slot := some (some idx), inflight := false } := by
    obtain ⟨_, _, _, n, _, reqs, _, _, _⟩ := s
    cases n with
    | none => rfl
    | some n =>
      unfold detachNode
      dsimp only
      cases reqs n <;> rfl
  have hcomm : (({ s with slot := some (some idx), inflight := false } : Server).setReq rid r).detachNode =
      ({ s with slot := some (some idx), inflight := false } : Server).detachNode.setReq rid
        r := detachNode_setReq h
  show ({ (({ s with slot := some (some idx), inflight := false } : Server).setReq rid r).detachNode with
    reqNode := some rid } : Server) = _
  rw [hcomm, hdetach]
  rfl

/-- A request without a row is new, and the flag goes up with it if it is live. -/
theorem Inv.addReq {u : Bool} (h : s.Inv) (hnew : s.reqs rid = none) (hr' : r'.Regular)
    (hrow : r'.reqPoolIdx = none)
    (hlive : r'.Live → ¬ s.inflight = true) (hup : u = true ↔ r'.Live ∨ s.inflight = true) :
    ({ s with inflight := u }.setReq rid r').Inv := by
  refine ⟨h.flag.update rfl hr' ?_ (hup.trans (or_congr_right (h.flag.flag.trans ?_))) ?_,
    h.rows.update rfl rfl rfl rfl ?_, h.closing⟩
  · exact fun hl a ha => absurd (h.flag.flag.mpr ⟨a, ha⟩) (hlive hl)
  · refine exists_congr fun a => ⟨fun ha => ⟨?_, ha⟩, And.right⟩
    rintro rfl
    obtain ⟨r, hr, _⟩ := ha
    rw [hnew] at hr
    cases hr
  · refine fun n hn => inr ⟨?_, hn⟩
    rintro rfl
    obtain ⟨r, hr, _⟩ := h.flag.node n hn
    rw [hnew] at hr
    cases hr
  · intro k _ hk
    rw [hrow] at hk
    cases hk

/-- A new request is accepted only if no request is live. -/
theorem Inv.createReq {p : SessionParams} {invalid : Bool} (h : s.Inv) (hnew : s.reqs rid = none) :
    (s.createReq rid p invalid).Inv := by
  unfold Server.createReq
  cases href : s.refusal p with
  | some message =>
    have hdead : ¬ (⟨true, true, none, none, some message, .waiting⟩ : Req).Live :=
      fun hlive => by cases hlive.1
    refine h.addReq (u := s.inflight) hnew ?_ rfl (absurd · hdead) (by simp [hdead])
    exact ⟨fun _ => rfl, fun _ _ _ => rfl, fun _ _ => rfl, fun _ => rfl⟩
  | none =>
    have hdown : ¬ s.inflight = true := by
      intro hup
      unfold Server.refusal at href
      rw [if_pos hup] at href
      cases href
    refine h.addReq hnew ?_ rfl (fun _ => hdown) (iff_of_true rfl (inl ⟨rfl, nofun, inl rfl⟩))
    exact ⟨fun _ => rfl, fun hne => absurd rfl hne, fun _ _ => rfl, fun _ => rfl⟩

/-- A request that was not to be aborted takes over the slot's row: it is the live one. -/
theorem Inv.matchPrefix (h : s.Inv) (hr : s.reqs rid = some r) (hplace : r.place = .waiting)
    (hsep : r.session = true → r.toFinish = true → s.slot ≠ none → s.Alone rid) :
    (s.matchPrefix rid r).Inv ∧ ∃ q, (s.matchPrefix rid r).reqs rid = some q ∧ q.place = .waiting := by
  have hin : r.place ≠ .gone := by simp [hplace]
  have hreg := h.flag.regular rid r hr
  unfold Server.matchPrefix
  split
  · exact ⟨h, r, hr, hplace⟩
  · rename_i hses
    have hsession : r.session = true := by simpa using hses
    split
    · rename_i k hslot
      split
      · -- the request leaves the session, and with it the live request, if there was one
        rename_i hto
        have halone := hsep hsession hto (by rw [hslot]; exact some_ne_none _)
        have hdead : ¬ ({ r with session := false } : Req).Live := by
          rintro ⟨_, _, hs | hf⟩
          · cases hs
          · exact false_ne_true (hf.symm.trans hto)
        refine ⟨⟨h.flag.update rfl ?_ ?_ (Flag.flag_down halone hdead) ?_, h.rows.update rfl rfl rfl rfl ?_,
          h.closing⟩, _, reqs_setReq_self, hplace⟩
        · refine ⟨fun hlive => absurd hlive hdead, nofun, ?_, fun _ => hreg.unfinished hin⟩
          exact fun _ _ => hreg.rowless hplace hto
        · exact fun hlive => absurd hlive hdead
        · exact fun n hn => inr (h.flag.node_other hr hin hn)
        · intro j _ hj
          have hrow := hreg.rowless hplace hto
          have hj' : r.reqPoolIdx = some j := hj
          rw [hrow] at hj'
          cases hj'
      · rename_i hto
        have hacc : r.refusal = none := by
          by_contra href
          exact hto (hreg.refused href hin hsession)
        have hlive : r.Live := ⟨hacc, hin, inl hsession⟩
        have hiff : ({ r with reqPoolIdx := some k } : Req).Live ↔ r.Live := Iff.rfl
        refine ⟨⟨h.flag.setReq hr hin ?_ hiff, ?_, h.closing⟩, _, reqs_setReq_self, hplace⟩
        · exact ⟨hreg.attached, hreg.refused, fun _ hto' => absurd hto' hto, hreg.unfinished⟩
        · refine h.rows.grant rfl rfl rfl h.rows.free (fun _ hj => hj) rfl (h.rows.slotRow k hslot) ?_
            fun _ => hlive
          -- nobody else has the slot's row, since only a live request may
          exact fun a hne ha => hne (h.flag.unique a rid (h.rows.shared a k ha hslot) ⟨r, hr, hlive⟩)
    · exact ⟨h, r, hr, hplace⟩

/-- A request that joins a batch keeps its row or gets one from the pool. -/
theorem Inv.allocRow (h : s.Inv) (hr : s.reqs rid = some r) (hplace : r.place = .waiting)
    (halloc : s.allocRow rid = some s') : s'.Inv := by
  have hin : r.place ≠ .gone := by simp [hplace]
  have hreg := h.flag.regular rid r hr
  have hregular : ∀ row, ({ r with reqPoolIdx := row, place := .running } : Req).Regular := by
    intro row
    refine ⟨?_, ?_, nofun, fun _ => hreg.unfinished hin⟩
    · rintro ⟨hacc, _, hs⟩
      exact hreg.attached ⟨hacc, hin, hs⟩
    · exact fun href _ => hreg.refused href hin
  have hiff : ∀ row, ({ r with reqPoolIdx := row, place := .running } : Req).Live ↔ r.Live := by
    intro row
    exact ⟨fun hl => ⟨hl.1, hin, hl.2.2⟩, fun hl => ⟨hl.1, nofun, hl.2.2⟩⟩
  unfold Server.allocRow at halloc
  rw [hr] at halloc
  dsimp only at halloc
  split at halloc
  · rename_i k hrow
    cases halloc
    have heq : ({ r with place := .running } : Req) = { r with reqPoolIdx := some k, place := .running } := by
      rw [← hrow]
    rw [heq]
    refine ⟨h.flag.setReq hr hin (hregular _) (hiff _), h.rows.update rfl rfl rfl rfl ?_, h.closing⟩
    intro j _ hj
    exact ⟨⟨r, hr, hin, hrow.trans hj⟩, fun hlive => (hiff _).mpr ((liveAt_iff hr).mp hlive)⟩
  · cases halloc
  · rename_i k rest hrow hfree
    cases halloc
    have hk : k ∈ s.freeSlots := by
      rw [hfree]
      exact mem_cons_self
    have hnodup : (k :: rest).Nodup := hfree ▸ h.rows.free
    have hset := h.flag.setReq hr hin (hregular (some k)) (hiff _)
    refine ⟨{ hset with }, h.rows.grant rfl rfl rfl (nodup_cons.mp hnodup).2 ?_ rfl
      ⟨(nodup_cons.mp hnodup).1, h.rows.disjoint k hk⟩ ?_ ?_, h.closing⟩
    · intro j hj
      rw [hfree]
      exact mem_cons_of_mem _ hj
    · exact fun a _ ha => (h.rows.held a k ha).1 hk
    · exact fun hslot => absurd hk (h.rows.slotRow k hslot).1

/-- A request that ends in the session, with an abort or without. -/
theorem Inv.finishInSession (h : s.Inv) (hr : s.reqs rid = some r) (hplace : r.place = .running)
    (hsession : r.session = true) (hrow : r.reqPoolIdx = some idx) (halone : s.Alone rid) :
    ((s.releaseKvCache rid (checkFinished r) idx).move rid .gone).Inv := by
  have hin : r.place ≠ .gone := by simp [hplace]
  have hrow' : (checkFinished r).reqPoolIdx = some idx := hrow
  unfold releaseKvCache tryCacheFinishedReq
  have hses : (checkFinished r).session = true := hsession
  rw [hses]
  by_cases hto : r.toFinish = true
  · have habort : (checkFinished r).finishedReason = some .abort := by
      unfold checkFinished
      rw [if_pos hto]
    simp only [Bool.not_true, Bool.false_eq_true, if_false, habort, if_true]
    rw [move_setReq, hrow', ← hrow]
    exact h.nuke hr hin hrow halone (regular_of_gone rfl) rfl
  · have hother : (checkFinished r).finishedReason = some .other := by
      unfold checkFinished
      rw [if_neg hto]
    have hne : ¬ (checkFinished r).finishedReason = some .abort := by
      rw [hother]
      exact nofun
    simp only [Bool.not_true, Bool.false_eq_true, if_false, hne]
    rw [hrow', finishReq_eq (h.flag.node_ne hr hin), move_setReq]
    have hdetached : s.detachNode.Inv :=
      ⟨h.flag.detachNode, h.rows.detachNode h.flag, by
        rw [closing_detachNode]
        exact h.closing⟩
    have hsame : s.detachNode.reqs rid = some r := by
      rw [reqs_detachNode_ne (h.flag.node_ne hr hin)]
      exact hr
    refine hdetached.save hsame hin hrow ?_ (regular_of_gone rfl) rfl ?_
    · intro a ha
      apply halone
      exact liveAt_detachNode h.flag ha
    · rw [hother]
      rfl

/-- A request outside the session gives its row back, whatever becomes of it. -/
theorem Inv.releaseOutside (h : s.Inv) (hr : s.reqs rid = some r) (hplace : r.place ≠ .gone)
    (hout : r.session = false) (hrow : r.reqPoolIdx = some idx) (hout' : r'.session = false)
    (hr' : ({ r' with reqPoolIdx := none, place := place } : Req).Regular)
    (hlive : ¬ ({ r' with reqPoolIdx := none, place := place } : Req).Live) :
    ((s.releaseKvCache rid r' idx).move rid place).Inv := by
  unfold releaseKvCache tryCacheFinishedReq
  rw [hout']
  simp only [Bool.not_false, if_true]
  rw [move_setReq]
  rw [hout'] at hr' hlive
  exact h.releaseRaw hr hplace hout hrow hr' hlive rfl

/-- What one event keeps, if nobody but the live request touches the flag. -/
theorem Inv.step {e : Event} (h : s.Inv) (hsep : s.Separate e) (hstep : s.step e = some s') : s'.Inv := by
  cases e with
  | create rid p invalid =>
    simp only [Server.step] at hstep
    split at hstep
    · cases hstep
    · rename_i hnew
      split at hstep
      · cases hstep
        exact h.createReq (not_isSome_iff_eq_none.mp hnew)
      · cases hstep
        exact h
  | schedule rid admitted =>
    obtain ⟨r, hr, hplace, hnext⟩ := reqAt_bind_eq_some hstep
    obtain ⟨hmatch, q, hq, hwait⟩ := h.matchPrefix hr hplace (hsep r hr)
    split at hnext
    · exact hmatch.allocRow hq hwait hnext
    · cases hnext
      exact hmatch
  | finish rid =>
    obtain ⟨r, hr, hplace, hnext⟩ := reqAt_bind_eq_some hstep
    obtain ⟨idx, hrow, hdone⟩ := bind_eq_some_iff.mp hnext
    cases hdone
    cases hses : r.session with
    | true => exact h.finishInSession hr hplace hses hrow (hsep r hr hses)
    | false =>
      exact h.releaseOutside hr (by simp [hplace]) hses hrow hses (regular_of_gone rfl) (not_live_of_gone rfl)
  | abortRunning rid =>
    obtain ⟨r, hr, hplace, hdone⟩ := reqAt_bind_eq_some hstep
    cases hdone
    have hin : r.place ≠ .gone := by simp [hplace]
    have hreg := h.flag.regular rid r hr
    have hiff : ({ r with toFinish := true } : Req).Live ↔ r.Live := by
      constructor
      · rintro ⟨hacc, _, hses | hto⟩
        · exact ⟨hacc, hin, inl hses⟩
        · cases hto
      · exact fun hlive => ⟨hlive.1, hin, inl (hreg.attached hlive)⟩
    refine ⟨h.flag.setReq hr hin ?_ hiff, h.rows.update rfl rfl rfl rfl ?_, h.closing⟩
    · refine ⟨fun hlive => hreg.attached (hiff.mp hlive), fun _ _ _ => rfl, ?_, hreg.unfinished⟩
      intro hwait
      have hwait' : r.place = .waiting := hwait
      rw [hplace] at hwait'
      cases hwait'
    · intro k _ hk
      exact ⟨⟨r, hr, hin, hk⟩, fun hlive => hiff.mpr ((liveAt_iff hr).mp hlive)⟩
  | abortWaiting rid =>
    obtain ⟨r, hr, hplace, hdone⟩ := reqAt_bind_eq_some hstep
    cases hdone
    have hin : r.place ≠ .gone := by simp [hplace]
    refine ⟨h.flag.setReq hr hin (regular_of_gone rfl) ?_, h.rows.update rfl rfl rfl rfl ?_, h.closing⟩
    · exact iff_of_false (not_live_of_gone rfl) fun hlive => hsep ⟨r, hr, hlive⟩
    · exact fun _ hp => absurd rfl hp
  | retract rid =>
    obtain ⟨r, hr, hplace, hnext⟩ := reqAt_bind_eq_some hstep
    obtain ⟨idx, hrow, hdone⟩ := bind_eq_some_iff.mp hnext
    cases hdone
    have hin : r.place ≠ .gone := by simp [hplace]
    have hout := hsep r hr
    have hreg := h.flag.regular rid r hr
    have hdead : ¬ ({ r with reqPoolIdx := none, place := .waiting } : Req).Live := by
      rintro ⟨hacc, _, hses⟩
      exact false_ne_true (hout.symm.trans (hreg.attached ⟨hacc, hin, hses⟩))
    refine h.releaseOutside hr hin hout hrow hout ?_ hdead
    refine ⟨fun hlive => absurd hlive hdead, fun _ _ hses => ?_, fun _ _ => rfl, fun _ => hreg.unfinished hin⟩
    exact absurd (hout.symm.trans hses) false_ne_true
  | outOfMemory rid =>
    obtain ⟨r, hr, hplace, hnext⟩ := reqAt_bind_eq_some hstep
    obtain ⟨idx, hrow, hdone⟩ := bind_eq_some_iff.mp hnext
    cases hdone
    exact h.releaseOutside hr (by simp [hplace]) (hsep r hr) hrow (hsep r hr) (regular_of_gone rfl)
      (not_live_of_gone rfl)
  | close =>
    cases hstep
    exact h.close
  | reap due timedOut =>
    cases hstep
    unfold maybeReap
    split
    · split
      · exact h.reapPending.close
      · exact h.reapPending
    · exact h
  | othersTake =>
    simp only [Server.step] at hstep
    split at hstep
    · cases hstep
    · rename_i k rest hfree
      cases hstep
      exact ⟨{ h.flag with }, h.rows.exchange (hfree ▸ perm_middle), h.closing⟩
  | othersGive k =>
    simp only [Server.step] at hstep
    split at hstep
    · rename_i hk
      cases hstep
      refine ⟨{ h.flag with }, h.rows.exchange ?_, h.closing⟩
      rw [append_assoc]
      exact (perm_cons_erase hk).symm.append_left _
    · cases hstep

/-! ## Runs -/

/-- A session that has just been opened, and a pool of rows, some of them in use. -/
def init (freeSlots others : List ℕ) : Server where
  isOpen := true
  closeOnFinish := false
  inflight := false
  reqNode := none
  slot := none
  reqs := fun _ => none
  freeSlots := freeSlots
  others := others
  closeAsked := false

/-- A step in which nobody but the live request touches the flag. -/
def SeparateStep (s s' : Server) : Prop := ∃ e, s.Separate e ∧ s.step e = some s'

theorem inv_init {free others : List ℕ} (hfree : (free ++ others).Nodup) : (init free others).Inv := by
  obtain ⟨hf, ho, hdisj⟩ := nodup_append.mp hfree
  refine ⟨⟨nofun, ?_, ?_, nofun⟩, ⟨hf, ho, ?_, ?_, nofun, nofun, ?_, ?_⟩, nofun⟩
  · rintro a _ ⟨r, hr, _⟩
    cases hr
  · refine iff_of_false false_ne_true ?_
    rintro ⟨a, r, hr, _⟩
    cases hr
  · exact fun k hk hk' => hdisj k hk k hk' rfl
  · rintro a k ⟨r, hr, _⟩
    cases hr
  · rintro a _ k ⟨r, hr, _⟩
    cases hr
  · rintro a k ⟨r, hr, _⟩
    cases hr

theorem slot_releaseSession : s.releaseSession.slot = none := by
  unfold releaseSession
  cases hslot : s.slot with
  | none => exact hslot
  | some _ => rfl

theorem Flag.nodeFinished (h : s.Flag) : s.nodeFinished = true := by
  unfold Server.nodeFinished
  cases hn : s.reqNode with
  | none => rfl
  | some n =>
    obtain ⟨r, hr, _, hfin⟩ := h.node n hn
    dsimp only
    rw [hr]
    exact hfin

theorem closeSession_released (hidle : s.inflight = false) (hnode : s.nodeFinished = true) :
    s.closeSession.isOpen = false ∧ s.closeSession.slot = none := by
  unfold closeSession
  rw [hidle, hnode]
  exact ⟨rfl, slot_releaseSession⟩

/-- The session is gone, and if it is so only now, it has left nothing behind. -/
def ReleasedBy (s s' : Server) : Prop := s'.isOpen = false ∧ (s.isOpen = true → s'.slot = none)

/-- Without a live request, a reap that is due releases a session that was to be closed. -/
theorem Inv.reaped {timedOut : Bool} (h : s.Inv) (hclose : s.closeAsked = true) (hidle : ∀ a, ¬ s.LiveAt a) :
    s.ReleasedBy (s.maybeReap true timedOut) := by
  have hdown : s.inflight = false := by
    rw [Bool.eq_false_iff, ne_eq, h.flag.flag]
    rintro ⟨a, ha⟩
    exact hidle a ha
  have hpending : s.ReleasedBy s.reapPending := by
    unfold Server.reapPending
    cases hopen : s.isOpen with
    | false =>
      refine ⟨hopen, fun hopen' => ?_⟩
      rw [hopen] at hopen'
      cases hopen'
    | true =>
      rw [h.closing hclose hopen, h.flag.nodeFinished]
      have hgone := closeSession_released (s := { s with isOpen := true, closeOnFinish := false }) hdown
        h.flag.nodeFinished
      exact ⟨hgone.1, fun _ => hgone.2⟩
  unfold maybeReap
  rw [if_pos rfl]
  split
  · unfold Server.close
    rw [hpending.1]
    exact hpending
  · exact hpending

theorem run_inv (h : s.Inv) (hrun : ReflTransGen SeparateStep s s') : s'.Inv := by
  induction hrun with
  | refl => exact h
  | tail _ hlast ih =>
    obtain ⟨e, hsep, hstep⟩ := hlast
    exact ih.step hsep hstep

/-- The session has at most one live request, the flag says whether there is one, no two requests hold the same
row, and a session that was to be closed goes with the first due reap that finds no live request. -/
structure OneAtATime (s : Server) : Prop where
  atMostOne : ∀ a b, s.LiveAt a → s.LiveAt b → a = b
  flag : s.inflight = true ↔ ∃ a, s.LiveAt a
  rows : ∀ a b k, s.Holds a k → s.Holds b k → a = b
  reaped : s.closeAsked = true → (∀ a, ¬ s.LiveAt a) → ∀ timedOut, s.ReleasedBy (s.maybeReap true timedOut)

/-- The events, one after the other. -/
def run : List Event → Server → Option Server
  | [], s => some s
  | e :: es, s => s.step e >>= run es

/-- The parameters of a plain append. -/
def plain : SessionParams := ⟨false, false, none⟩

/-- A first turn, and a second one that has taken over its row. -/
def twoTurns : List Event :=
  [.create 0 plain false, .schedule 0 true, .finish 0, .create 1 plain false, .schedule 1 true]

/-- During the second turn a third request is refused and matched, and then a fourth one comes. -/
def refusedThenAccepted : List Event :=
  twoTurns ++ [.create 2 plain false, .schedule 2 false, .create 3 plain false, .schedule 3 true]

/-- The second turn is retracted, another request comes, and both are scheduled. -/
def retractedThenAccepted : List Event :=
  twoTurns ++ [.retract 1, .create 2 plain false, .schedule 2 true, .schedule 1 true]

/-- A request is aborted while it waits, and the session is closed. -/
def abortedThenClosed : List Event := [.create 0 plain false, .abortWaiting 0, .close]

/-- **A streaming session has one live request at a time.** Whatever is created, refused, matched, finished,
aborted, closed and reaped, in a run in which nobody but the live request touches the flag. -/
theorem one_live_request {free others : List ℕ} (hrows : (free ++ others).Nodup)
    (hrun : ReflTransGen SeparateStep (init free others) s) : s.OneAtATime := by
  have h := run_inv (inv_init hrows) hrun
  exact ⟨h.flag.unique, h.flag.flag, h.rows.apart, fun hclose hidle _ => h.reaped hclose hidle⟩

/-- The second turn runs on the row of the first. -/
theorem one_live_request_twoTurns :
    ∃ s, ReflTransGen SeparateStep (init [0, 1] []) s ∧ run twoTurns (init [0, 1] []) = some s ∧
      s.LiveAt 1 ∧ s.Holds 1 0 ∧ s.OneAtATime := by
  have hnodup : ([0, 1] ++ [] : List ℕ).Nodup := by decide
  have hstart : ReflTransGen SeparateStep (init [0, 1] []) _ :=
    .tail (.single ⟨.create 0 plain false, trivial, rfl⟩) ⟨.schedule 0 true, by rintro _ ⟨⟩ _ ⟨⟩, rfl⟩
  have hinv := run_inv (inv_init hnodup) hstart
  have hrun : ReflTransGen SeparateStep (init [0, 1] []) _ :=
    .tail (.tail (.tail hstart ⟨.finish 0, fun _ _ _ a ha => hinv.flag.unique a 0 ha ⟨_, rfl, by decide⟩, rfl⟩)
      ⟨.create 1 plain false, trivial, rfl⟩) ⟨.schedule 1 true, by rintro _ ⟨⟩ _ ⟨⟩, rfl⟩
  exact ⟨_, hrun, rfl, ⟨_, rfl, by decide⟩, ⟨_, rfl, by decide, rfl⟩, one_live_request hnodup hrun⟩

/-- Three runs in which the flag is wrong: it is cleared for a refused request, it is cleared by a retraction,
and it stays set after an abort. In the first two, two live requests share a row; in the third, the session is
never reaped. -/
theorem shared_row_and_lost_close :
    (∃ s, run refusedThenAccepted (init [0, 1] []) = some s ∧
      s.LiveAt 1 ∧ s.Holds 1 0 ∧ s.LiveAt 3 ∧ s.Holds 3 0 ∧ ¬ s.OneAtATime) ∧
    (∃ s, run retractedThenAccepted (init [0, 1] []) = some s ∧
      s.LiveAt 1 ∧ s.Holds 1 0 ∧ s.LiveAt 2 ∧ s.Holds 2 0 ∧ ¬ s.OneAtATime) ∧
    (∃ s, run abortedThenClosed (init [0, 1] []) = some s ∧
      (∀ a, ¬ s.LiveAt a) ∧ s.inflight = true ∧ s.closeAsked = true ∧ s.maybeReap true true = s ∧
        s.isOpen = true ∧
      ¬ s.OneAtATime) := by
  refine ⟨⟨_, rfl, ?_⟩, ⟨_, rfl, ?_⟩, ?_⟩
  · refine ⟨⟨_, rfl, by decide⟩, ⟨_, rfl, by decide, rfl⟩, ⟨_, rfl, by decide⟩, ⟨_, rfl, by decide, rfl⟩,
      fun h => ?_⟩
    have heq := h.atMostOne 1 3 ⟨_, rfl, by decide⟩ ⟨_, rfl, by decide⟩
    cases heq
  · refine ⟨⟨_, rfl, by decide⟩, ⟨_, rfl, by decide, rfl⟩, ⟨_, rfl, by decide⟩, ⟨_, rfl, by decide, rfl⟩,
      fun h => ?_⟩
    have heq := h.atMostOne 1 2 ⟨_, rfl, by decide⟩ ⟨_, rfl, by decide⟩
    cases heq
  · have hidle : ∀ s, run abortedThenClosed (init [0, 1] []) = some s → ∀ a, ¬ s.LiveAt a := by
      rintro _ ⟨⟩ a ⟨r, hr, hlive⟩
      by_cases ha : a = 0
      · subst ha
        cases hr
        exact hlive.2.1 rfl
      · cases ((update_of_ne ha _ _).trans (update_of_ne ha _ _)).symm.trans hr
    exact ⟨_, rfl, hidle _ rfl, rfl, rfl, rfl, rfl, fun h => (h.flag.mp rfl).elim fun a ha => hidle _ rfl a ha⟩

end Server

end SGLang.Session
