/-
# SGLang.Disaggregation.StagingHandler — from a staging region's assignment to its release.

The prefill ranks that write the KV cache of one request each ask for a region per chunk, say when they have
written a chunk, and report success after the last one. A background thread of the decode server handles these
messages: the first request for a chunk assigns a region, the last writer's notice submits the scatter, and the
last success submits the scatter of the last chunk. The scheduler's thread polls the events of the scatters,
frees what is done, and takes the request out of the transfer queue.

The model is one decode rank with all its rooms (a room is one request's transfer), every message handled in one
step, in any order that keeps each writer's own. Regions come from the allocator of
`SGLang.Disaggregation.Staging`. What is recorded beside the server's own state is which messages have come,
which regions were assigned to which chunk, and which calls of `free` were made. `allocations_settled` says that
no chunk is assigned two regions, and that a request that has left the queue has had each of its regions freed
once. It needs two things: writers that announce every chunk but the last one, and no failure of a request that
still holds a region. The path of a failed transfer frees nothing.
-/
import Mathlib.Data.Finset.Card
import SGLang.Disaggregation.Staging

namespace SGLang.Disaggregation

open Option Function List Finset
open Relation (ReflTransGen)

/-! ## The decode server -/

/-- `StagingAllocator.ALLOC_OVERSIZED`. -/
def allocOversized : ℤ := -2

/-- An entry of `chunk_staging_infos`. -/
structure ChunkStagingInfo where
  allocId : ℤ
  offset : ℤ
  round : ℕ
  endOffset : ℤ
  numPages : ℕ
  deriving DecidableEq, Repr

/-- No region yet, or not any more. -/
def ChunkStagingInfo.blank : ChunkStagingInfo := ⟨-1, -1, 0, -1, 0⟩

/-- What `STAGING_RSP` says of a chunk. -/
structure StagingRsp where
  offset : ℤ
  round : ℕ
  endOffset : ℤ
  deriving DecidableEq, Repr

inductive KVPoll
  | failed
  | bootstrapping
  | waitingForInput
  | transferring
  | success
  deriving DecidableEq, Repr

namespace KVPoll

def toNat : KVPoll → ℕ
  | failed => 0
  | bootstrapping => 1
  | waitingForInput => 2
  | transferring => 3
  | success => 4

/-- `dist.ReduceOp.MIN`. -/
def min (p q : KVPoll) : KVPoll := if p.toNat ≤ q.toNat then p else q

def max (p q : KVPoll) : KVPoll := if p.toNat ≤ q.toNat then q else p

end KVPoll

/-- A `DecodeRequest` with the fields of its receiver. Each scatter has its own event, which is known by the
region that it scatters. -/
structure DecodeReq where
  chunkStagingInfos : List ChunkStagingInfo
  chunkEvents : List ℕ
  scatterEvent : Option ℕ
  lastScatterSubmitted : Bool
  scatterDone : Bool
  concludeState : Option KVPoll

namespace DecodeReq

/-- `send_metadata` makes the list of the chunks' regions. -/
def new : DecodeReq := ⟨[], [], none, false, false, none⟩

/-- `infos[chunk_idx] = info`, after the list has been filled up. -/
def setInfo (d : DecodeReq) (chunkIdx : ℕ) (info : ChunkStagingInfo) : DecodeReq :=
  { d with chunkStagingInfos :=
      (d.chunkStagingInfos ++ List.replicate (chunkIdx + 1 - d.chunkStagingInfos.length)
        ChunkStagingInfo.blank).set chunkIdx info }

/-- What earlier requests for the chunk have settled. -/
def recorded (d : DecodeReq) (chunkIdx : ℕ) : Option StagingRsp :=
  d.chunkStagingInfos[chunkIdx]?.bind fun info =>
    if 0 ≤ info.allocId then some ⟨info.offset, info.round, info.endOffset⟩
    else if info.offset = allocOversized then some ⟨allocOversized, 0, -1⟩
    else none

/-- `handle_staging_req`, with the bytes that the chunk takes: the allocator, the request, the region that was
assigned, if any, and the response. -/
def handleStagingReq (a : StagingAllocator) (d : DecodeReq) (chunkIdx chunkNumPages required : ℕ) :
    StagingAllocator × DecodeReq × Option ℕ × StagingRsp :=
  match d.recorded chunkIdx with
  | some rsp => (a, d, none, rsp)
  | none =>
    match a.assign required with
    | (a, none) =>
      (a, d.setInfo chunkIdx ⟨-1, allocOversized, 0, -1, chunkNumPages⟩, none, ⟨allocOversized, 0, -1⟩)
    | (a, some (allocId, offset, rnd)) =>
      (a, d.setInfo chunkIdx ⟨allocId, offset, rnd, offset + required, chunkNumPages⟩, some allocId,
        ⟨offset, rnd, offset + required⟩)

variable (d : DecodeReq)

/-- `submit_chunk_scatter`. -/
def submitChunkScatter (chunkIdx : ℕ) : DecodeReq :=
  match d.chunkStagingInfos[chunkIdx]? with
  | none => d
  | some info =>
    if info.offset < 0 ∨ info.allocId < 0 then d
    else
      { d with
        chunkEvents := d.chunkEvents ++ [info.allocId.toNat]
        chunkStagingInfos := d.chunkStagingInfos.set chunkIdx .blank }

/-- `_submit_last_scatter`; `none` is its `-1`. -/
def submitLastScatter : Option ℕ :=
  d.chunkStagingInfos.getLast?.bind fun info =>
    if info.offset < 0 ∨ info.allocId < 0 then none else some info.allocId.toNat

/-- `submit_last_scatter_async`. -/
def submitLastScatterAsync : DecodeReq :=
  match d.submitLastScatter with
  | some allocId => { d with scatterEvent := some allocId, lastScatterSubmitted := true }
  | none => { d with scatterDone := true }

/-- `is_done`. -/
def isDone : Bool := d.scatterDone && d.chunkEvents.isEmpty

/-- The regions that `advance_scatter` frees, with the events that are over. -/
def finished (query : ℕ → Bool) : List ℕ :=
  d.chunkEvents.reverse.filter query ++
    if d.lastScatterSubmitted then (d.scatterEvent.filter query).toList else []

/-- What `advance_scatter` leaves of the request. -/
def advance (query : ℕ → Bool) : DecodeReq :=
  let d' := { d with chunkEvents := d.chunkEvents.filter fun i => !query i }
  if d.lastScatterSubmitted && (d.scatterEvent.filter query).isSome then
    { d' with scatterEvent := none, scatterDone := true }
  else d'

/-- `poll` of the receiver, with the status of the room and whether the time to wait is over. -/
def poll (status : Option KVPoll) (timedOut : Bool) : Option (DecodeReq × KVPoll) :=
  match d.concludeState with
  | some state => some (d, state)
  | none =>
    status.map fun status =>
      if status = .success ∨ status = .failed then ({ d with concludeState := some status }, status)
      else if status = .waitingForInput ∧ timedOut then ({ d with concludeState := some .failed }, .failed)
      else (d, status)

/-- `poll_and_all_reduce_with_staging`, with the smallest of the other ranks' values. -/
def pollWithStaging (status : Option KVPoll) (timedOut : Bool) (others : KVPoll) :
    Option (DecodeReq × KVPoll) :=
  (d.poll status timedOut).map fun (d, raw) =>
    (d, KVPoll.min (if raw = .success && !d.isDone then .transferring else raw) others)

end DecodeReq

open DecodeReq

/-- What the server knows of a room: `_room_to_decode_req`, `_chunk_writer_counts` (how many have come),
`request_status` and `prefill_response_tracker`. Then what is recorded for the proofs: the messages that have
come, as (writer, chunk) pairs, the regions assigned, as (region, chunk) pairs, and whether the request has left
the queue. -/
structure Room where
  decodeReq : Option DecodeReq
  chunkWriterCounts : ℕ → ℕ
  requestStatus : Option KVPoll
  prefillResponses : Finset ℕ
  requested : Finset (ℕ × ℕ)
  ready : Finset (ℕ × ℕ)
  reported : Finset ℕ
  assigned : List (ℕ × ℕ)
  left : Bool

namespace Room

/-- A room after the bootstrap; the request is not registered yet. -/
def init : Room := ⟨none, fun _ => 0, some .waitingForInput, ∅, ∅, ∅, ∅, [], false⟩

variable (r : Room)

/-- `update_status`. -/
def updateStatus (status : KVPoll) : Room :=
  { r with requestStatus := some <|
      match r.requestStatus with
      | none => status
      | some old => if status = .failed then .failed else old.max status }

/-- `CHUNK_READY` in `decode_thread`. -/
def chunkReady (numWriters chunkIdx : ℕ) : Room :=
  let writersArrived := r.chunkWriterCounts chunkIdx + 1
  match r.decodeReq with
  | none => { r with chunkWriterCounts := Function.update r.chunkWriterCounts chunkIdx writersArrived }
  | some d =>
    if numWriters ≤ writersArrived then
      { r with
        decodeReq := some (d.submitChunkScatter chunkIdx)
        chunkWriterCounts := Function.update r.chunkWriterCounts chunkIdx 0 }
    else { r with chunkWriterCounts := Function.update r.chunkWriterCounts chunkIdx writersArrived }

/-- A status `Success` in `decode_thread`. -/
def successFrom (expectedResponseNum prefillRank : ℕ) : Room :=
  if r.requestStatus.isSome then
    let r := { r with prefillResponses := insert prefillRank r.prefillResponses }
    if r.prefillResponses.card = expectedResponseNum then
      updateStatus
        { r with
          decodeReq := r.decodeReq.map submitLastScatterAsync
          chunkWriterCounts := fun _ => 0 } .success
    else r
  else r

/-- The request leaves the queue: `clear` and `unregister_decode_req`. -/
def leave : Room :=
  { r with decodeReq := none, requestStatus := none, prefillResponses := ∅, left := true }

/-- `pop_transferred` for the request of the room. -/
def popTransferred (timedOut : Bool) (others : KVPoll) (metadataReady : Bool) : Option Room :=
  (r.decodeReq.bind fun d => d.pollWithStaging r.requestStatus timedOut others).map fun (d, poll) =>
    if poll = .failed ∨ poll = .success ∧ metadataReady then r.leave else { r with decodeReq := some d }

end Room

/-- The two sides' sizes: how many ranks the decode server has, and for each room how many the prefill server
has, and how many chunks the request is sent in. -/
structure Setup where
  totalSize : ℕ
  decodeTp : ℕ
  prefillTp : ℕ → ℕ
  numChunks : ℕ → ℕ
  decodeTp_pos : 0 < decodeTp

namespace Setup

variable (u : Setup)

/-- `num_writers_for`. -/
def numWritersFor (room : ℕ) : ℕ :=
  if u.decodeTp < u.prefillTp room then u.prefillTp room / max 1 u.decodeTp else 1

/-- `required_prefill_response_num`. -/
def requiredPrefillResponseNum (room : ℕ) : ℕ :=
  if u.decodeTp = u.prefillTp room then 1
  else if u.prefillTp room < u.decodeTp then 1
  else u.prefillTp room / u.decodeTp

theorem requiredPrefillResponseNum_eq (room : ℕ) :
    u.requiredPrefillResponseNum room = u.numWritersFor room := by
  unfold requiredPrefillResponseNum numWritersFor
  have hpos := u.decodeTp_pos
  rcases Nat.lt_trichotomy u.decodeTp (u.prefillTp room) with h | h | h
  · rw [if_neg (by omega), if_neg (by omega), if_pos h, max_eq_right hpos]
  · rw [if_pos h, if_neg (by omega)]
  · rw [if_neg (by omega), if_pos h, if_neg (by omega)]

end Setup

/-- The decode server; `freed` lists the calls of `free`. -/
structure DecodeServer where
  allocator : StagingAllocator
  rooms : ℕ → Room
  freed : List ℕ

/-- What can happen: the request of a room is registered, a message of a writer comes, the transfer fails or is
aborted, or the scheduler polls the events or the room. -/
inductive StagingEvent
  | register (room : ℕ)
  | stagingReq (room writer chunkIdx chunkNumPages required : ℕ)
  | chunkReady (room writer chunkIdx : ℕ)
  | success (room writer : ℕ)
  | failed (room : ℕ)
  | abort (room : ℕ)
  | advance (room : ℕ) (query : ℕ → Bool)
  | pop (room : ℕ) (timedOut : Bool) (others : KVPoll) (metadataReady : Bool)

namespace DecodeServer

def init (u : Setup) : DecodeServer := ⟨.init u.totalSize, fun _ => .init, []⟩

variable (s : DecodeServer)

def setRoom (room : ℕ) (r : Room) : DecodeServer :=
  { s with rooms := Function.update s.rooms room r }

/-- `_handle_staging_req`. -/
def stagingReq (room writer chunkIdx chunkNumPages required : ℕ) : DecodeServer :=
  let r := { s.rooms room with requested := insert (writer, chunkIdx) (s.rooms room).requested }
  match r.decodeReq with
  | none => s.setRoom room r
  | some d =>
    let (a, d, allocId, _) := d.handleStagingReq s.allocator chunkIdx chunkNumPages required
    { s with allocator := a }.setRoom room
      { r with decodeReq := some d, assigned := r.assigned ++ allocId.toList.map (·, chunkIdx) }

/-- `advance_scatter`, unless all is done. -/
def advanceScatter (room : ℕ) (query : ℕ → Bool) : Option DecodeServer :=
  (s.rooms room).decodeReq.bind fun d =>
    if d.isDone then some s
    else ((d.finished query).foldlM StagingAllocator.free s.allocator).map fun a =>
      { s with allocator := a, freed := s.freed ++ d.finished query }.setRoom room
        { s.rooms room with decodeReq := some (d.advance query) }

/-- One event; nothing if the code raises, or if the request is not in the queue. -/
def step (u : Setup) (s : DecodeServer) : StagingEvent → Option DecodeServer
  | .register room => some (s.setRoom room { s.rooms room with decodeReq := some .new })
  | .stagingReq room writer chunkIdx chunkNumPages required =>
    some (s.stagingReq room writer chunkIdx chunkNumPages required)
  | .chunkReady room writer chunkIdx =>
    let r := { s.rooms room with ready := insert (writer, chunkIdx) (s.rooms room).ready }
    some (s.setRoom room (r.chunkReady (u.numWritersFor room) chunkIdx))
  | .success room writer =>
    let r := { s.rooms room with reported := insert writer (s.rooms room).reported }
    some (s.setRoom room (r.successFrom (u.requiredPrefillResponseNum room) writer))
  | .failed room => some (s.setRoom room ((s.rooms room).updateStatus .failed))
  | .abort room => (s.rooms room).decodeReq.map fun d =>
    s.setRoom room { s.rooms room with decodeReq := some { d with concludeState := some .failed } }
  | .advance room query => s.advanceScatter room query
  | .pop room timedOut others metadataReady =>
    ((s.rooms room).popTransferred timedOut others metadataReady).map (s.setRoom room)

/-- What the writers do: each asks once for each chunk, announces a chunk (but the last one) after it has asked
for it, and reports once, when it has asked for all. A request is registered once. -/
def Allowed (u : Setup) (s : DecodeServer) : StagingEvent → Prop
  | .register room => (s.rooms room).decodeReq = none ∧ (s.rooms room).left = false
  | .stagingReq room writer chunkIdx _ _ =>
    writer < u.numWritersFor room ∧ chunkIdx < u.numChunks room ∧ (writer, chunkIdx) ∉ (s.rooms room).requested
  | .chunkReady room writer chunkIdx =>
    writer < u.numWritersFor room ∧ chunkIdx + 1 < u.numChunks room ∧
      (writer, chunkIdx) ∈ (s.rooms room).requested ∧ (writer, chunkIdx) ∉ (s.rooms room).ready
  | .success room writer =>
    writer < u.numWritersFor room ∧ writer ∉ (s.rooms room).reported ∧
      ∀ c < u.numChunks room, (writer, c) ∈ (s.rooms room).requested
  | _ => True

/-- No region of the room is held. -/
def NoneHeld (s : DecodeServer) (room : ℕ) : Prop := ∀ x ∈ (s.rooms room).assigned, x.1 ∈ s.freed

/-- A writer reports success only if it has announced every chunk but the last one, and a transfer fails only
when no region of the room is held. -/
def Heeds (u : Setup) (s : DecodeServer) : StagingEvent → Prop
  | .success room writer => ∀ c, c + 1 < u.numChunks room → (writer, c) ∈ (s.rooms room).ready
  | .pop room timedOut others _ =>
    ∀ d d', (s.rooms room).decodeReq = some d →
      d.pollWithStaging (s.rooms room).requestStatus timedOut others = some (d', .failed) → s.NoneHeld room
  | _ => True

/-- An event that the writers may bring about. -/
def Step (u : Setup) (s s' : DecodeServer) : Prop := ∃ e, s.Allowed u e ∧ s.step u e = some s'

/-- Such an event that heeds the condition. -/
def HeedingStep (u : Setup) (s s' : DecodeServer) : Prop := ∃ e, s.Allowed u e ∧ s.Heeds u e ∧
  s.step u e = some s'

/-- No chunk was assigned two regions, and each region of a request that has left was freed once and is not
allocated any more. -/
def Settled (s : DecodeServer) : Prop := ∀ room,
  ((s.rooms room).assigned.map Prod.snd).Nodup ∧
    ((s.rooms room).left = true → ∀ x ∈ (s.rooms room).assigned,
      s.freed.count x.1 = 1 ∧ x.1 ∉ s.allocator.allocations)

end DecodeServer

/-! ## The allocator -/

namespace StagingAllocator

variable {a a' : StagingAllocator}

theorem assign_cases (a : StagingAllocator) (n : ℕ) : a.assign n = (a, none) ∨
    ∃ a' offset rnd, a.assign n = (a', some (a.nextAllocId, offset, rnd)) ∧ a'.nextAllocId = a.nextAllocId + 1 ∧
      ∀ j, j ∈ a'.allocations ↔ j = a.nextAllocId ∨ j ∈ a.allocations := by
  unfold assign
  by_cases hn : a.totalSize < n
  · exact .inl (if_pos hn)
  · rw [if_neg hn]
    exact .inr ⟨_, _, _, rfl, rfl, fun j => AList.mem_insert a.allocations⟩

theorem free_eq_some {i : ℕ} (h : a.free i = some a') :
    a'.nextAllocId = a.nextAllocId ∧ ∀ j, j ∈ a'.allocations ↔ j ≠ i ∧ j ∈ a.allocations := by
  unfold free at h
  by_cases hi : i ∉ a.allocations
  · rw [if_pos hi] at h
    cases h
    refine ⟨rfl, fun j => ⟨fun hj => ⟨?_, hj⟩, And.right⟩⟩
    rintro rfl
    exact hi hj
  · rw [if_neg hi] at h
    have hmem : ∀ j, j ∈ a.allocations.erase i ↔ j ≠ i ∧ j ∈ a.allocations := fun j => AList.mem_erase
    dsimp only at h
    split at h
    · cases h
      exact ⟨rfl, hmem⟩
    · split at h
      · cases h
        exact ⟨rfl, hmem⟩
      · split at h
        · cases h
        · cases h
          exact ⟨rfl, hmem⟩

theorem freeAll_eq_some : ∀ {ids : List ℕ} {a : StagingAllocator}, ids.foldlM free a = some a' →
    a'.nextAllocId = a.nextAllocId ∧ ∀ j, j ∈ a'.allocations ↔ j ∉ ids ∧ j ∈ a.allocations := by
  intro ids
  induction ids with
  | nil =>
    intro a h
    cases h
    simp
  | cons i ids ih =>
    intro a h
    obtain ⟨b, hb, hrest⟩ := bind_eq_some_iff.mp h
    obtain ⟨hnext, hmem⟩ := ih hrest
    obtain ⟨hnext', hmem'⟩ := free_eq_some hb
    refine ⟨hnext.trans hnext', fun j => ?_⟩
    rw [hmem, hmem', List.mem_cons]
    tauto

end StagingAllocator

/-! ## One request -/

namespace DecodeReq

variable {d : DecodeReq} {c c' : ℕ} {info x : ChunkStagingInfo}

/-- The regions whose scatter is on its way. -/
def pending (d : DecodeReq) : List ℕ := d.chunkEvents ++ d.scatterEvent.toList

/-- All that is to be scattered has been submitted. -/
def submitted (d : DecodeReq) : Bool := d.lastScatterSubmitted || d.scatterDone

theorem setInfo_self (d : DecodeReq) (c : ℕ) (info : ChunkStagingInfo) :
    (d.setInfo c info).chunkStagingInfos[c]? = some info := by
  unfold setInfo
  rw [getElem?_set_self]
  rw [length_append, length_replicate]
  omega

theorem setInfo_of_ne (hne : c' ≠ c) (h : d.chunkStagingInfos[c']? = some x) :
    (d.setInfo c info).chunkStagingInfos[c']? = some x := by
  unfold setInfo
  rw [getElem?_set_ne hne.symm]
  exact getElem?_append_left (List.getElem?_eq_some_iff.mp h).1 ▸ h

theorem setInfo_cases (h : (d.setInfo c info).chunkStagingInfos[c']? = some x) :
    c' = c ∧ x = info ∨ c' ≠ c ∧ (d.chunkStagingInfos[c']? = some x ∨ x = .blank) := by
  by_cases hc : c' = c
  · subst hc
    rw [setInfo_self] at h
    exact .inl ⟨rfl, (some.inj h).symm⟩
  · refine .inr ⟨hc, ?_⟩
    unfold setInfo at h
    rw [getElem?_set_ne (Ne.symm hc)] at h
    rcases Nat.lt_or_ge c' d.chunkStagingInfos.length with hlt | hge
    · rw [getElem?_append_left hlt] at h
      exact .inl h
    · rw [getElem?_append_right hge] at h
      exact .inr (eq_of_mem_replicate (mem_of_getElem? h))

theorem length_setInfo {C : ℕ} (hc : c < C) (h : d.chunkStagingInfos.length ≤ C) :
    (d.setInfo c info).chunkStagingInfos.length ≤ C := by
  unfold setInfo
  rw [length_set, length_append, length_replicate]
  omega

theorem recorded_eq_none (h : d.recorded c = none) (hx : d.chunkStagingInfos[c]? = some x) : x.allocId < 0 := by
  unfold recorded at h
  rw [hx, bind_some] at h
  by_contra hge
  rw [if_pos (not_lt.mp hge)] at h
  cases h

/-- A request for a chunk finds it settled, or it is too large, or it is assigned the next region. -/
theorem handleStagingReq_cases (a : StagingAllocator) (d : DecodeReq) (c chunkNumPages required : ℕ) :
    (∃ rsp, d.handleStagingReq a c chunkNumPages required = (a, d, none, rsp)) ∨ d.recorded c = none ∧
      ∃ (a' : StagingAllocator) (x : ChunkStagingInfo) (o : Option ℕ) (rsp : StagingRsp),
        d.handleStagingReq a c chunkNumPages required = (a', d.setInfo c x, o, rsp) ∧
        (o = none ∧ a' = a ∧ x.allocId < 0 ∨
          o = some a.nextAllocId ∧ x.allocId = a.nextAllocId ∧ 0 ≤ x.offset ∧
            a'.nextAllocId = a.nextAllocId + 1 ∧
            ∀ j, j ∈ a'.allocations ↔ j = a.nextAllocId ∨ j ∈ a.allocations) := by
  unfold handleStagingReq
  cases hrec : d.recorded c with
  | some rsp => exact .inl ⟨rsp, rfl⟩
  | none =>
    rcases a.assign_cases required with heq | ⟨a', offset, rnd, heq, hnext, hmem⟩
    · rw [heq]
      exact .inr ⟨rfl, a, _, _, _, rfl, .inl ⟨rfl, rfl, Int.negSucc_lt_zero 0⟩⟩
    · rw [heq]
      exact .inr ⟨rfl, a', _, _, _, rfl, .inr ⟨rfl, rfl, Int.natCast_nonneg offset, hnext, hmem⟩⟩

theorem submitChunkScatter_cases (d : DecodeReq) (c : ℕ) :
    (∃ x, d.chunkStagingInfos[c]? = some x ∧ 0 ≤ x.offset ∧ 0 ≤ x.allocId ∧ d.submitChunkScatter c = { d with
        chunkEvents := d.chunkEvents ++ [x.allocId.toNat]
        chunkStagingInfos := d.chunkStagingInfos.set c .blank }) ∨
    (d.submitChunkScatter c = d ∧ ∀ x, d.chunkStagingInfos[c]? = some x → x.offset < 0 ∨ x.allocId < 0) := by
  unfold submitChunkScatter
  cases hx : d.chunkStagingInfos[c]? with
  | none => exact .inr ⟨rfl, nofun⟩
  | some x =>
    by_cases hneg : x.offset < 0 ∨ x.allocId < 0
    · refine .inr ⟨if_pos hneg, ?_⟩
      rintro y ⟨⟩
      exact hneg
    · refine .inl ⟨x, rfl, ?_, ?_, if_neg hneg⟩
      · omega
      · omega

end DecodeReq

/-! ## One room -/

/-- A request in the queue. Until its last scatter is submitted, a region is in the list, and then some writer
has not announced the chunk yet; or all have, and the region is being scattered or freed. -/
structure ReqInv (W C : ℕ) (freed : List ℕ) (r : Room) (d : DecodeReq) : Prop where
  length_le : d.chunkStagingInfos.length ≤ C
  held : d.submitted = false → ∀ c x, d.chunkStagingInfos[c]? = some x → 0 ≤ x.allocId →
    0 ≤ x.offset ∧ (x.allocId.toNat, c) ∈ r.assigned ∧ x.allocId.toNat ∉ d.pending ∧ x.allocId.toNat ∉ freed ∧
      ∃ w < W, (w, c) ∉ r.ready
  placed : d.submitted = false → ∀ i c, (i, c) ∈ r.assigned →
    (∃ x, d.chunkStagingInfos[c]? = some x ∧ x.allocId = i) ∨
      (i ∈ d.pending ∨ i ∈ freed) ∧ ∀ w < W, (w, c) ∈ r.ready
  allSubmitted : d.submitted = true → (∀ w < W, w ∈ r.reported) ∧ ∀ i c, (i, c) ∈ r.assigned →
    i ∈ d.pending ∨ i ∈ freed
  nodup : d.pending.Nodup
  pending : ∀ i ∈ d.pending, (∃ c, (i, c) ∈ r.assigned) ∧ i ∉ freed
  last : ∀ i, d.scatterEvent = some i → d.lastScatterSubmitted = true ∧ d.scatterDone = false

structure RoomInv (W C : ℕ) (freed : List ℕ) (r : Room) : Prop where
  requested : ∀ w c, (w, c) ∈ r.requested → w < W ∧ c < C
  ready : ∀ w c, (w, c) ∈ r.ready → (w, c) ∈ r.requested ∧ c + 1 < C
  reported : ∀ w ∈ r.reported, w < W ∧ (∀ c < C, (w, c) ∈ r.requested) ∧ ∀ c, c + 1 < C → (w, c) ∈ r.ready
  counts : ∀ c, (∃ w < W, (w, c) ∉ r.ready) → r.chunkWriterCounts c = (r.ready.filter (·.2 = c)).card
  responses : r.prefillResponses ⊆ r.reported
  ids : (r.assigned.map Prod.fst).Nodup
  chunks : (r.assigned.map Prod.snd).Nodup
  out : r.decodeReq = none → (r.left = false → r.assigned = []) ∧ ∀ x ∈ r.assigned, x.1 ∈ freed
  queued : ∀ d, r.decodeReq = some d → r.left = false ∧ ReqInv W C freed r d

variable {W C : ℕ} {freed freed' : List ℕ} {r r' : Room} {d d' : DecodeReq} {S : Finset (ℕ × ℕ)}
  {p others : KVPoll}
  {status : Option KVPoll} {timedOut metadataReady : Bool}

/-- What other rooms free does not matter. -/
theorem ReqInv.frame (h : ReqInv W C freed r d) (hsame : ∀ x ∈ r.assigned, x.1 ∈ freed' ↔ x.1 ∈ freed) :
    ReqInv W C freed' r d where
  length_le := h.length_le
  held hs c x hx hpos := by
    obtain ⟨hoff, hmem, hpend, hfree, hw⟩ := h.held hs c x hx hpos
    exact ⟨hoff, hmem, hpend, fun hf => hfree ((hsame _ hmem).mp hf), hw⟩
  placed hs i c hic := by
    rcases h.placed hs i c hic with hx | ⟨hi, hw⟩
    · exact .inl hx
    · exact .inr ⟨hi.imp_right (hsame _ hic).mpr, hw⟩
  allSubmitted hs := ⟨(h.allSubmitted hs).1, fun i c hic =>
    ((h.allSubmitted hs).2 i c hic).imp_right (hsame _ hic).mpr⟩
  nodup := h.nodup
  pending i hi := by
    obtain ⟨⟨c, hic⟩, hfree⟩ := h.pending i hi
    exact ⟨⟨c, hic⟩, fun hf => hfree ((hsame _ hic).mp hf)⟩
  last := h.last

section

variable (h : RoomInv W C freed r)
include h

theorem RoomInv.frame (hsame : ∀ x ∈ r.assigned, x.1 ∈ freed' ↔ x.1 ∈ freed) : RoomInv W C freed' r :=
  { h with
    out := fun hd => ⟨(h.out hd).1, fun x hx => (hsame x hx).mpr ((h.out hd).2 x hx)⟩
    queued := fun d hd => ⟨(h.queued d hd).1, (h.queued d hd).2.frame hsame⟩ }

omit h in
theorem RoomInv.init : RoomInv W C freed Room.init where
  requested _ _ h := absurd h (notMem_empty _)
  ready _ _ h := absurd h (notMem_empty _)
  reported _ h := absurd h (notMem_empty _)
  counts _ _ := rfl
  responses := empty_subset _
  ids := nodup_nil
  chunks := nodup_nil
  out _ := ⟨fun _ => rfl, nofun⟩
  queued := nofun

theorem RoomInv.register (hnone : r.decodeReq = none) (hleft : r.left = false) :
    RoomInv W C freed { r with decodeReq := some .new } := by
  have hnil : r.assigned = [] := (h.out hnone).1 hleft
  refine { h with out := nofun, queued := ?_ }
  rintro _ ⟨⟩
  refine ⟨hleft, ?_⟩
  exact {
    length_le := Nat.zero_le _
    held := nofun
    placed := fun _ i c hic => by
      rw [hnil] at hic
      cases hic
    allSubmitted := nofun
    nodup := nodup_nil
    pending := nofun
    last := nofun }

/-- The status of the room plays no part, nor what the receiver has concluded. -/
theorem RoomInv.updateStatus (status : KVPoll) : RoomInv W C freed (r.updateStatus status) :=
  { h with queued := fun d hd => ⟨(h.queued d hd).1, { (h.queued d hd).2 with }⟩ }

theorem RoomInv.conclude (hd : r.decodeReq = some d) (state : Option KVPoll) :
    RoomInv W C freed { r with decodeReq := some { d with concludeState := state } } := by
  refine { h with out := nofun, queued := ?_ }
  rintro _ ⟨⟩
  exact ⟨(h.queued d hd).1, { (h.queued d hd).2 with }⟩

/-! ### `STAGING_REQ` -/

theorem RoomInv.request {w c : ℕ} (hw : w < W) (hc : c < C) :
    RoomInv W C freed { r with requested := insert (w, c) r.requested } := by
  refine { h with requested := ?_, ready := ?_, reported := ?_, queued := ?_ }
  · intro w' c' hmem
    rcases mem_insert.mp hmem with heq | hmem
    · cases heq
      exact ⟨hw, hc⟩
    · exact h.requested w' c' hmem
  · intro w' c' hmem
    exact ⟨mem_insert_of_mem (h.ready w' c' hmem).1, (h.ready w' c' hmem).2⟩
  · intro w' hw'
    obtain ⟨hlt, hreq, hready⟩ := h.reported w' hw'
    exact ⟨hlt, fun c' hc' => mem_insert_of_mem (hreq c' hc'), hready⟩
  · intro d hd
    exact ⟨(h.queued d hd).1, { (h.queued d hd).2 with }⟩

/-- While a writer has not reported, the last scatter is not submitted. -/
theorem RoomInv.not_submitted (hd : r.decodeReq = some d) {w : ℕ} (hw : w < W)
    (hnot : w ∉ r.reported) : d.submitted = false := by
  by_contra hs
  exact hnot (((h.queued d hd).2.allSubmitted (eq_true_of_ne_false hs)).1 w hw)

/-- **A chunk is assigned one region**: if the region it had is not in the list any more, every writer has
announced the chunk, and none is left to ask for it. A chunk too large for the ring is assigned none. -/
theorem RoomInv.assign (hd : r.decodeReq = some d) {w c : ℕ} (hw : w < W) (hc : c < C)
    (hnot : (w, c) ∉ r.requested) (hrec : d.recorded c = none) {x : ChunkStagingInfo} {o : Option ℕ}
    (hx : 0 ≤ x.allocId → 0 ≤ x.offset ∧ o = some x.allocId.toNat)
    (ho : ∀ i ∈ o, x.allocId = i ∧ (∀ y ∈ r.assigned, y.1 ≠ i) ∧ i ∉ freed) :
    RoomInv W C freed { r with
      decodeReq := some (d.setInfo c x), assigned := r.assigned ++ o.toList.map (·, c) } := by
  have hreq := (h.queued d hd).2
  have hs := h.not_submitted hd hw fun hrep => hnot ((h.reported w hrep).2.1 c hc)
  have hmissing : (w, c) ∉ r.ready := fun hr => hnot (h.ready w c hr).1
  have hchunk : ∀ y ∈ r.assigned, y.2 ≠ c := by
    rintro ⟨j, c'⟩ hj hc'
    obtain rfl : c' = c := hc'
    rcases hreq.placed hs j c' hj with ⟨y, hy, hid⟩ | ⟨_, hready⟩
    · have hneg := recorded_eq_none hrec hy
      omega
    · exact hmissing (hready w hw)
  have hnodup : ∀ {f : ℕ × ℕ → ℕ}, (r.assigned.map f).Nodup → (∀ i ∈ o, ∀ y ∈ r.assigned, f y ≠ f (i, c)) →
      ((r.assigned ++ o.toList.map (·, c)).map f).Nodup := by
    intro f hf hne
    cases o with
    | none => simpa using hf
    | some i =>
      rw [map_append, nodup_append]
      refine ⟨hf, nodup_singleton _, fun j hj k hk => ?_⟩
      obtain ⟨y, hy, rfl⟩ := mem_map.mp hj
      exact List.mem_singleton.mp hk ▸ hne i rfl y hy
  refine { h with ids := ?_, chunks := ?_, out := nofun, queued := ?_ }
  · exact hnodup h.ids fun i hi => (ho i hi).2.1
  · exact hnodup h.chunks fun _ _ => hchunk
  rintro _ ⟨⟩
  refine ⟨(h.queued d hd).1, {
    hreq with length_le := ?_, held := ?_, placed := ?_, allSubmitted := ?_, pending := ?_ }⟩
  · exact length_setInfo hc hreq.length_le
  · intro _ c' y hy hpos
    rcases setInfo_cases hy with ⟨rfl, rfl⟩ | ⟨_, hy | rfl⟩
    · obtain ⟨hoff, hid⟩ := hx hpos
      obtain ⟨-, hfresh, hfree⟩ := ho _ hid
      refine ⟨hoff, mem_append_right _ (by simp [hid]), fun hp => ?_, hfree, w, hw, hmissing⟩
      obtain ⟨⟨c'', hold⟩, -⟩ := hreq.pending _ hp
      exact hfresh _ hold rfl
    · obtain ⟨h1, h2, h3⟩ := hreq.held hs c' y hy hpos
      exact ⟨h1, mem_append_left _ h2, h3⟩
    · exact absurd hpos (by decide)
  · intro _ j c' hj
    rcases mem_append.mp hj with hj | hj
    · rcases hreq.placed hs j c' hj with ⟨y, hy, hid⟩ | hready
      · exact .inl ⟨y, setInfo_of_ne (hchunk _ hj) hy, hid⟩
      · exact .inr hready
    · obtain ⟨i, hi, heq⟩ := mem_map.mp hj
      cases heq
      exact .inl ⟨x, setInfo_self .., (ho j (mem_toList.mp hi)).1⟩
  · intro hsub
    exact absurd hs (ne_false_of_eq_true hsub)
  · intro j hj
    obtain ⟨⟨c', hold⟩, hf⟩ := hreq.pending j hj
    exact ⟨⟨c', mem_append_left _ hold⟩, hf⟩

end

/-! ### `CHUNK_READY` -/

/-- As many writers have announced the chunk as there are, exactly when all have. -/
theorem le_card_announced {c : ℕ} (hlt : ∀ w c, (w, c) ∈ S → w < W) :
    W ≤ (S.filter (·.2 = c)).card ↔ ∀ w < W, (w, c) ∈ S := by
  have himage : S.filter (·.2 = c) = ((Finset.range W).filter fun w => (w, c) ∈ S).image (·, c) := by
    ext ⟨w, c'⟩
    simp only [Finset.mem_filter, mem_image, Finset.mem_range, Prod.mk.injEq]
    constructor
    · rintro ⟨hmem, rfl⟩
      exact ⟨w, ⟨hlt w c' hmem, hmem⟩, rfl, rfl⟩
    · rintro ⟨_, ⟨-, hmem⟩, rfl, rfl⟩
      exact ⟨hmem, rfl⟩
  have hle := card_filter_le (range W) fun w => (w, c) ∈ S
  have hiff := hle.ge_iff_eq.trans card_filter_eq_iff
  rw [himage, card_image_of_injective _ (Prod.mk_left_injective c)]
  simpa using hiff

theorem card_announced {w c : ℕ} (h : (w, c) ∉ S) :
    ((insert (w, c) S).filter (·.2 = c)).card = (S.filter (·.2 = c)).card + 1 := by
  rw [filter_insert, if_pos rfl, card_insert_of_notMem]
  exact fun hmem => h (mem_filter.mp hmem).1

theorem card_announced_of_ne {w c c' : ℕ} (h : c ≠ c') :
    ((insert (w, c) S).filter (·.2 = c')).card = (S.filter (·.2 = c')).card := by
  rw [filter_insert, if_neg h]

section

variable (h : ReqInv W C freed r d)
include h

theorem ReqInv.scatterEvent_none (hs : d.submitted = false) : d.scatterEvent = none := by
  rcases hev : d.scatterEvent with _ | i
  · rfl
  · unfold submitted at hs
    rw [(h.last i hev).1] at hs
    cases hs

omit h in
/-- The announcement of another chunk. -/
theorem not_announced {w w' c c' : ℕ} (hc : c' ≠ c) (h : (w', c') ∉ S) : (w', c') ∉ insert (w, c) S := by
  simp [hc, h]

/-- One more writer has announced the chunk, but not all have, or it has no region. -/
theorem ReqInv.announce (hs : d.submitted = false) {w c : ℕ}
    (hmissing : ∀ x, d.chunkStagingInfos[c]? = some x → 0 ≤ x.allocId →
      ∃ w' < W, (w', c) ∉ insert (w, c) r.ready) :
    ReqInv W C freed { r with ready := insert (w, c) r.ready } d := by
  refine { h with held := ?_, placed := ?_ }
  · intro _ c' x hx hpos
    obtain ⟨hoff, hmem, hpend, hfree, w', hw', hnot⟩ := h.held hs c' x hx hpos
    refine ⟨hoff, hmem, hpend, hfree, ?_⟩
    by_cases hc : c' = c
    · subst hc
      exact hmissing x hx hpos
    · exact ⟨w', hw', not_announced hc hnot⟩
  · intro _ i c' hic
    exact (h.placed hs i c' hic).imp_right fun hready => ⟨hready.1, fun w' hw' =>
      mem_insert_of_mem (hready.2 w' hw')⟩

/-- One more scatter on its way. -/
theorem ReqInv.push {i c : ℕ} (hpending : d'.pending = d.pending ++ [i])
    (hnew : i ∉ d.pending) (hmem : (i, c) ∈ r.assigned) (hfree : i ∉ freed) :
    d'.pending.Nodup ∧ ∀ j ∈ d'.pending, (∃ c, (j, c) ∈ r.assigned) ∧ j ∉ freed := by
  rw [hpending]
  refine ⟨h.nodup.append (nodup_singleton _) (by simpa using hnew), fun j hj => ?_⟩
  rcases mem_append.mp hj with hj | hj
  · exact h.pending j hj
  · exact List.mem_singleton.mp hj ▸ ⟨⟨c, hmem⟩, hfree⟩

/-- All writers have announced the chunk: if it has a region, its scatter is submitted. -/
theorem ReqInv.scatter (hs : d.submitted = false) (hids : (r.assigned.map Prod.fst).Nodup)
    {w c : ℕ} (hfull : ∀ w' < W, (w', c) ∈ insert (w, c) r.ready) :
    ReqInv W C freed { r with ready := insert (w, c) r.ready } (d.submitChunkScatter c) := by
  rcases d.submitChunkScatter_cases c with ⟨x, hx, hoff, hpos, heq⟩ | ⟨heq, hneg⟩
  · rw [heq]
    obtain ⟨-, hmem, hnew, hfree, -⟩ := h.held hs c x hx hpos
    have hpending : DecodeReq.pending { d with
        chunkEvents := d.chunkEvents ++ [x.allocId.toNat]
        chunkStagingInfos := d.chunkStagingInfos.set c .blank } = d.pending ++ [x.allocId.toNat] := by
      simp [DecodeReq.pending, h.scatterEvent_none hs]
    have hlookup : ∀ {c' y}, (d.chunkStagingInfos.set c .blank)[c']? = some y → 0 ≤ y.allocId →
        c' ≠ c ∧ d.chunkStagingInfos[c']? = some y := by
      intro c' y hy hpos
      by_cases hc : c' = c
      · subst hc
        rw [getElem?_set_self (List.getElem?_eq_some_iff.mp hx).1] at hy
        cases hy
        exact absurd hpos (by decide)
      · rw [getElem?_set_ne (Ne.symm hc)] at hy
        exact ⟨hc, hy⟩
    exact {
      length_le := by
        rw [length_set]
        exact h.length_le
      held := fun _ c' y hy hpos' => by
        obtain ⟨hc, hy⟩ := hlookup hy hpos'
        obtain ⟨hoff', hmem', hpend', hfree', w', hw', hnot⟩ := h.held hs c' y hy hpos'
        refine ⟨hoff', hmem', ?_, hfree', w', hw', not_announced hc hnot⟩
        rw [hpending, mem_append, List.mem_singleton]
        rintro (hp | hsame)
        · exact hpend' hp
        · exact hc (congrArg Prod.snd (inj_on_of_nodup_map hids hmem' hmem hsame))
      placed := fun _ i c' hic => by
        rw [hpending, mem_append, List.mem_singleton]
        by_cases hc : c' = c
        · subst hc
          refine .inr ⟨?_, hfull⟩
          rcases h.placed hs i c' hic with ⟨y, hy, hi⟩ | ⟨hi | hi, -⟩
          · rw [hx] at hy
            cases hy
            exact .inl (.inr (by omega))
          · exact .inl (.inl hi)
          · exact .inr hi
        · rcases h.placed hs i c' hic with ⟨y, hy, hi⟩ | ⟨hi, hready⟩
          · refine .inl ⟨y, ?_, hi⟩
            rw [getElem?_set_ne (Ne.symm hc)]
            exact hy
          · exact .inr ⟨hi.imp_left .inl, fun w' hw' => mem_insert_of_mem (hready w' hw')⟩
      allSubmitted := fun hsub => absurd hs (ne_false_of_eq_true hsub)
      nodup := (h.push hpending hnew hmem hfree).1
      pending := (h.push hpending hnew hmem hfree).2
      last := h.last }
  · rw [heq]
    refine h.announce hs fun y hy hpos => ?_
    have hoff := (h.held hs c y hy hpos).1
    have := hneg y hy
    omega

omit h in
theorem RoomInv.chunkReady (h : RoomInv W C freed r) {w c : ℕ} (hw : w < W) (hc : c + 1 < C)
    (hreq : (w, c) ∈ r.requested) (hnot : (w, c) ∉ r.ready) :
    RoomInv W C freed (Room.chunkReady { r with ready := insert (w, c) r.ready } W c) := by
  have hlt : ∀ w' c', (w', c') ∈ insert (w, c) r.ready → w' < W := by
    intro w' c' hin
    rcases mem_insert.mp hin with heq | hin
    · cases heq
      exact hw
    · exact (h.requested w' c' (h.ready w' c' hin).1).1
  have hcount : r.chunkWriterCounts c + 1 = ((insert (w, c) r.ready).filter (·.2 = c)).card := by
    rw [card_announced hnot, h.counts c ⟨w, hw, hnot⟩]
  have hready : ∀ w' c', (w', c') ∈ insert (w, c) r.ready → (w', c') ∈ r.requested ∧ c' + 1 < C := by
    intro w' c' hin
    rcases mem_insert.mp hin with heq | hin
    · cases heq
      exact ⟨hreq, hc⟩
    · exact h.ready w' c' hin
  have hreported : ∀ w' ∈ r.reported, w' < W ∧ (∀ c' < C, (w', c') ∈ r.requested) ∧
      ∀ c', c' + 1 < C → (w', c') ∈ insert (w, c) r.ready := by
    intro w' hw'
    obtain ⟨h1, h2, h3⟩ := h.reported w' hw'
    exact ⟨h1, h2, fun c' hc' => mem_insert_of_mem (h3 c' hc')⟩
  -- the counts of the chunk are right if not all writers are there; those of other chunks do not change
  have hcounts : ∀ n, ((∃ w' < W, (w', c) ∉ insert (w, c) r.ready) → n = r.chunkWriterCounts c + 1) →
      ∀ c', (∃ w' < W, (w', c') ∉ insert (w, c) r.ready) →
        update r.chunkWriterCounts c n c' = ((insert (w, c) r.ready).filter (·.2 = c')).card := by
    intro n hn c' hmissing
    by_cases hcc : c' = c
    · subst hcc
      rw [update_self, hn hmissing, hcount]
    · obtain ⟨w', hw', hnot'⟩ := hmissing
      rw [update_of_ne hcc, card_announced_of_ne (Ne.symm hcc)]
      exact h.counts c' ⟨w', hw', fun hin => hnot' (mem_insert_of_mem hin)⟩
  have hroom : ∀ {n d'}, ((∃ w' < W, (w', c) ∉ insert (w, c) r.ready) → n = r.chunkWriterCounts c + 1) →
      (d' = none → r.decodeReq = none) → (∀ d, d' = some d → r.left = false ∧
        ReqInv W C freed { r with ready := insert (w, c) r.ready } d) →
      RoomInv W C freed { r with
        ready := insert (w, c) r.ready, decodeReq := d'
        chunkWriterCounts := update r.chunkWriterCounts c n } := fun hn hout hqueued =>
    { h with
      ready := hready, reported := hreported, counts := hcounts _ hn
      out := fun hnone => h.out (hout hnone)
      queued := fun d hd => ⟨(hqueued d hd).1, { (hqueued d hd).2 with }⟩ }
  unfold Room.chunkReady
  cases hd : r.decodeReq with
  | none => exact hroom (fun _ => rfl) (fun _ => hd) nofun
  | some d =>
    obtain ⟨hleft, hinv⟩ := h.queued d hd
    have hs := h.not_submitted hd hw fun hrep => hnot ((h.reported w hrep).2.2 c hc)
    have hiff := le_card_announced (c := c) hlt
    rw [← hcount] at hiff
    dsimp only
    by_cases hfull : W ≤ r.chunkWriterCounts c + 1
    · rw [if_pos hfull]
      have hall := hiff.mp hfull
      refine hroom (fun ⟨w', hw', hnot'⟩ => absurd (hall w' hw') hnot') nofun ?_
      rintro _ ⟨⟩
      exact ⟨hleft, hinv.scatter hs h.ids hall⟩
    · rw [if_neg hfull]
      have hmissing : ∃ w' < W, (w', c) ∉ insert (w, c) r.ready := by simpa using mt hiff.mpr hfull
      refine hroom (fun _ => rfl) nofun ?_
      rintro _ ⟨⟩
      exact ⟨hleft, hinv.announce hs fun _ _ _ => hmissing⟩

/-! ### `Success` -/

/-- When all writers have reported, only the last chunk has a region that is not being scattered. -/
theorem ReqInv.held_is_last (hs : d.submitted = false)
    (hready : ∀ w < W, ∀ c, c + 1 < C → (w, c) ∈ r.ready) {c : ℕ} {x : ChunkStagingInfo}
    (hx : d.chunkStagingInfos[c]? = some x) (hpos : 0 ≤ x.allocId) : d.chunkStagingInfos.getLast? = some x := by
  obtain ⟨-, -, -, -, w, hw, hnot⟩ := h.held hs c x hx hpos
  have hlt := (List.getElem?_eq_some_iff.mp hx).1
  have hlen := h.length_le
  have hlast : ¬ c + 1 < C := fun hc => hnot (hready w hw c hc)
  rw [getLast?_eq_getElem?, show d.chunkStagingInfos.length - 1 = c by omega]
  exact hx

theorem ReqInv.submitLast (hs : d.submitted = false) {reported : Finset ℕ}
    (hall : ∀ w < W, w ∈ reported) (hready : ∀ w < W, ∀ c, c + 1 < C → (w, c) ∈ r.ready) :
    ReqInv W C freed { r with reported := reported } d.submitLastScatterAsync := by
  have hnone := h.scatterEvent_none hs
  have hdone : d.scatterDone = false := (Bool.or_eq_false_iff.mp hs).2
  unfold submitLastScatterAsync
  cases hsub : d.submitLastScatter with
  | some i =>
    obtain ⟨x, hx, hi⟩ := bind_eq_some_iff.mp hsub
    split at hi
    · cases hi
    next hneg =>
    obtain rfl : x.allocId.toNat = i := some.inj hi
    rw [getLast?_eq_getElem?] at hx
    obtain ⟨-, hmem, hnew, hfree, -⟩ := h.held hs _ x hx (by omega)
    have hpending : DecodeReq.pending { d with
        scatterEvent := some x.allocId.toNat, lastScatterSubmitted := true } = d.pending ++
          [x.allocId.toNat] := by
      simp [DecodeReq.pending, hnone]
    exact {
      length_le := h.length_le
      held := nofun
      placed := nofun
      allSubmitted := fun _ => by
        refine ⟨hall, fun j c hj => ?_⟩
        rw [hpending, mem_append, List.mem_singleton]
        rcases h.placed hs j c hj with ⟨y, hy, hid⟩ | ⟨hj, -⟩
        · have hlast := h.held_is_last hs hready hy (by omega)
          rw [getLast?_eq_getElem?, hx] at hlast
          cases hlast
          exact .inl (.inr (by omega))
        · exact hj.imp_left .inl
      nodup := (h.push hpending hnew hmem hfree).1
      pending := (h.push hpending hnew hmem hfree).2
      last := fun _ _ => ⟨rfl, hdone⟩ }
  | none =>
    have hsubmitted : submitted { d with scatterDone := true } = true := Bool.or_true _
    refine { h with held := ?_, placed := ?_, allSubmitted := ?_, last := ?_ }
    · intro hfalse
      cases hsubmitted.symm.trans hfalse
    · intro hfalse
      cases hsubmitted.symm.trans hfalse
    · intro _
      refine ⟨hall, fun j c hj => ?_⟩
      rcases h.placed hs j c hj with ⟨y, hy, hid⟩ | ⟨hj, -⟩
      · have hoff := (h.held hs c y hy (by omega)).1
        unfold submitLastScatter at hsub
        rw [h.held_is_last hs hready hy (by omega), bind_some, if_neg (by omega)] at hsub
        cases hsub
      · exact hj
    · intro j hj
      cases hnone.symm.trans hj

omit h in
theorem RoomInv.successFrom (h : RoomInv W C freed r) {w : ℕ} (hw : w < W) (hnew : w ∉ r.reported)
    (hreq : ∀ c < C, (w, c) ∈ r.requested) (hready : ∀ c, c + 1 < C → (w, c) ∈ r.ready) :
    RoomInv W C freed (Room.successFrom { r with reported := insert w r.reported } W w) := by
  have hreported : ∀ w' ∈ insert w r.reported, w' < W ∧ (∀ c < C, (w', c) ∈ r.requested) ∧
      ∀ c, c + 1 < C → (w', c) ∈ r.ready := by
    intro w' hw'
    rcases mem_insert.mp hw' with rfl | hw'
    · exact ⟨hw, hreq, hready⟩
    · exact h.reported w' hw'
  have hqueued : ∀ d, r.decodeReq = some d → r.left = false ∧
      ReqInv W C freed { r with reported := insert w r.reported } d := by
    intro d hd
    refine ⟨(h.queued d hd).1, { (h.queued d hd).2 with allSubmitted := ?_ }⟩
    intro hs
    cases (h.not_submitted hd hw hnew).symm.trans hs
  unfold Room.successFrom
  by_cases hstatus : r.requestStatus.isSome = true
  · rw [if_pos hstatus]
    have hresponses : insert w r.prefillResponses ⊆ insert w r.reported := insert_subset_insert w h.responses
    by_cases hcard : (insert w r.prefillResponses).card = W
    · rw [if_pos hcard]
      have hrange : insert w r.prefillResponses ⊆ range W := fun w' hw' =>
        Finset.mem_range.mpr (hreported w' (hresponses hw')).1
      have heq := eq_of_subset_of_card_le hrange (by rw [hcard, card_range])
      have hall : ∀ w' < W, w' ∈ insert w r.reported := fun w' hw' =>
        hresponses (heq ▸ Finset.mem_range.mpr hw')
      apply RoomInv.updateStatus
      refine { h with reported := hreported, counts := ?_, responses := hresponses, out := ?_, queued := ?_ }
      · rintro c ⟨w', hw', hnot⟩
        have hc : ¬ c + 1 < C := fun hc => hnot ((hreported w' (hall w' hw')).2.2 c hc)
        symm
        rw [card_eq_zero, filter_eq_empty_iff]
        rintro ⟨w'', c'⟩ hmem rfl
        exact hc (h.ready w'' c' hmem).2
      · intro hnone
        exact h.out (map_eq_none_iff.mp hnone)
      · intro d' hd'
        obtain ⟨d, hd, rfl⟩ := map_eq_some_iff.mp hd'
        refine ⟨(h.queued d hd).1, ?_⟩
        exact { (h.queued d hd).2.submitLast (h.not_submitted hd hw hnew) hall fun w' hw' =>
          (hreported w' (hall w' hw')).2.2 with }
    · rw [if_neg hcard]
      exact { h with
        reported := hreported, responses := hresponses
        queued := fun d hd => ⟨(hqueued d hd).1, { (hqueued d hd).2 with }⟩ }
  · rw [if_neg hstatus]
    exact { h with
      reported := hreported, queued := hqueued
      responses := h.responses.trans (subset_insert w r.reported) }

/-! ### `advance_scatter` -/

theorem ReqInv.finished_perm (query : ℕ → Bool) : (d.finished query).Perm (d.pending.filter query) := by
  unfold DecodeReq.finished DecodeReq.pending
  rw [filter_append]
  apply ((reverse_perm _).filter query).append
  cases hev : d.scatterEvent with
  | none => simp
  | some i =>
    rw [(h.last i hev).1, if_pos rfl]
    by_cases hq : query i = true <;> simp [Option.filter, hq]

theorem ReqInv.pending_advance (query : ℕ → Bool) :
    (d.advance query).pending = d.pending.filter fun i => !query i := by
  unfold DecodeReq.advance DecodeReq.pending
  rw [filter_append]
  cases hev : d.scatterEvent with
  | none => simp
  | some i =>
    rw [(h.last i hev).1]
    by_cases hq : query i = true <;> simp [Option.filter, hq]

omit h in
theorem submitted_advance (d : DecodeReq) (query : ℕ → Bool) : (d.advance query).submitted = d.submitted := by
  unfold advance submitted
  split
  · next h =>
    rw [Bool.and_eq_true] at h
    rw [h.1, Bool.true_or, Bool.true_or]
  · rfl

omit h in
theorem infos_advance (d : DecodeReq) (query : ℕ → Bool) :
    (d.advance query).chunkStagingInfos = d.chunkStagingInfos := by
  unfold advance
  split
  · rfl
  · rfl

/-- What is freed was on its way, and was not freed before. -/
theorem ReqInv.mem_finished {query : ℕ → Bool} {i : ℕ} :
    i ∈ d.finished query ↔ i ∈ d.pending ∧ query i = true := by
  rw [(h.finished_perm query).mem_iff, mem_filter]

theorem ReqInv.advance (query : ℕ → Bool) : ReqInv W C (freed ++ d.finished query) r (d.advance query) := by
  have hsplit : ∀ i, i ∈ d.pending ∨ i ∈ freed → i ∈ (d.advance query).pending ∨
      i ∈ freed ++ d.finished query := by
    intro i hi
    rw [h.pending_advance, mem_filter, mem_append, h.mem_finished]
    cases hq : query i
    · exact hi.imp (fun hp => ⟨hp, rfl⟩) .inl
    · exact .inr (hi.symm.imp_right fun hp => ⟨hp, rfl⟩)
  have hlast : ∀ i, (d.advance query).scatterEvent = some i →
      (d.advance query).lastScatterSubmitted = true ∧ (d.advance query).scatterDone = false := by
    unfold DecodeReq.advance
    split
    · exact nofun
    · exact h.last
  exact {
    length_le := by
      rw [infos_advance]
      exact h.length_le
    held := fun hs c x hx hpos => by
      rw [submitted_advance] at hs
      rw [infos_advance] at hx
      obtain ⟨hoff, hmem, hpend, hfree, hw⟩ := h.held hs c x hx hpos
      refine ⟨hoff, hmem, ?_, ?_, hw⟩
      · rw [h.pending_advance, mem_filter]
        exact fun hp => hpend hp.1
      · rw [mem_append, h.mem_finished]
        rintro (hf | hp)
        · exact hfree hf
        · exact hpend hp.1
    placed := fun hs i c hic => by
      rw [submitted_advance] at hs
      rw [infos_advance]
      exact (h.placed hs i c hic).imp_right fun hready => ⟨hsplit i hready.1, hready.2⟩
    allSubmitted := fun hs => by
      rw [submitted_advance] at hs
      exact ⟨(h.allSubmitted hs).1, fun i c hic => hsplit i ((h.allSubmitted hs).2 i c hic)⟩
    nodup := by
      rw [h.pending_advance]
      exact h.nodup.filter _
    pending := fun i hi => by
      rw [h.pending_advance, mem_filter, Bool.not_eq_true'] at hi
      obtain ⟨hmem, hfree⟩ := h.pending i hi.1
      refine ⟨hmem, ?_⟩
      rw [mem_append, h.mem_finished]
      rintro (hf | hp)
      · exact hfree hf
      · cases hi.2.symm.trans hp.2
    last := hlast }

end

theorem RoomInv.advance (h : RoomInv W C freed r) (hd : r.decodeReq = some d) (query : ℕ → Bool) :
    RoomInv W C (freed ++ d.finished query) { r with decodeReq := some (d.advance query) } := by
  refine { h with out := nofun, queued := ?_ }
  rintro _ ⟨⟩
  exact ⟨(h.queued d hd).1, { (h.queued d hd).2.advance query with }⟩

/-! ### `pop_transferred` -/

theorem poll_spec (h : d.poll status timedOut = some (d', p)) :
    ∃ state, d' = { d with concludeState := state } := by
  unfold poll at h
  split at h
  · cases h
    exact ⟨d.concludeState, rfl⟩
  · obtain ⟨st, -, h⟩ := map_eq_some_iff.mp h
    split at h
    · cases h
      exact ⟨_, rfl⟩
    split at h
    · cases h
      exact ⟨_, rfl⟩
    · cases h
      exact ⟨d.concludeState, rfl⟩

theorem min_eq_success {q : KVPoll} (h : p.min q = .success) : p = .success := by
  cases p <;> cases q <;> revert h <;> decide

/-- A poll changes what the receiver has concluded, and is a success only when all scatters are over. -/
theorem pollWithStaging_spec (h : d.pollWithStaging status timedOut others = some (d', p)) :
    (∃ state, d' = { d with concludeState := state }) ∧ (p = .success → d.isDone = true) := by
  obtain ⟨⟨d₁, raw⟩, hpoll, heq⟩ := map_eq_some_iff.mp h
  obtain ⟨rfl, rfl⟩ := Prod.mk.inj heq
  obtain ⟨state, rfl⟩ := poll_spec hpoll
  refine ⟨⟨state, rfl⟩, fun hsuccess => ?_⟩
  have hraw := min_eq_success hsuccess
  split at hraw
  · cases hraw
  next hnot =>
  by_contra hdone
  refine hnot ?_
  rw [hraw, decide_eq_true rfl, Bool.true_and, Bool.not_eq_true']
  exact eq_false_of_ne_true hdone

/-- When all scatters are over, every region has been freed. -/
theorem ReqInv.all_freed (h : ReqInv W C freed r d) (hdone : d.isDone = true) :
    ∀ x ∈ r.assigned, x.1 ∈ freed := by
  obtain ⟨hscatter, hevents⟩ := Bool.and_eq_true_iff.mp hdone
  have hnone : d.scatterEvent = none := by
    rcases hev : d.scatterEvent with _ | i
    · rfl
    · cases hscatter.symm.trans (h.last i hev).2
  have hpending : d.pending = [] := by
    unfold DecodeReq.pending
    rw [isEmpty_iff.mp hevents, hnone]
    rfl
  rintro ⟨i, c⟩ hic
  have hs : d.submitted = true := by
    unfold submitted
    rw [hscatter, Bool.or_true]
  rcases (h.allSubmitted hs).2 i c hic with hi | hi
  · rw [hpending] at hi
    cases hi
  · exact hi

theorem RoomInv.leave (h : RoomInv W C freed r) (hall : ∀ x ∈ r.assigned, x.1 ∈ freed) :
    RoomInv W C freed r.leave :=
  { h with
    responses := empty_subset _
    out := fun _ => ⟨nofun, hall⟩
    queued := nofun }

/-- A poll lets the request leave, or does not. -/
theorem popTransferred_cases (hrun : r.popTransferred timedOut others metadataReady = some r') :
    ∃ d d' p, r.decodeReq = some d ∧ d.pollWithStaging r.requestStatus timedOut others = some (d', p) ∧
      ((p = .failed ∨ p = .success) ∧ r' = r.leave ∨ p ≠ .failed ∧ r' = { r with decodeReq := some d' }) := by
  obtain ⟨⟨d', p⟩, hbind, heq⟩ := map_eq_some_iff.mp hrun
  obtain ⟨d, hd, hpoll⟩ := bind_eq_some_iff.mp hbind
  refine ⟨d, d', p, hd, hpoll, ?_⟩
  dsimp only at heq
  split at heq
  · next hleaves => exact .inl ⟨hleaves.imp_right And.left, heq.symm⟩
  · next hstays => exact .inr ⟨fun hp => hstays (.inl hp), heq.symm⟩

theorem RoomInv.popTransferred (h : RoomInv W C freed r)
    (hrun : r.popTransferred timedOut others metadataReady = some r')
    (hheeds : ∀ d d', r.decodeReq = some d → d.pollWithStaging r.requestStatus timedOut others =
      some (d', .failed) →
      ∀ x ∈ r.assigned, x.1 ∈ freed) : RoomInv W C freed r' ∧ r'.assigned = r.assigned := by
  obtain ⟨d, d', p, hd, hpoll, ⟨hp, rfl⟩ | ⟨-, rfl⟩⟩ := popTransferred_cases hrun
  · refine ⟨h.leave ?_, rfl⟩
    rcases hp with rfl | rfl
    · exact hheeds d d' hd hpoll
    · exact (h.queued d hd).2.all_freed ((pollWithStaging_spec hpoll).2 rfl)
  · obtain ⟨state, rfl⟩ := (pollWithStaging_spec hpoll).1
    exact ⟨h.conclude hd state, rfl⟩

/-! ## Runs -/

namespace DecodeServer

variable {u : Setup} {s s' : DecodeServer} {room : ℕ}

/-- What holds of the server at any time, while its runs heed the condition. -/
structure Inv (u : Setup) (s : DecodeServer) : Prop where
  room : ∀ room, RoomInv (u.numWritersFor room) (u.numChunks room) s.freed (s.rooms room)
  below : ∀ room, ∀ x ∈ (s.rooms room).assigned, x.1 < s.allocator.nextAllocId
  apart : ∀ room room' x x', x ∈ (s.rooms room).assigned → x' ∈ (s.rooms room').assigned → x.1 = x'.1 →
    room = room'
  nodup : s.freed.Nodup
  gone : ∀ i ∈ s.freed, i < s.allocator.nextAllocId ∧ i ∉ s.allocator.allocations

theorem init_inv (u : Setup) : (init u).Inv u where
  room _ := .init
  below _ _ h := absurd h not_mem_nil
  apart _ _ _ _ h := absurd h not_mem_nil
  nodup := nodup_nil
  gone _ h := absurd h not_mem_nil

theorem rooms_setRoom (s : DecodeServer) (room : ℕ) (r : Room) : (s.setRoom room r).rooms room = r :=
  update_self ..

/-- One room changes. Whatever is assigned to it anew comes from the allocator. -/
theorem Inv.change (h : s.Inv u) {a : StagingAllocator}
    (hr : RoomInv (u.numWritersFor room) (u.numChunks room) freed r)
    (hothers : ∀ room' ≠ room, RoomInv (u.numWritersFor room') (u.numChunks room') freed (s.rooms room'))
    (hnext : s.allocator.nextAllocId ≤ a.nextAllocId) (hnew : ∀ x ∈ r.assigned, x ∈ (s.rooms room).assigned ∨
      s.allocator.nextAllocId ≤ x.1 ∧ x.1 < a.nextAllocId) (hnodup : freed.Nodup)
    (hgone : ∀ i ∈ freed, i < a.nextAllocId ∧ i ∉ a.allocations) :
    (setRoom ⟨a, s.rooms, freed⟩ room r).Inv u := by
  have hcases : ∀ room', ∀ x ∈ ((setRoom ⟨a, s.rooms, freed⟩ room r).rooms room').assigned,
      x ∈ (s.rooms room').assigned ∨ room' = room ∧ s.allocator.nextAllocId ≤ x.1 ∧ x.1 < a.nextAllocId := by
    refine (forall_update_iff s.rooms fun room' q => ∀ x ∈ q.assigned, x ∈ (s.rooms room').assigned ∨
      room' = room ∧ s.allocator.nextAllocId ≤ x.1 ∧ x.1 < a.nextAllocId).mpr ⟨fun x hx => ?_, ?_⟩
    · exact (hnew x hx).imp_right fun hx => ⟨rfl, hx⟩
    · exact fun _ _ _ hx => .inl hx
  refine ⟨?_, fun room' x hx => ?_, fun room₁ room₂ x x' hx hx' hsame => ?_, hnodup, hgone⟩
  · exact (forall_update_iff s.rooms fun room' => RoomInv (u.numWritersFor room') (u.numChunks room') freed).mpr
      ⟨hr, hothers⟩
  · rcases hcases room' x hx with hx | ⟨-, -, hx⟩
    · exact (h.below room' x hx).trans_le hnext
    · exact hx
  · rcases hcases room₁ x hx with hx | ⟨h₁, hx, -⟩ <;> rcases hcases room₂ x' hx' with hx' | ⟨h₂, hx', -⟩
    · exact h.apart room₁ room₂ x x' hx hx' hsame
    · have := h.below room₁ x hx
      omega
    · have := h.below room₂ x' hx'
      omega
    · exact h₁.trans h₂.symm

/-- Most events change one room and none of its regions. -/
theorem Inv.setRoom (h : s.Inv u) (hr : RoomInv (u.numWritersFor room) (u.numChunks room) s.freed r)
    (hassigned : r.assigned = (s.rooms room).assigned) : (s.setRoom room r).Inv u :=
  h.change hr (fun room' _ => h.room room') le_rfl (fun _ hx => .inl (hassigned ▸ hx)) h.nodup h.gone

/-- A room is given the next region. -/
theorem Inv.setAssigned (h : s.Inv u) {c : ℕ} {a : StagingAllocator}
    (hr : RoomInv (u.numWritersFor room) (u.numChunks room) s.freed r)
    (hassigned : r.assigned = (s.rooms room).assigned ++ [(s.allocator.nextAllocId, c)])
    (hnext : a.nextAllocId = s.allocator.nextAllocId + 1)
    (hmem : ∀ j, j ∈ a.allocations ↔ j = s.allocator.nextAllocId ∨ j ∈ s.allocator.allocations) :
    ({ s with allocator := a }.setRoom room r).Inv u := by
  refine h.change hr (fun room' _ => h.room room') (by omega) (fun x hx => ?_) h.nodup fun i hi => ?_
  · rw [hassigned] at hx
    rcases mem_append.mp hx with hx | hx
    · exact .inl hx
    · rw [List.mem_singleton.mp hx]
      exact .inr ⟨le_rfl, by omega⟩
  · obtain ⟨hlt, hdead⟩ := h.gone i hi
    rw [hmem]
    exact ⟨by omega, fun hin => hin.elim hlt.ne hdead⟩

theorem Inv.stagingReq (h : s.Inv u) {w c : ℕ} (chunkNumPages required : ℕ) (hw : w < u.numWritersFor room)
    (hc : c < u.numChunks room) (hnot : (w, c) ∉ (s.rooms room).requested) :
    (s.stagingReq room w c chunkNumPages required).Inv u := by
  have hr := h.room room
  unfold DecodeServer.stagingReq
  dsimp only
  split
  · exact h.setRoom (hr.request hw hc) rfl
  · next d hd =>
    rcases d.handleStagingReq_cases s.allocator c chunkNumPages required with
      ⟨rsp, heq⟩ | ⟨hrec, a', x, o, rsp, heq, ⟨rfl, rfl, hneg⟩ | ⟨rfl, hi, hoff, hnext, hmem⟩⟩
    · rw [heq]
      rw [← hd, toList_none, map_nil, append_nil]
      exact h.setRoom (hr.request hw hc) rfl
    · rw [heq]
      exact h.setRoom ((hr.assign (o := none) hd hw hc hnot hrec (by omega) nofun).request hw hc) (append_nil _)
    · rw [heq]
      refine h.setAssigned ((hr.assign hd hw hc hnot hrec (fun _ => ⟨hoff, by simp [hi]⟩) ?_).request hw hc)
        rfl hnext hmem
      rintro _ ⟨⟩
      exact ⟨hi, fun y hy => (h.below room y hy).ne, fun hf => lt_irrefl _ (h.gone _ hf).1⟩

theorem Inv.advanceScatter (h : s.Inv u) {query : ℕ → Bool} (hrun : s.advanceScatter room query = some s') :
    s'.Inv u := by
  obtain ⟨d, hd, hrun⟩ := bind_eq_some_iff.mp hrun
  split at hrun
  · cases hrun
    exact h
  obtain ⟨a', hfree, rfl⟩ := map_eq_some_iff.mp hrun
  obtain ⟨hnext, hmem⟩ := StagingAllocator.freeAll_eq_some hfree
  have hreq := ((h.room room).queued d hd).2
  have hmine : ∀ i ∈ d.finished query, (∃ c, (i, c) ∈ (s.rooms room).assigned) ∧ i ∉ s.freed := fun i hi =>
    hreq.pending i (hreq.mem_finished.mp hi).1
  refine h.change ((h.room room).advance hd query) (fun room' hne => ?_) hnext.ge
    (fun x hx => .inl hx) ?_ fun i hi => ?_
  · refine (h.room room').frame fun x hx => ⟨fun hin => ?_, fun hin => mem_append_left _ hin⟩
    rcases mem_append.mp hin with hin | hin
    · exact hin
    · obtain ⟨⟨c, hc⟩, -⟩ := hmine x.1 hin
      exact absurd (h.apart room' room x _ hx hc rfl) hne
  · refine Nodup.append h.nodup ?_ fun i hi hi' => (hmine i hi').2 hi
    exact (hreq.finished_perm query).nodup_iff.mpr (hreq.nodup.filter _)
  · rw [hnext, hmem]
    rcases mem_append.mp hi with hi | hi
    · exact ⟨(h.gone i hi).1, fun hin => (h.gone i hi).2 hin.2⟩
    · obtain ⟨⟨c, hc⟩, -⟩ := hmine i hi
      exact ⟨h.below room _ hc, fun hin => hin.1 hi⟩

theorem Inv.step (h : s.Inv u) (hstep : HeedingStep u s s') : s'.Inv u := by
  obtain ⟨e, hallowed, hheeds, hrun⟩ := hstep
  cases e with
  | register room =>
    cases hrun
    exact h.setRoom ((h.room room).register hallowed.1 hallowed.2) rfl
  | stagingReq room writer chunkIdx chunkNumPages required =>
    cases hrun
    exact h.stagingReq chunkNumPages required hallowed.1 hallowed.2.1 hallowed.2.2
  | chunkReady room writer chunkIdx =>
    cases hrun
    obtain ⟨hw, hc, hreq, hnot⟩ := hallowed
    refine h.setRoom ((h.room room).chunkReady hw hc hreq hnot) ?_
    unfold Room.chunkReady
    dsimp only
    split
    · rfl
    · split
      · rfl
      · rfl
  | success room writer =>
    cases hrun
    obtain ⟨hw, hnew, hreq⟩ := hallowed
    rw [u.requiredPrefillResponseNum_eq]
    refine h.setRoom ((h.room room).successFrom hw hnew hreq hheeds) ?_
    unfold Room.successFrom Room.updateStatus
    dsimp only
    split
    · split
      · rfl
      · rfl
    · rfl
  | failed room =>
    cases hrun
    exact h.setRoom ((h.room room).updateStatus .failed) rfl
  | abort room =>
    obtain ⟨d, hd, rfl⟩ := map_eq_some_iff.mp hrun
    exact h.setRoom ((h.room room).conclude hd _) rfl
  | advance room query => exact h.advanceScatter hrun
  | pop room timedOut others metadataReady =>
    obtain ⟨r', hpop, rfl⟩ := map_eq_some_iff.mp hrun
    obtain ⟨hr', hassigned⟩ := (h.room room).popTransferred hpop hheeds
    exact h.setRoom hr' hassigned

theorem Inv.settled (h : s.Inv u) : s.Settled := by
  refine fun room => ⟨(h.room room).chunks, fun hleft x hx => ?_⟩
  have hnone : (s.rooms room).decodeReq = none := by
    rcases hd : (s.rooms room).decodeReq with _ | d
    · rfl
    · cases ((h.room room).queued d hd).1.symm.trans hleft
  have hfreed := ((h.room room).out hnone).2 x hx
  exact ⟨count_eq_one_of_mem h.nodup hfreed, (h.gone x.1 hfreed).2⟩

/-- Two prefill ranks write for one decode rank, in two chunks. -/
def twoWriters : Setup := ⟨8, 1, fun _ => 2, fun _ => 2, Nat.one_pos⟩

/-- In every run in which writers announce all chunks but the last one, and no transfer fails while its room
holds a region, no chunk is ever assigned two regions, and a request that has left the queue has had every
region freed exactly once. From any state of such a run, the next poll keeps this if and only if it heeds the
condition. -/
theorem allocations_settled (hrun : ReflTransGen (HeedingStep u) (init u) s) :
    s.Settled ∧ ∀ room timedOut others metadataReady s', s.step u (.pop room timedOut others metadataReady) =
      some s' → (s'.Settled ↔ s.Heeds u (.pop room timedOut others metadataReady)) := by
  have hinv : s.Inv u := by
    induction hrun with
    | refl => exact init_inv u
    | tail _ hstep ih => exact ih.step hstep
  refine ⟨hinv.settled, fun room timedOut others metadataReady s' hstep => ⟨?_, ?_⟩⟩
  · intro hsettled d d' hd hpoll x hx
    obtain ⟨r', hpop, rfl⟩ := map_eq_some_iff.mp hstep
    obtain ⟨d₁, d₂, p, hd₁, hpoll₁, hcases⟩ := popTransferred_cases hpop
    cases hd.symm.trans hd₁
    cases hpoll.symm.trans hpoll₁
    obtain ⟨-, rfl⟩ | ⟨hne, -⟩ := hcases
    · have hroom := (hsettled room).2
      rw [rooms_setRoom] at hroom
      exact count_pos_iff.mp (((hroom rfl x hx).1).symm ▸ Nat.one_pos)
    · exact absurd rfl hne
  · intro hheeds
    exact (hinv.step ⟨.pop room timedOut others metadataReady, trivial, hheeds, hstep⟩).settled

/-- The request that is sent in two chunks leaves with both regions freed. -/
theorem allocations_settled_twoChunks : ∃ s, ReflTransGen (HeedingStep twoWriters) (init twoWriters) s ∧
    (s.rooms 0).left = true ∧ (s.rooms 0).assigned = [(0, 0), (1, 1)] ∧ s.Settled := by
  have hlast : ∀ c, c + 1 < 2 → c = 0 := by omega
  have hrun : ReflTransGen (HeedingStep twoWriters) (init twoWriters) _ :=
    .head ⟨.register 0, .intro rfl rfl, trivial, rfl⟩
    (.head ⟨.stagingReq 0 0 0 1 4, .intro (by decide) (.intro (by decide) (by decide)), trivial, rfl⟩
    (.head ⟨.stagingReq 0 0 1 1 4, .intro (by decide) (.intro (by decide) (by decide)), trivial, rfl⟩
    (.head ⟨.stagingReq 0 1 0 1 4, .intro (by decide) (.intro (by decide) (by decide)), trivial, rfl⟩
    (.head ⟨.stagingReq 0 1 1 1 4, .intro (by decide) (.intro (by decide) (by decide)), trivial, rfl⟩
    (.head ⟨.chunkReady 0 0 0, .intro (by decide) (.intro (by decide) (.intro (by decide) (by decide))),
      trivial, rfl⟩
    (.head ⟨.chunkReady 0 1 0, .intro (by decide) (.intro (by decide) (.intro (by decide) (by decide))),
      trivial, rfl⟩
    (.head ⟨.success 0 1, .intro (by decide) (.intro (by decide) (by decide)),
      fun c hc => by cases hlast c hc; decide, rfl⟩
    (.head ⟨.success 0 0, .intro (by decide) (.intro (by decide) (by decide)),
      fun c hc => by cases hlast c hc; decide, rfl⟩
    (.head ⟨.advance 0 fun _ => true, trivial, trivial, rfl⟩
    (.single ⟨.pop 0 false .success true, trivial, by rintro _ _ ⟨⟩ ⟨⟩, rfl⟩))))))))))
  exact ⟨_, hrun, rfl, rfl, (allocations_settled hrun).1⟩

/-- A transfer that fails after a region was assigned: the request leaves, and the region is never freed. -/
theorem failed_transfer_leaks : ∃ s, ReflTransGen (Step twoWriters) (init twoWriters) s ∧
    (s.rooms 0).left = true ∧ (s.rooms 0).assigned = [(0, 0)] ∧ s.freed = [] ∧ 0 ∈ s.allocator.allocations ∧
      ¬ s.Settled := by
  refine ⟨_, .head ⟨.register 0, .intro rfl rfl, rfl⟩
    (.head ⟨.stagingReq 0 0 0 1 4, .intro (by decide) (.intro (by decide) (by decide)), rfl⟩
    (.head ⟨.failed 0, trivial, rfl⟩ (.single ⟨.pop 0 false .success true, trivial, rfl⟩))),
    rfl, rfl, rfl, by decide, fun hsettled => ?_⟩
  exact absurd ((hsettled 0).2 rfl (0, 0) mem_cons_self).1 (by decide)

end DecodeServer

end SGLang.Disaggregation
