/-
# SGLang.Managers.IncrementalDetokenize — the text a request is sent.

The scheduler keeps for each request the token ids that were handed to the detokenizer
(`init_incremental_detokenize` in `managers/schedule_batch.py`) and streams the new ones, at the first message
behind the last tokens of the prompt (`stream_output_generation` in
`managers/scheduler_output_processor_mixin.py`). A run admits requests and streams batches of chunks of any
size, of any of them; the strings the detokenizer returns are logged for each request.

A string that has been sent is never contradicted by the text, since what is printed ahead is settled. But the
offset up to which text was sent is set back when a message shows less than the one before, and then the same
text is sent again: the strings add up to the decoding of the output tokens exactly if that never happens
(`strings_reproduce_text_iff`).
-/
import SGLang.Lib.Dict
import SGLang.Managers.Detokenizer

namespace SGLang.Detokenizer

open SGLang.Lib List Option

/-! ## The scheduler's side of a request -/

def INIT_INCREMENTAL_DETOKENIZATION_OFFSET : ℕ := 5

/-- The fields of a request that streaming reads and writes. -/
structure Req where
  originInputIds : List ℕ
  noStopTrim : Bool
  decodedText : List ℕ := []
  outputIds : List ℕ := []
  finishedReason : Option FinishReason := none
  finishedLen : Option ℕ := none
  surrOffset : Option ℕ := none
  readOffset : Option ℕ := none
  surrAndDecodeIds : List ℕ := []
  curDecodeIdsLen : ℕ := 0
  sendDecodeIdOffset : ℕ := 0
  deriving Inhabited

/-- What the model produced for a request since its last message: tokens, and when it finished with the last of
them the reason and the tokens that were accepted after it. -/
structure Chunk where
  rid : ℕ
  tokens : List ℕ
  finish : Option (FinishReason × List ℕ) := none

namespace Req

variable (q : Req)

/-- The output ids through the stop condition. -/
def outputIdsThroughStop : List ℕ :=
  match q.finishedLen with
  | some n => q.outputIds.take n
  | none => q.outputIds

/-- The request with the ids to be detokenized, and the length of the part that is the prompt's. -/
def initIncrementalDetokenize : Req × ℕ :=
  match q.surrOffset, q.readOffset with
  | some surr, some read =>
    ({ q with
        surrAndDecodeIds := q.surrAndDecodeIds ++ q.outputIdsThroughStop.drop q.curDecodeIdsLen
        curDecodeIdsLen := q.outputIdsThroughStop.length }, read - surr)
  | _, _ =>
    let read := q.originInputIds.length
    let surr := read - INIT_INCREMENTAL_DETOKENIZATION_OFFSET
    ({ q with
        readOffset := some read
        surrOffset := some surr
        surrAndDecodeIds := q.originInputIds.drop surr ++ q.outputIdsThroughStop
        curDecodeIdsLen := q.outputIdsThroughStop.length }, read - surr)

/-- The request with the tokens of a chunk. -/
def accept (chunk : Chunk) : Req :=
  match chunk.finish with
  | none => { q with outputIds := q.outputIds ++ chunk.tokens }
  | some (reason, beyond) =>
    { q with
      outputIds := q.outputIds ++ chunk.tokens ++ beyond
      finishedReason := some reason
      finishedLen := some (q.outputIds ++ chunk.tokens).length }

/-- The row of the request in the message, and the request after it. -/
def streamOutput (rid : ℕ) : Req × Row :=
  let r := q.initIncrementalDetokenize
  ({ r.1 with sendDecodeIdOffset := r.1.surrAndDecodeIds.length },
    { rid, decodedText := q.decodedText, decodeIds := r.1.surrAndDecodeIds.drop q.sendDecodeIdOffset,
      readOffset := r.2, finishedReason := q.finishedReason, noStopTrim := q.noStopTrim })

/-- The tokens of the prompt that are sent to the detokenizer. -/
def tail : List ℕ :=
  q.originInputIds.drop (q.originInputIds.length - INIT_INCREMENTAL_DETOKENIZATION_OFFSET)

/-- The output tokens whose text the request is due: without the stop token unless `no_stop_trim`. -/
def textIds : List ℕ :=
  match q.finishedReason with
  | some (.matchedToken _) => if q.noStopTrim then q.outputIdsThroughStop else q.outputIdsThroughStop.dropLast
  | _ => q.outputIdsThroughStop

end Req

/-! ## Runs -/

/-- A request with the tokens of its messages but the last one, and the strings that were sent for it. -/
structure Tracked where
  req : Req
  chunks : List (List ℕ) := []
  sent : List (List ℕ) := []
  deriving Inhabited

/-- The request takes a chunk and makes its row. -/
def Tracked.stream (t : Tracked) (chunk : Chunk) : Tracked × Row :=
  let r := (t.req.accept chunk).streamOutput chunk.rid
  ({ t with req := r.1, chunks := if chunk.finish.isNone then t.chunks ++ [chunk.tokens] else t.chunks }, r.2)

/-- The string that came back for the request. -/
def Tracked.deliver (t : Tracked) (string : List ℕ) : Tracked := { t with sent := t.sent ++ [string] }

structure System where
  reqs : AList (fun _ : ℕ => Tracked) := ∅
  manager : Manager := ∅

inductive Event where
  | arrive (rid : ℕ) (originInputIds : List ℕ) (noStopTrim : Bool)
  | stream (batch : List Chunk)

namespace System

/-- A batch of chunks goes through the detokenizer. -/
def stream (c : Config) (sys : System) (batch : List Chunk) : Option System :=
  let entries := batch.filterMap fun chunk => (sys.reqs.lookup chunk.rid).map fun t => t.stream chunk
  (decodeBatchTokenIdOutput c sys.manager (entries.map Prod.snd)).map fun r =>
    { reqs := Dict.insertAll sys.reqs ((entries.zip r.2).map fun e => (e.1.2.rid, e.1.1.deliver e.2)),
      manager := r.1 }

def apply (c : Config) (sys : System) : Event → Option System
  | .arrive rid originInputIds noStopTrim =>
    some { sys with reqs := sys.reqs.insert rid { req := { originInputIds, noStopTrim } } }
  | .stream batch => sys.stream c batch

/-- Request ids are fresh; a message has at most one row for each request, which is not finished; and a request
that finishes by a stop token finishes with that token. -/
def Allowed (sys : System) : Event → Prop
  | .arrive rid _ _ => rid ∉ sys.reqs
  | .stream batch => (batch.map Chunk.rid).Nodup ∧ ∀ chunk ∈ batch,
      (∃ t, sys.reqs.lookup chunk.rid = some t ∧ t.req.finishedReason = none) ∧
      ∀ f, chunk.finish = some f → ∀ matched, f.1 = .matchedToken matched → chunk.tokens.getLast? = some matched

def Step (c : Config) (sys sys' : System) : Prop := ∃ e, sys.Allowed e ∧ sys.apply c e = some sys'

def Reachable (c : Config) (sys : System) : Prop := Relation.ReflTransGen (Step c) {} sys

end System

/-! ## The rows of a request -/

namespace Req

/-- Nothing was handed to the detokenizer yet. -/
structure Fresh (q : Req) : Prop where
  surrOffset : q.surrOffset = none
  sendDecodeIdOffset : q.sendDecodeIdOffset = 0

/-- The prompt's tail and the output tokens `outs` were. -/
structure Buffered (q : Req) (outs : List ℕ) : Prop where
  surrOffset : q.surrOffset = some (q.originInputIds.length - INIT_INCREMENTAL_DETOKENIZATION_OFFSET)
  readOffset : q.readOffset = some q.originInputIds.length
  surrAndDecodeIds : q.surrAndDecodeIds = q.tail ++ outs
  curDecodeIdsLen : q.curDecodeIdsLen = outs.length
  sendDecodeIdOffset : q.sendDecodeIdOffset = (q.tail ++ outs).length

variable {q : Req} {outs tokens : List ℕ}

theorem tail_length (q : Req) :
    q.originInputIds.length - (q.originInputIds.length - INIT_INCREMENTAL_DETOKENIZATION_OFFSET) =
      q.tail.length :=
  length_drop.symm

/-- The first row has the prompt's tail in front. -/
theorem Fresh.streamOutput (h : q.Fresh) (rid : ℕ) :
    (q.streamOutput rid).1.Buffered q.outputIdsThroughStop ∧
      (q.streamOutput rid).2.decodeIds = q.tail ++ q.outputIdsThroughStop ∧
      (q.streamOutput rid).2.readOffset = q.tail.length := by
  unfold Req.streamOutput initIncrementalDetokenize
  rw [h.surrOffset, h.sendDecodeIdOffset]
  exact ⟨⟨rfl, rfl, rfl, rfl, rfl⟩, rfl, q.tail_length⟩

/-- Later rows have the new tokens only. -/
theorem Buffered.streamOutput (h : q.Buffered outs) (hout : q.outputIdsThroughStop = outs ++ tokens) (rid : ℕ) :
    (q.streamOutput rid).1.Buffered q.outputIdsThroughStop ∧ (q.streamOutput rid).2.decodeIds = tokens := by
  have hids : q.surrAndDecodeIds ++ q.outputIdsThroughStop.drop q.curDecodeIdsLen =
      q.tail ++ q.outputIdsThroughStop := by
    rw [h.surrAndDecodeIds, hout, h.curDecodeIdsLen, drop_left, append_assoc]
  unfold Req.streamOutput initIncrementalDetokenize
  rw [h.surrOffset, h.readOffset]
  refine ⟨⟨rfl, rfl, hids, rfl, congrArg length hids⟩, ?_⟩
  show (q.surrAndDecodeIds ++ _).drop q.sendDecodeIdOffset = tokens
  rw [hids, h.sendDecodeIdOffset, hout, ← append_assoc, drop_left]

theorem accept_streaming {chunk : Chunk} (h : chunk.finish = none) :
    q.accept chunk = { q with outputIds := q.outputIds ++ chunk.tokens } := by
  unfold accept
  rw [h]

theorem accept_finished {chunk : Chunk} {f : FinishReason × List ℕ} (h : chunk.finish = some f) :
    q.accept chunk = { q with
        outputIds := q.outputIds ++ chunk.tokens ++ f.2
        finishedReason := some f.1
        finishedLen := some (q.outputIds ++ chunk.tokens).length } := by
  unfold accept
  rw [h]

theorem outputIdsThroughStop_accept (h : q.finishedLen = none) (chunk : Chunk) :
    (q.accept chunk).outputIdsThroughStop = q.outputIds ++ chunk.tokens := by
  unfold outputIdsThroughStop
  cases hfin : chunk.finish with
  | none =>
    rw [accept_streaming hfin, h]
  | some f =>
    rw [accept_finished hfin]
    exact take_left

theorem tail_accept (q : Req) (chunk : Chunk) : (q.accept chunk).tail = q.tail := by
  unfold accept
  split
  · rfl
  · rfl

theorem decodedText_accept (q : Req) (chunk : Chunk) : (q.accept chunk).decodedText = q.decodedText := by
  unfold accept
  split
  · rfl
  · rfl

theorem Fresh.accept (h : q.Fresh) (chunk : Chunk) : (q.accept chunk).Fresh := by
  unfold Req.accept
  split
  · exact ⟨h.surrOffset, h.sendDecodeIdOffset⟩
  · exact ⟨h.surrOffset, h.sendDecodeIdOffset⟩

theorem Buffered.accept (h : q.Buffered outs) (chunk : Chunk) : (q.accept chunk).Buffered outs := by
  unfold Req.accept
  split
  · exact { h with }
  · exact { h with }

/-- What streaming leaves alone. -/
theorem streamOutput_frame (q : Req) (rid : ℕ) :
    (q.streamOutput rid).1.originInputIds = q.originInputIds ∧
      (q.streamOutput rid).1.noStopTrim = q.noStopTrim ∧
      (q.streamOutput rid).1.decodedText = q.decodedText ∧ (q.streamOutput rid).1.outputIds = q.outputIds ∧
      (q.streamOutput rid).1.finishedReason = q.finishedReason ∧
      (q.streamOutput rid).1.finishedLen = q.finishedLen := by
  unfold streamOutput initIncrementalDetokenize
  split
  · exact ⟨rfl, rfl, rfl, rfl, rfl, rfl⟩
  · exact ⟨rfl, rfl, rfl, rfl, rfl, rfl⟩

end Req

/-! ## What holds of a request -/

/-- A request that is not finished, with its status in the detokenizer. -/
structure Running (c : Config) (t : Tracked) (status : Option DecodeStatus) : Prop where
  finishedReason : t.req.finishedReason = none
  finishedLen : t.req.finishedLen = none
  decodedText : t.req.decodedText = []
  outputIds : t.req.outputIds = t.chunks.flatten
  status : t.req.Fresh ∧ t.chunks = [] ∧ status = none ∨
    t.req.Buffered t.req.outputIds ∧ ∃ s, status = some s ∧ Within s ∧
      (c.AtBoundary t.req.tail →
        Follows c t.req.tail (View.ofChunks c t.chunks) (View.ofChunks c t.chunks).rest s)
  sends : c.AtBoundary t.req.tail → Sends (Steady c t.chunks) ((View.ofChunks c t.chunks).shown c) t.sent

/-- A finished request: its status is gone, and the strings add up to the text of the tokens that the
detokenizer kept exactly if its messages were steady. -/
structure Finished (c : Config) (t : Tracked) (status : Option DecodeStatus) : Prop where
  status : status = none
  last : ∀ matched, t.req.finishedReason = some (.matchedToken matched) →
    t.req.outputIdsThroughStop.getLast? = some matched
  sends : ∀ reason, t.req.finishedReason = some reason → (∀ str, reason ≠ .matchedStr str) →
    c.AtBoundary t.req.tail → ∃ kept,
      trimMatchedStopIds c t.req.outputIdsThroughStop (some reason) t.req.noStopTrim = some kept ∧
      Sends (Steady c t.chunks) (c.decode kept) t.sent

section Request

variable {c : Config} {t : Tracked} {status : Option DecodeStatus} {chunk : Chunk}

theorem running_arrive (c : Config) (originInputIds : List ℕ) (noStopTrim : Bool) :
    Running c { req := { originInputIds, noStopTrim } } none where
  finishedReason := rfl
  finishedLen := rfl
  decodedText := rfl
  outputIds := rfl
  status := .inl ⟨⟨rfl, rfl⟩, rfl, rfl⟩
  sends _ := ⟨fun _ => rfl, fun h => absurd (steady_nil c) h⟩

theorem tail_deliver (t : Tracked) (chunk : Chunk) (string : List ℕ) :
    ((t.stream chunk).1.deliver string).req.tail = t.req.tail := by
  rw [← Req.tail_accept t.req chunk]
  unfold Req.tail
  rw [← ((t.req.accept chunk).streamOutput_frame chunk.rid).1]
  rfl

/-- What the detokenizer has of the request once a row with the tokens of `chunk` is stored. -/
theorem Running.receive (h : Running c t status) (chunk : Chunk) :
    (t.stream chunk).1.req.Buffered (t.req.outputIds ++ chunk.tokens) ∧
      Within (receive status (t.stream chunk).2) ∧
      (chunk.tokens ≠ [] → (receive status (t.stream chunk).2).surrOffset <
        (receive status (t.stream chunk).2).decodeIds.length) ∧
      (c.AtBoundary t.req.tail → Follows c t.req.tail (View.ofChunks c t.chunks)
        ((View.ofChunks c t.chunks).rest ++ chunk.tokens) (receive status (t.stream chunk).2)) := by
  have hout := Req.outputIdsThroughStop_accept h.finishedLen chunk
  rcases h.status with ⟨hfresh, hchunks, rfl⟩ | ⟨hbuf, s, rfl, hw, hfollows⟩
  · obtain ⟨hbuf', hids, hread⟩ := (hfresh.accept chunk).streamOutput chunk.rid
    rw [hout] at hbuf' hids
    have houts : t.req.outputIds = [] := by rw [h.outputIds, hchunks, flatten_nil]
    rw [houts, nil_append, Req.tail_accept] at hids
    rw [Req.tail_accept] at hread
    refine ⟨hbuf', ⟨Nat.zero_le _, ?_⟩, ?_, ?_⟩
    · show (t.stream chunk).2.readOffset ≤ (t.stream chunk).2.decodeIds.length
      rw [show (t.stream chunk).2.readOffset = _ from hread, show (t.stream chunk).2.decodeIds = _ from hids,
        length_append]
      exact Nat.le_add_right _ _
    · intro hne
      show 0 < (t.stream chunk).2.decodeIds.length
      rw [show (t.stream chunk).2.decodeIds = _ from hids, length_append]
      have := length_pos_of_ne_nil hne
      omega
    · intro hb
      rw [hchunks]
      refine ⟨?_, ?_, Nat.zero_le _, ?_, ?_, rfl⟩
      · show (t.stream chunk).2.decodeIds = t.req.tail ++ [] ++ ([] ++ chunk.tokens)
        rw [show (t.stream chunk).2.decodeIds = _ from hids, append_nil, nil_append]
      · show (t.stream chunk).2.readOffset = (t.req.tail ++ []).length
        rw [show (t.stream chunk).2.readOffset = _ from hread, append_nil]
      · show c.AtBoundary (t.req.tail ++ [])
        rwa [append_nil]
      · exact (Req.decodedText_accept t.req chunk).trans h.decodedText
  · obtain ⟨hbuf', hids⟩ := (hbuf.accept chunk).streamOutput hout chunk.rid
    rw [hout] at hbuf'
    have hreceive : receive (some s) (t.stream chunk).2 =
        { s with decodeIds := s.decodeIds ++ chunk.tokens } := by
      show { s with decodeIds := s.decodeIds ++ (t.stream chunk).2.decodeIds } = _
      rw [show (t.stream chunk).2.decodeIds = chunk.tokens from hids]
    rw [hreceive]
    refine ⟨hbuf', ⟨hw.surrOffset, ?_⟩, ?_, ?_⟩
    · rw [length_append]
      exact hw.readOffset.trans (Nat.le_add_right _ _)
    · intro hne
      show s.surrOffset < (s.decodeIds ++ chunk.tokens).length
      have := hw.surrOffset.trans hw.readOffset
      have := length_pos_of_ne_nil hne
      rw [length_append]
      omega
    · intro hb
      have hf := hfollows hb
      refine ⟨?_, hf.readOffset, hf.surrOffset, hf.surr, hf.decodedText, hf.sentOffset⟩
      rw [hf.decodeIds, append_assoc]

/-- **A streaming message** keeps a request running. -/
theorem Running.stream_streaming (h : Running c t status) (hfin : chunk.finish = none) :
    ∃ res, stepRow c status (t.stream chunk).2 = some res ∧
      Running c ((t.stream chunk).1.deliver res.2) res.1 := by
  obtain ⟨hbuf, hw, -, hfollows⟩ := h.receive chunk
  have hreason : (t.stream chunk).2.finishedReason = none := by
    show (t.req.accept chunk).finishedReason = none
    rw [Req.accept_streaming hfin]
    exact h.finishedReason
  obtain ⟨res, hres⟩ : ∃ res, stepRow c status (t.stream chunk).2 = some res := by
    refine exists_stepRow c ?_
    rintro ⟨matched, hx⟩
    rw [hreason] at hx
    cases hx
  have hchunks : (t.stream chunk).1.chunks = t.chunks ++ [chunk.tokens] := by
    show (if chunk.finish.isNone then _ else _) = _
    rw [hfin]
    rfl
  obtain ⟨-, -, htext, houts, hreason', hlen⟩ := (t.req.accept chunk).streamOutput_frame chunk.rid
  have hids : (t.stream chunk).1.req.outputIds = t.req.outputIds ++ chunk.tokens := by
    rw [show (t.stream chunk).1.req.outputIds = _ from houts, Req.accept_streaming hfin]
  have hvalid := View.ofChunks_valid (c := c) t.chunks
  refine ⟨res, hres, ?_⟩
  have hstreamed (hb : c.AtBoundary t.req.tail) := (hfollows hb).stepRow_streaming hvalid hreason
  refine { finishedReason := hreason'.trans hreason, finishedLen := ?_, decodedText := ?_, outputIds := ?_,
           status := .inr ⟨?_, ?_⟩, sends := ?_ }
  · refine hlen.trans ?_
    rw [Req.accept_streaming hfin]
    exact h.finishedLen
  · exact htext.trans ((Req.decodedText_accept t.req chunk).trans h.decodedText)
  · show (t.stream chunk).1.req.outputIds = (t.stream chunk).1.chunks.flatten
    rw [hids, hchunks, h.outputIds, flatten_append, flatten_singleton]
  · show (t.stream chunk).1.req.Buffered (t.stream chunk).1.req.outputIds
    rwa [hids]
  · obtain ⟨s, hs⟩ := exists_status_of_streaming hres hreason
    refine ⟨s, hs, hw.emit hres hs, ?_⟩
    intro hb
    rw [tail_deliver] at hb ⊢
    obtain ⟨s', hres', hs'⟩ := hstreamed hb
    rw [hres] at hres'
    obtain rfl : s = s' := some.inj (hs.symm.trans (congrArg Prod.fst (some.inj hres')))
    rw [show ((t.stream chunk).1.deliver res.2).chunks = _ from hchunks, View.ofChunks_concat]
    exact hs'
  · intro hb
    rw [tail_deliver] at hb
    obtain ⟨s', hres', -⟩ := hstreamed hb
    rw [hres] at hres'
    have hsend := (h.sends hb).send (hvalid.shown_prefix_push (g := chunk.tokens))
    rw [show ((t.stream chunk).1.deliver res.2).chunks = _ from hchunks, steady_concat_iff,
      View.ofChunks_concat, some.inj hres']
    exact hsend

/-- **The last message** leaves a finished request. -/
theorem Running.stream_finished {f : FinishReason × List ℕ} (h : Running c t status)
    (hfin : chunk.finish = some f)
    (hlast : ∀ matched, f.1 = .matchedToken matched → chunk.tokens.getLast? = some matched) :
    ∃ res, stepRow c status (t.stream chunk).2 = some res ∧
      Finished c ((t.stream chunk).1.deliver res.2) res.1 := by
  obtain ⟨-, hw, hne, hfollows⟩ := h.receive chunk
  have hreason : (t.stream chunk).2.finishedReason = some f.1 := by
    show (t.req.accept chunk).finishedReason = some f.1
    rw [Req.accept_finished hfin]
  have hstop : (∃ matched, f.1 = .matchedToken matched) → chunk.tokens ≠ [] := by
    rintro ⟨matched, hf⟩ hnil
    have := hlast matched hf
    rw [hnil] at this
    cases this
  obtain ⟨res, hres⟩ : ∃ res, stepRow c status (t.stream chunk).2 = some res := by
    refine exists_stepRow c ?_
    rintro ⟨matched, hx⟩
    exact hne (hstop ⟨matched, some.inj (hreason.symm.trans hx)⟩)
  have hchunks : (t.stream chunk).1.chunks = t.chunks := by
    show (if chunk.finish.isNone then _ else _) = _
    rw [hfin]
    rfl
  obtain ⟨-, htrim, -, houts, hreason', hlen⟩ := (t.req.accept chunk).streamOutput_frame chunk.rid
  have hthrough : (t.stream chunk).1.req.outputIdsThroughStop = t.req.outputIds ++ chunk.tokens := by
    rw [← Req.outputIdsThroughStop_accept h.finishedLen]
    unfold Req.outputIdsThroughStop
    rw [show (t.stream chunk).1.req.finishedLen = _ from hlen,
      show (t.stream chunk).1.req.outputIds = _ from houts]
  have hvalid := View.ofChunks_valid (c := c) t.chunks
  refine ⟨res, hres, ?_, ?_, ?_⟩
  · obtain ⟨ids, -, rfl⟩ := map_eq_some_iff.mp hres
    unfold emit
    rw [hreason]
  · intro matched hm
    have hf : f.1 = .matchedToken matched := some.inj (hreason.symm.trans (hreason'.symm.trans hm))
    show (t.stream chunk).1.req.outputIdsThroughStop.getLast? = some matched
    rw [hthrough, getLast?_append, hlast matched hf]
    rfl
  · intro reason hr hstr hb
    obtain rfl : f.1 = reason := some.inj (hreason.symm.trans (hreason'.symm.trans hr))
    rw [tail_deliver] at hb
    have hstop' : (∃ matched, some f.1 = some (.matchedToken matched)) → chunk.tokens ≠ [] :=
      fun ⟨matched, heq⟩ => hstop ⟨matched, some.inj heq⟩
    obtain ⟨y, hy⟩ := exists_trimMatchedStopIds c t.req.noStopTrim hstop'
    have hkept : trimMatchedStopIds c (t.req.outputIds ++ chunk.tokens) (some f.1) t.req.noStopTrim =
        some (t.req.outputIds ++ y) := by
      rw [trimMatchedStopIds_append hstop', hy]
      rfl
    have htrim' : (t.req.accept chunk).noStopTrim = t.req.noStopTrim := by rw [Req.accept_finished hfin]
    have htokens : t.req.outputIds = (View.ofChunks c t.chunks).done ++ (View.ofChunks c t.chunks).rest :=
      h.outputIds.trans (View.ofChunks_tokens t.chunks).symm
    have hstep := (hfollows hb).stepRow_finished hvalid hreason hstr
      (fun hm hnil => hstop hm (append_eq_nil_iff.mp hnil).2) (by
        rw [← append_assoc, ← htokens, show (t.stream chunk).2.noStopTrim = _ from htrim']
        exact hkept)
    rw [hres] at hstep
    have hshown : (View.ofChunks c t.chunks).shown c <+: c.decode (t.req.outputIds ++ y) := by
      rw [htokens, append_assoc, hvalid.done.decode_append]
      exact hvalid.shown_prefix_text y
    refine ⟨t.req.outputIds ++ y, ?_, ?_⟩
    · rw [show ((t.stream chunk).1.deliver res.2).req.outputIdsThroughStop = _ from hthrough,
        show ((t.stream chunk).1.deliver res.2).req.noStopTrim = _ from htrim, htrim']
      exact hkept
    · have hsend := (h.sends hb).send fun _ => hshown
      rw [and_iff_left hshown.length_le] at hsend
      rw [show ((t.stream chunk).1.deliver res.2).chunks = _ from hchunks, some.inj hstep]
      exact hsend

end Request

/-! ## What holds in every state of a run -/

namespace System

variable {c : Config} {sys sys' : System} {batch : List Chunk}

/-- A batch does for each request of its chunks what the row of the chunk does, and nothing for the others. -/
theorem stream_spec (hnd : (batch.map Chunk.rid).Nodup)
    (hstep : ∀ chunk ∈ batch, ∃ t res, sys.reqs.lookup chunk.rid = some t ∧
      stepRow c (sys.manager.lookup chunk.rid) (t.stream chunk).2 = some res) :
    ∃ sys', sys.stream c batch = some sys' ∧ (∀ chunk ∈ batch, ∀ t res, sys.reqs.lookup chunk.rid = some t →
        stepRow c (sys.manager.lookup chunk.rid) (t.stream chunk).2 = some res →
        sys'.reqs.lookup chunk.rid = some ((t.stream chunk).1.deliver res.2) ∧
          sys'.manager.lookup chunk.rid = res.1) ∧ ∀ rid ∉ batch.map Chunk.rid,
        sys'.reqs.lookup rid = sys.reqs.lookup rid ∧ sys'.manager.lookup rid = sys.manager.lookup rid := by
  have hreqs : ∀ chunk ∈ batch, ∃ t, sys.reqs.lookup chunk.rid = some t := by
    intro chunk hchunk
    obtain ⟨t, -, ht, -⟩ := hstep chunk hchunk
    exact ⟨t, ht⟩
  choose! t ht using hreqs
  let w chunk := (t chunk).stream chunk
  have hrows : ∀ x ∈ batch.map fun chunk => (w chunk).2, ∃ res,
      stepRow c (sys.manager.lookup x.rid) x = some res := by
    intro x hx
    obtain ⟨chunk, hchunk, rfl⟩ := mem_map.mp hx
    obtain ⟨t', res, ht', hres⟩ := hstep chunk hchunk
    obtain rfl := some.inj ((ht chunk hchunk).symm.trans ht')
    exact ⟨res, hres⟩
  choose! res hres using hrows
  have hentries : (batch.filterMap fun chunk => (sys.reqs.lookup chunk.rid).map fun t => t.stream chunk) =
      batch.map w := by
    rw [← filterMap_eq_map']
    refine filterMap_congr fun chunk hchunk => ?_
    rw [ht chunk hchunk]
    rfl
  have hrids : (batch.map fun chunk => (w chunk).2).map Row.rid = batch.map Chunk.rid := by
    rw [List.map_map]
    rfl
  obtain ⟨m', hdecode, hrows, hrest⟩ := decodeBatchTokenIdOutput_spec (hrids ▸ hnd) hres
  rw [hrids] at hrest
  let back := batch.map fun chunk => (chunk.rid, (w chunk).1.deliver (res (w chunk).2).2)
  have hzip : ((batch.map w).zip ((batch.map fun chunk => (w chunk).2).map fun x => (res x).2)).map
        (fun e => (e.1.2.rid, e.1.1.deliver e.2)) =
      back := by
    rw [List.map_map, zip_map', List.map_map]
    rfl
  have hkeys : back.map Prod.fst = batch.map Chunk.rid := map_map
  refine ⟨⟨Dict.insertAll sys.reqs back, m'⟩, ?_, ?_, ?_⟩
  · unfold stream
    dsimp only
    rw [hentries, List.map_map]
    show Option.map _ (decodeBatchTokenIdOutput c sys.manager (batch.map fun chunk => (w chunk).2)) = _
    rw [hdecode, map_some, hzip]
  · intro chunk hchunk t' res' ht' hres'
    obtain rfl := some.inj ((ht chunk hchunk).symm.trans ht')
    have hx := mem_map_of_mem (f := fun chunk => (w chunk).2) hchunk
    obtain rfl := some.inj ((hres _ hx).symm.trans hres')
    refine ⟨?_, hrows _ hx⟩
    apply Dict.lookup_insertAll_of_mem
    · rwa [hkeys]
    · exact mem_map.mpr ⟨chunk, hchunk, rfl⟩
  · intro rid hrid
    refine ⟨?_, hrest rid hrid⟩
    apply Dict.lookup_insertAll_of_notMem
    rwa [hkeys]

/-- Every request is running or finished, and the detokenizer knows no others. -/
structure Inv (c : Config) (sys : System) : Prop where
  requests : ∀ rid t, sys.reqs.lookup rid = some t →
    Running c t (sys.manager.lookup rid) ∨ t.req.finishedReason ≠ none ∧ Finished c t (sys.manager.lookup rid)
  unknown : ∀ rid, sys.reqs.lookup rid = none → sys.manager.lookup rid = none

/-- **One step**: the detokenizer answers every message, and what holds of the requests is kept. -/
theorem Inv.apply (h : sys.Inv c) {e : Event} (he : sys.Allowed e) : ∃ sys', sys.apply c e = some sys' ∧
    sys'.Inv c := by
  cases e with
  | arrive rid originInputIds noStopTrim =>
    have hnone := h.unknown rid (AList.lookup_eq_none.mpr he)
    refine ⟨_, rfl, ?_, ?_⟩
    · intro r t ht
      rcases Dict.lookup_insert_iff.mp ht with ⟨rfl, rfl⟩ | ⟨-, ht⟩
      · exact .inl (hnone ▸ running_arrive c originInputIds noStopTrim)
      · exact h.requests r t ht
    · intro r hr
      have hne : r ≠ rid := by
        rintro rfl
        rw [show (sys.reqs.insert r _).lookup r = _ from AList.lookup_insert _] at hr
        cases hr
      rw [show (sys.reqs.insert rid _).lookup r = _ from AList.lookup_insert_ne hne] at hr
      exact h.unknown r hr
  | stream batch =>
    obtain ⟨hnd, hbatch⟩ := he
    have hrow : ∀ chunk ∈ batch, ∃ t res, sys.reqs.lookup chunk.rid = some t ∧
        stepRow c (sys.manager.lookup chunk.rid) (t.stream chunk).2 = some res ∧
        (Running c ((t.stream chunk).1.deliver res.2) res.1 ∨
          (t.stream chunk).1.req.finishedReason ≠ none ∧
            Finished c ((t.stream chunk).1.deliver res.2) res.1) := by
      intro chunk hchunk
      obtain ⟨⟨t, ht, hunfin⟩, hlast⟩ := hbatch chunk hchunk
      have hrun := (h.requests _ t ht).resolve_right fun hf => hf.1 hunfin
      cases hfin : chunk.finish with
      | none =>
        obtain ⟨res, hres, hrun'⟩ := hrun.stream_streaming hfin
        exact ⟨t, res, ht, hres, .inl hrun'⟩
      | some f =>
        obtain ⟨res, hres, hdone⟩ := hrun.stream_finished hfin (hlast f hfin)
        refine ⟨t, res, ht, hres, .inr ⟨?_, hdone⟩⟩
        have hreason := ((t.req.accept chunk).streamOutput_frame chunk.rid).2.2.2.2.1
        rw [show (t.stream chunk).1.req.finishedReason = _ from hreason, Req.accept_finished hfin]
        exact some_ne_none _
    obtain ⟨sys', hstream, hrows, hrest⟩ := stream_spec hnd fun chunk hchunk => by
      obtain ⟨t, res, ht, hres, -⟩ := hrow chunk hchunk
      exact ⟨t, res, ht, hres⟩
    refine ⟨sys', hstream, ?_, ?_⟩
    · intro rid t' ht'
      by_cases hrid : rid ∈ batch.map Chunk.rid
      · obtain ⟨chunk, hchunk, rfl⟩ := mem_map.mp hrid
        obtain ⟨t, res, ht, hres, hlive⟩ := hrow chunk hchunk
        obtain ⟨hreq, hstatus⟩ := hrows chunk hchunk t res ht hres
        obtain rfl := some.inj (hreq.symm.trans ht')
        rw [hstatus]
        exact hlive
      · rw [(hrest rid hrid).1] at ht'
        rw [(hrest rid hrid).2]
        exact h.requests rid t' ht'
    · intro rid hnone
      by_cases hrid : rid ∈ batch.map Chunk.rid
      · obtain ⟨chunk, hchunk, rfl⟩ := mem_map.mp hrid
        obtain ⟨t, res, ht, hres, -⟩ := hrow chunk hchunk
        rw [(hrows chunk hchunk t res ht hres).1] at hnone
        cases hnone
      · rw [(hrest rid hrid).1] at hnone
        rw [(hrest rid hrid).2]
        exact h.unknown rid hnone

/-- **Every run.** -/
theorem Reachable.inv (h : Reachable c sys) : sys.Inv c := by
  induction h with
  | refl => exact ⟨nofun, fun _ _ => rfl⟩
  | tail _ hstep ih =>
    obtain ⟨e, he, happly⟩ := hstep
    obtain ⟨sys', heq, hinv⟩ := ih.apply he
    obtain rfl := some.inj (heq.symm.trans happly)
    exact hinv

/-! ## The text of a finished request -/

/-- The detokenizer keeps the stop token: it is the tool call token of gpt-oss. -/
def KeepsCall (c : Config) (q : Req) : Prop :=
  q.finishedReason = some (.matchedToken 200012) ∧ c.isToolCallParserGptOss ∧ ¬ q.noStopTrim

/-- The tokens the detokenizer keeps begin with those whose text is due, and are the same unless it keeps a
call. -/
theorem kept_cases {t : Tracked} {status : Option DecodeStatus} {reason : FinishReason} {kept : List ℕ}
    (h : Finished c t status) (hr : t.req.finishedReason = some reason)
    (hreason : reason = .length ∨ ∃ matched, 0 < matched ∧ reason = .matchedToken matched)
    (hkept : trimMatchedStopIds c t.req.outputIdsThroughStop (some reason) t.req.noStopTrim = some kept) :
    ¬ KeepsCall c t.req ∧ kept = t.req.textIds ∨
      KeepsCall c t.req ∧ kept = t.req.outputIdsThroughStop ∧
        t.req.textIds = t.req.outputIdsThroughStop.dropLast := by
  unfold trimMatchedStopIds at hkept
  unfold Req.textIds KeepsCall
  rw [hr]
  rcases hreason with rfl | ⟨matched, hpos, rfl⟩
  · rw [show (if t.req.noStopTrim then some t.req.outputIdsThroughStop else some
      t.req.outputIdsThroughStop) = _ from
      ite_self _] at hkept
    exact .inl ⟨nofun, (some.inj hkept).symm⟩
  · by_cases htrim : t.req.noStopTrim
    · rw [if_pos htrim] at hkept
      refine .inl ⟨fun hcall => hcall.2.2 htrim, ?_⟩
      rw [if_pos htrim]
      exact (some.inj hkept).symm
    · rw [if_neg htrim] at hkept
      dsimp only at hkept ⊢
      rw [if_neg hpos.ne', h.last matched hr] at hkept
      rw [if_neg htrim]
      dsimp only at hkept
      by_cases hcall : matched = 200012 ∧ c.isToolCallParserGptOss
      · rw [if_pos hcall] at hkept
        exact .inr ⟨⟨by rw [hcall.1], hcall.2, htrim⟩, (some.inj hkept).symm, rfl⟩
      · rw [if_neg hcall] at hkept
        refine .inl ⟨?_, (some.inj hkept).symm⟩
        rintro ⟨hm, hgpt, -⟩
        cases hm
        exact hcall ⟨rfl, hgpt⟩

/-- The prompt's tail ends where the prompt ends. -/
theorem atBoundary_tail {q : Req} (h : c.AtBoundary q.originInputIds) : c.AtBoundary q.tail := by
  rw [← take_append_drop (q.originInputIds.length - INIT_INCREMENTAL_DETOKENIZATION_OFFSET)
    q.originInputIds] at h
  exact h.of_append

theorem decode_dropLast_length_le (ids : List ℕ) : (c.decode ids.dropLast).length ≤ (c.decode ids).length := by
  conv_rhs => rw [← take_append_drop (ids.length - 1) ids]
  rw [dropLast_eq_take]
  exact Config.decode_length_le _ _

/-- A tokenizer with a token for each byte. -/
def byteTokenizer : Config :=
  { tokenBytes := fun id => if id < 256 then [id] else [], isToolCallParserGptOss := false }

/-- **The strings a finished request was sent add up to the decoding of its output tokens, and at no time were
more than a beginning of it, exactly if no message showed less than the one before it**, in every run with any
number of requests and any chunks; where the detokenizer keeps the tool call token, that token must have no
text. -/
theorem strings_reproduce_text_iff (h : Reachable c sys) {rid : ℕ} {t : Tracked} {reason : FinishReason}
    (ht : sys.reqs.lookup rid = some t) (hr : t.req.finishedReason = some reason)
    (hreason : reason = .length ∨ ∃ matched, 0 < matched ∧ reason = .matchedToken matched)
    (hprompt : c.AtBoundary t.req.originInputIds) :
    (t.sent.flatten = c.decode t.req.textIds ∧ ∀ k, (t.sent.take k).flatten <+: c.decode t.req.textIds) ↔
      Steady c t.chunks ∧ (KeepsCall c t.req →
        c.decode t.req.outputIdsThroughStop = c.decode t.req.outputIdsThroughStop.dropLast) := by
  have hfin : Finished c t (sys.manager.lookup rid) := by
    rcases h.inv.requests rid t ht with hrun | hfin
    · rw [hrun.finishedReason] at hr
      cases hr
    · exact hfin.2
  have hstr : ∀ str, reason ≠ .matchedStr str := by
    rintro str rfl
    rcases hreason with hlen | ⟨matched, -, heq⟩
    · cases hlen
    · cases heq
  obtain ⟨kept, hkept, hsends⟩ := hfin.sends reason hr hstr (atBoundary_tail hprompt)
  have hpre (k : ℕ) : (t.sent.take k).flatten <+: t.sent.flatten := by
    conv_rhs => rw [← take_append_drop k t.sent, flatten_append]
    exact prefix_append _ _
  have hsum : t.sent.flatten = c.decode kept ↔ Steady c t.chunks := by
    refine ⟨fun heq => not_not.mp fun hn => ?_, hsends.eq⟩
    exact absurd (hsends.lt hn) (by rw [heq]; exact lt_irrefl _)
  rw [and_iff_left_of_imp fun heq k => heq ▸ hpre k]
  rcases kept_cases hfin hr hreason hkept with ⟨hcall, rfl⟩ | ⟨hcall, rfl, htext⟩
  · rw [hsum, and_iff_left fun hc => absurd hc hcall]
  · rw [htext, ← hsum]
    constructor
    · intro heq
      have hlt : ¬ (c.decode t.req.outputIdsThroughStop).length < t.sent.flatten.length := by
        rw [heq]
        exact Nat.not_lt.mpr (decode_dropLast_length_le _)
      have hsteady : Steady c t.chunks := not_not.mp fun hn => hlt (hsends.lt hn)
      have hall := hsends.eq hsteady
      exact ⟨hall, fun _ => hall.symm.trans heq⟩
    · rintro ⟨heq, hcallText⟩
      exact heq.trans (hcallText hcall)

/-- A request that is sent a CJK character, a character split between two messages, and a stop token. -/
theorem strings_reproduce_text_iff_split : ∃ sys t, Reachable byteTokenizer sys ∧ sys.reqs.lookup 0 = some t ∧
    t.req.finishedReason = some (.matchedToken 2) ∧ t.sent = [[0x4F60], [0xE9]] ∧
    t.sent.flatten = byteTokenizer.decode t.req.textIds := by
  have hreach : Reachable byteTokenizer _ :=
    .head ⟨.arrive 0 [0x61] false, not_mem_nil, rfl⟩
    (.head ⟨.stream [{ rid := 0, tokens := [0xE4, 0xBD, 0xA0, 0xC3] }],
      ⟨by decide, forall_mem_singleton.mpr ⟨⟨_, rfl, rfl⟩, nofun⟩⟩, rfl⟩
    (.single ⟨.stream [{ rid := 0, tokens := [0xA9, 2], finish := some (.matchedToken 2, []) }],
      ⟨by decide, forall_mem_singleton.mpr ⟨⟨_, rfl, rfl⟩, by rintro _ ⟨⟩ _ ⟨⟩; rfl⟩⟩, rfl⟩))
  have hsteady : Steady byteTokenizer ([] ++ [[0xE4, 0xBD, 0xA0, 0xC3]]) :=
    steady_concat_iff.mpr ⟨steady_nil _, by decide⟩
  exact ⟨_, _, hreach, rfl, rfl, rfl,
    ((@strings_reproduce_text_iff _ _ hreach 0 _ _ rfl rfl (.inr ⟨2, by decide, rfl⟩)
    (by decide)).mpr ⟨hsteady, fun hcall => absurd hcall.2.1 Bool.false_ne_true⟩).1⟩

/-- A CJK character and the first byte of another one are streamed, and the character is printed; the next
message ends in the first byte of a character again, behind a letter, and prints nothing; so the last one sends
the character for a second time. -/
theorem printed_character_sent_again : ∃ sys t, Reachable byteTokenizer sys ∧ sys.reqs.lookup 0 = some t ∧
    t.req.finishedReason = some .length ∧ byteTokenizer.AtBoundary t.req.originInputIds ∧
    t.sent = [[0x4F60], [], [0x4F60, 0xE9, 0x78, 0xE9]] ∧
    byteTokenizer.decode t.req.textIds = [0x4F60, 0xE9, 0x78, 0xE9] := by
  refine ⟨_, _, .head ⟨.arrive 0 [0x61] false, not_mem_nil, rfl⟩
    (.head ⟨.stream [{ rid := 0, tokens := [0xE4, 0xBD, 0xA0, 0xC3] }], ⟨by decide, ?_⟩, rfl⟩
    (.head ⟨.stream [{ rid := 0, tokens := [0xA9, 0x78, 0xC3] }], ⟨by decide, ?_⟩, rfl⟩
    (.single ⟨.stream [{ rid := 0, tokens := [0xA9], finish := some (.length, []) }], ⟨by decide, ?_⟩, rfl⟩))),
    rfl, rfl, by decide, rfl, rfl⟩
  · exact forall_mem_singleton.mpr ⟨⟨_, rfl, rfl⟩, nofun⟩
  · exact forall_mem_singleton.mpr ⟨⟨_, rfl, rfl⟩, nofun⟩
  · refine forall_mem_singleton.mpr ⟨⟨_, rfl, rfl⟩, ?_⟩
    rintro _ ⟨⟩ _ ⟨⟩

end System

end SGLang.Detokenizer
