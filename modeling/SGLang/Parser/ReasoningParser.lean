/-
# SGLang.Parser.ReasoningParser — splitting a stream into reasoning and normal text.

The model of `BaseReasoningFormatDetector`. The detector gets the output of a model in chunks and sends each
chunk on as reasoning or as normal text. A chunk is held back only if all that is in the buffer is the beginning
of a tag; a tag whose beginning came at the end of other text is not recognised, and neither is a start tag
after which the buffer is kept. So what comes out depends on the chunks.

`Clean` says of a chunk, with the text that still comes, that cutting here does no harm; in a run of such chunks
the reasoning and the normal text are those of the whole text in one chunk, up to whitespace at the ends. The
induction goes over the chunks from the right: what the remaining chunks give is what the remaining text gives,
and one cut is harmless (`feed_append`). Whitespace may differ only where nothing can come before or after it,
which `Agrees` keeps track of.
-/
import SGLang.Lib.Substring

namespace SGLang.Parser

open SGLang.Lib SGLang.Lib.Substring List
open Bool (and_eq_true eq_false_iff)
open Char (isWhitespace)

/-- A Python string. -/
abbrev Str := List Char

/-- The tags of a format and whether reasoning is streamed. -/
structure Format where
  thinkStartToken : Str
  thinkStartSelfLabel : Str
  thinkEndToken : Str
  toolStartToken : Option Str
  streamReasoning : Bool

/-- The state of a detector between two chunks. -/
structure DetectorState where
  inReasoning : Bool
  strippedThinkStart : Bool
  buffer : Str
  deriving DecidableEq, Repr

/-- The state with another buffer. -/
def DetectorState.hold (s : DetectorState) (buffer : Str) : DetectorState := { s with buffer := buffer }

/-- The state outside of reasoning, with an empty buffer. -/
def DetectorState.leave (s : DetectorState) : DetectorState := { s with buffer := [], inReasoning := false }

@[simp] theorem DetectorState.hold_buffer (s : DetectorState) (b : Str) : (s.hold b).buffer = b := rfl

@[simp] theorem DetectorState.hold_hold (s : DetectorState) (b b' : Str) : (s.hold b).hold b' = s.hold b' := rfl

@[ext]
structure StreamingParseResult where
  normalText : Str
  reasoningText : Str
  deriving DecidableEq, Repr

namespace StreamingParseResult

def empty : StreamingParseResult := ⟨[], []⟩

/-- What two calls return, one after the other. -/
def append (r s : StreamingParseResult) : StreamingParseResult :=
  ⟨r.normalText ++ s.normalText, r.reasoningText ++ s.reasoningText⟩

end StreamingParseResult

/-- `__init__` of the base class; `previousContent` is that of a continued message, else empty. -/
def DetectorState.init (F : Format) (forceReasoning : Bool) (previousContent : Str) : DetectorState :=
  let inReasoning := if (find F.thinkStartToken previousContent).isSome then true else forceReasoning
  let inReasoning := if (find F.thinkEndToken previousContent).isSome then false else inReasoning
  ⟨inReasoning, false, []⟩

/-- How the reasoning in a text ends. -/
inductive Scan
  | ended (reasoning normal : Str)
  | interrupted (reasoning normal : Str)
  | running
  deriving DecidableEq, Repr

/-- The text that comes before goes to the reasoning. -/
def Scan.after (x : Str) : Scan → Scan
  | .ended r n => .ended (x ++ r) n
  | .interrupted r n => .interrupted (x ++ r) n
  | .running => .running

namespace Format

variable (F : Format)

def thinkStartText : Str := F.thinkStartToken ++ F.thinkStartSelfLabel

/-- The tool tag; an empty one counts as none. -/
def toolToken : Option Str := F.toolStartToken.filter fun tool => tool ≠ []

def tokensToCheck : List Str := [F.thinkStartText, F.thinkEndToken] ++ F.toolToken.toList

/-- All of the text is the beginning of a tag that is not complete. -/
def isPartial (text : Str) : Bool :=
  F.tokensToCheck.any fun token => decide (text <+: token) && decide (token ≠ text)

/-- The end tag counts before the tool tag, wherever it is. -/
def scan (text : Str) : Scan :=
  match find F.thinkEndToken text with
  | some k => .ended (text.take k) (text.drop (k + F.thinkEndToken.length))
  | none =>
    match F.toolToken.bind fun tool => find tool text with
    | some k => .interrupted (text.take k) (text.drop k)
    | none => .running

/-- The buffer has a start tag that is taken out. -/
def takesStart (s : DetectorState) : Bool := !s.strippedThinkStart && (find F.thinkStartText s.buffer).isSome

/-- The first step on a buffer: the state, and the text without the start tag. -/
def enter (s : DetectorState) : DetectorState × Str :=
  if F.takesStart s then
    ({ s with strippedThinkStart := true, inReasoning := true }, removeFirst F.thinkStartText s.buffer)
  else (s, s.buffer)

-- the whitespace characters of Python
variable (isSpace : Char → Bool)

variable (s : DetectorState)

/-- The second step: the text goes out as reasoning, as normal text, or is split. -/
def emit (currentText : Str) : DetectorState × StreamingParseResult :=
  if s.inReasoning then
    match F.scan currentText with
    | .ended reasoning normal =>
      (s.leave, ⟨normal, rstrip isSpace reasoning⟩)
    | .interrupted reasoning normal => (s.leave, ⟨normal, reasoning⟩)
    | .running =>
      if F.streamReasoning then (s.hold [], ⟨[], currentText⟩)
      -- the buffer is kept as it is, with the start tag
      else (s, .empty)
  else (s.hold [], ⟨currentText, []⟩)

/-- What is done with a buffer that is not held back. -/
def settle : DetectorState × StreamingParseResult :=
  F.emit isSpace (F.enter s).1 (F.enter s).2

/-- `parse_streaming_increment`. -/
def parseStreamingIncrement (newText : Str) : DetectorState × StreamingParseResult :=
  let s := s.hold (s.buffer ++ newText)
  if F.isPartial s.buffer then (s, .empty) else F.settle isSpace s

/-- The chunks one after the other, and all that they give. -/
def run (s : DetectorState) : List Str → DetectorState × StreamingParseResult
  | [] => (s, .empty)
  | chunk :: chunks =>
    let (s, r) := F.parseStreamingIncrement isSpace s chunk
    let (s, rest) := run s chunks
    (s, r.append rest)

/-! ## Cuts that do no harm -/

variable (s : DetectorState)

/-- No tag starts in the text and ends in what comes after it, less the start tag that is still to be taken out.
The tool tag may, if an end tag is still to come. -/
def Apart (text rest : Str) : Prop :=
  (s.strippedThinkStart = true ∨ Clear F.thinkStartText text rest) ∧
    Clear F.thinkEndToken text (F.enter (s.hold rest)).2 ∧
    (find F.thinkEndToken (F.enter (s.hold rest)).2 = none →
      ∀ tool ∈ F.toolToken, Clear tool text (F.enter (s.hold rest)).2)

/-- No start tag will be taken out any more. -/
def Started (raw rest : Str) : Prop :=
  s.strippedThinkStart = true ∨ find F.thinkStartText (raw ++ rest) = none

/-- Cutting between the buffer, which is not held back, and the rest of the text does no harm:
- after the end of the reasoning no start tag is taken out any more, and no end tag follows a tool tag;
- within the reasoning, if it is streamed, no tag is cut; if it is not, the start tag was taken out before, or
  the reasoning does not end;
- before the reasoning there is no start tag to come, or there is only whitespace and no tag is cut. -/
def Harmless (rest : Str) : Prop :=
  if (F.enter s).1.inReasoning then
    match F.scan (F.enter s).2 with
    | .ended _ _ => F.Started (F.enter s).1 s.buffer rest
    | .interrupted _ _ =>
      F.Started (F.enter s).1 s.buffer rest ∧ find F.thinkEndToken ((F.enter s).2 ++ rest) = none
    | .running =>
      if F.streamReasoning then F.Apart (F.enter s).1 (F.enter s).2 rest
      else F.takesStart s = true →
        F.scan (s.buffer ++ rest) = .running ∧ F.scan ((F.enter s).2 ++ rest) = .running
  else
    F.Started (F.enter s).1 s.buffer rest ∨
      (∀ c ∈ s.buffer, isSpace c = true) ∧ F.Apart (F.enter s).1 (F.enter s).2 rest

/-- The buffer is kept: in reasoning that goes on and is not streamed. -/
def Keeps : Prop :=
  (F.enter s).1.inReasoning = true ∧ F.scan (F.enter s).2 = .running ∧ F.streamReasoning = false

/-- A chunk after which the text may be cut: it is held back as a whole, or the cut does no harm and the rest of
the text is more than the beginning of a tag, which would be held back for ever. -/
def Clean (chunk rest : Str) : Prop :=
  F.isPartial (s.buffer ++ chunk) = true ∨
    (F.isPartial rest = false ∨ F.Keeps (s.hold (s.buffer ++ chunk))) ∧
      F.Harmless isSpace (s.hold (s.buffer ++ chunk)) rest

/-- Every cut of a run is clean. -/
def CleanRun (s : DetectorState) : List Str → Prop
  | [] => True
  | [_] => True
  | chunk :: next :: chunks =>
    F.Clean isSpace s chunk (next :: chunks).flatten ∧
      CleanRun (F.parseStreamingIncrement isSpace s chunk).1 (next :: chunks)

/-! ## What the steps do when more text comes -/

section Append

variable {F isSpace} {s : DetectorState} {x y raw : Str}

theorem isPartial_append (h : F.isPartial x = false) (y : Str) : F.isPartial (x ++ y) = false := by
  unfold isPartial at h ⊢
  rw [any_eq_false] at h ⊢
  intro token hmem htoken
  rw [and_eq_true, decide_eq_true_iff, decide_eq_true_iff] at htoken
  refine h token hmem ?_
  rw [and_eq_true, decide_eq_true_iff, decide_eq_true_iff]
  refine ⟨(List.prefix_append x y).trans htoken.1, ?_⟩
  rintro rfl
  exact htoken.2 (htoken.1.eq_of_length_le (by simp)).symm

theorem scan_ended_append {r n : Str} (h : F.scan x = .ended r n) (y : Str) :
    F.scan (x ++ y) = .ended r (n ++ y) := by
  unfold scan at h
  split at h
  · next k hk =>
    cases h
    have hlen := find_length hk
    unfold scan
    rw [find_append hk y]
    show Scan.ended ((x ++ y).take k) ((x ++ y).drop (k + F.thinkEndToken.length)) = _
    rw [take_append_of_le_length (by omega), drop_append_of_le_length hlen]
  · split at h <;> cases h

theorem scan_interrupted_append {r n : Str} (h : F.scan x = .interrupted r n)
    (hend : find F.thinkEndToken (x ++ y) = none) : F.scan (x ++ y) = .interrupted r (n ++ y) := by
  unfold scan at h
  split at h
  · cases h
  split at h
  · next k hk =>
    cases h
    obtain ⟨tool, htool, hfind⟩ := Option.bind_eq_some_iff.mp hk
    have hlen := find_length hfind
    unfold scan
    rw [hend, htool, Option.bind_some, find_append hfind y]
    show Scan.interrupted ((x ++ y).take k) ((x ++ y).drop k) = _
    rw [take_append_of_le_length (by omega), drop_append_of_le_length (by omega)]
  · cases h

theorem scan_append_of_clear (hend : Clear F.thinkEndToken x y)
    (htool : find F.thinkEndToken y = none → ∀ tool ∈ F.toolToken, Clear tool x y) :
    F.scan (x ++ y) = (F.scan y).after x := by
  unfold scan
  rw [find_append_of_clear hend]
  cases hE : find F.thinkEndToken y with
  | some k =>
    show Scan.ended ((x ++ y).take (k + x.length)) ((x ++ y).drop (k + x.length + F.thinkEndToken.length)) =
      Scan.ended (x ++ y.take k) (y.drop (k + F.thinkEndToken.length))
    rw [Nat.add_comm k, take_length_add_append, Nat.add_assoc, drop_length_add_append]
  | none =>
    have hbind : (F.toolToken.bind fun tool => find tool (x ++ y)) =
        (F.toolToken.bind fun tool => find tool y).map (· + x.length) := by
      cases htok : F.toolToken with
      | none => rfl
      | some tool => exact find_append_of_clear (htool hE tool htok)
    simp only [Option.map_none, hbind]
    cases hT : F.toolToken.bind fun tool => find tool y with
    | some k =>
      show Scan.interrupted ((x ++ y).take (k + x.length)) ((x ++ y).drop (k + x.length)) =
        Scan.interrupted (x ++ y.take k) (y.drop k)
      rw [Nat.add_comm k, take_length_add_append, drop_length_add_append]
    | none => rfl

theorem enter_of_not (h : F.takesStart s = false) : F.enter s = (s, s.buffer) := by
  unfold enter
  rw [h]
  rfl

theorem enter_of_takes (h : F.takesStart s = true) : F.enter s =
    ({ s with strippedThinkStart := true, inReasoning := true }, removeFirst F.thinkStartText s.buffer) := by
  unfold enter
  rw [if_pos h]

theorem takesStart_of_stripped (h : s.strippedThinkStart = true) : F.takesStart s = false := by
  unfold takesStart
  rw [h]
  rfl

theorem takesStart_of_none (h : find F.thinkStartText s.buffer = none) : F.takesStart s = false := by
  unfold takesStart
  rw [h, Option.isSome_none, Bool.and_false]

/-- A start tag in the rest is one in the whole. -/
theorem takesStart_append_left (h : F.takesStart (s.hold y) = true) :
    F.takesStart (s.hold (x ++ y)) = true := by
  unfold takesStart at h ⊢
  rw [and_eq_true] at h ⊢
  exact ⟨h.1, Option.isSome_iff_ne_none.mpr fun hw => Option.isSome_iff_ne_none.mp h.2 (find_right_eq_none hw)⟩

theorem enter_buffer (s : DetectorState) : (F.enter s).1.buffer = s.buffer := by
  unfold enter
  split <;> rfl

theorem enter_inReasoning (h : s.inReasoning = true) : (F.enter s).1.inReasoning = true := by
  unfold enter
  split
  · rfl
  · exact h

theorem takesStart_of_outside (h : (F.enter s).1.inReasoning = false) : F.takesStart s = false := by
  cases ht : F.takesStart s with
  | false => rfl
  | true =>
    rw [enter_of_takes ht] at h
    cases h

/-- Once the start tag is dealt with, more text is just appended. -/
theorem enter_append_of_started (h : F.Started (F.enter s).1 s.buffer y) :
    F.enter (s.hold (s.buffer ++ y)) = ((F.enter s).1.hold (s.buffer ++ y), (F.enter s).2 ++ y) := by
  cases ht : F.takesStart s with
  | true =>
    have hsome : (find F.thinkStartText s.buffer).isSome = true := (and_eq_true _ _ ▸ ht).2
    have hnot : (!s.strippedThinkStart) = true := (and_eq_true _ _ ▸ ht).1
    obtain ⟨k, hk⟩ := Option.isSome_iff_exists.mp hsome
    have ht' : F.takesStart (s.hold (s.buffer ++ y)) = true := by
      show ((!s.strippedThinkStart) && (find F.thinkStartText (s.buffer ++ y)).isSome) = true
      rw [hnot, find_append hk y]
      rfl
    rw [enter_of_takes ht, enter_of_takes ht', DetectorState.hold_buffer, removeFirst_append hsome]
    rfl
  | false =>
    rw [enter_of_not ht] at h ⊢
    apply enter_of_not
    rcases h with h | h
    · exact takesStart_of_stripped h
    · exact takesStart_of_none h

/-- The rest of the text has no start tag to take out either. -/
theorem Started.takesStart_rest (h : F.Started s raw y) : F.takesStart (s.hold y) = false := by
  rcases h with h | h
  · exact takesStart_of_stripped h
  · exact takesStart_of_none (find_right_eq_none h)

/-- If no start tag is cut, the rest decides. -/
theorem enter_append_of_apart (h : F.Apart (F.enter s).1 (F.enter s).2 y) :
    F.enter (s.hold (s.buffer ++ y)) = ((F.enter ((F.enter s).1.hold y)).1.hold (s.buffer ++ y),
        (F.enter s).2 ++ (F.enter ((F.enter s).1.hold y)).2) := by
  by_cases hst : (F.enter s).1.strippedThinkStart = true
  · rw [enter_append_of_started (.inl hst),
      enter_of_not (s := (F.enter s).1.hold y) (takesStart_of_stripped hst)]
    rfl
  · have hclear := h.1.resolve_left hst
    have ht : F.takesStart s = false := by
      cases ht : F.takesStart s with
      | false => rfl
      | true =>
        rw [enter_of_takes ht] at hst
        exact absurd rfl hst
    rw [enter_of_not ht] at hclear ⊢
    have ht' : F.takesStart (s.hold (s.buffer ++ y)) = F.takesStart (s.hold y) := by
      show ((!s.strippedThinkStart) && (find F.thinkStartText (s.buffer ++ y)).isSome) = _
      rw [find_append_of_clear hclear, Option.isSome_map]
      rfl
    cases hy : F.takesStart (s.hold y) with
    | true =>
      rw [hy] at ht'
      rw [enter_of_takes hy, enter_of_takes ht', DetectorState.hold_buffer, DetectorState.hold_buffer,
        removeFirst_append_of_clear hclear]
      rfl
    | false =>
      rw [hy] at ht'
      rw [enter_of_not hy, enter_of_not ht']
      rfl

end Append

/-! ## Agreement up to whitespace -/

/-- Nothing but whitespace has gone out, and the start tag is still to come. -/
def fresh (s : DetectorState) (rest : Str) : Bool :=
  !s.inReasoning && F.takesStart (s.hold (s.buffer ++ rest))

/-- Before the reasoning starts, what goes out may differ by whitespace at both ends; later only at the end of
the reasoning. -/
def Agrees (early : Bool) (r r' : StreamingParseResult) : Prop :=
  if early then strip isSpace r.normalText = strip isSpace r'.normalText ∧
    strip isSpace r.reasoningText = strip isSpace r'.reasoningText
  else r.normalText = r'.normalText ∧ rstrip isSpace r.reasoningText = rstrip isSpace r'.reasoningText

section Agreement

variable {F isSpace} {s t : DetectorState} {rest a b text : Str} {early : Bool}
  {r r' r'' : StreamingParseResult}

theorem Agrees.of_late (h : Agrees isSpace false r r') : Agrees isSpace early r r' := by
  cases early with
  | false => exact h
  | true =>
    obtain ⟨hn, hr⟩ := h
    exact ⟨congrArg _ hn, strip_congr isSpace hr⟩

theorem Agrees.of_eq (h : r = r') : Agrees isSpace early r r' := by
  subst h
  exact Agrees.of_late ⟨rfl, rfl⟩

theorem Agrees.trans (h : Agrees isSpace early r r') (h' : Agrees isSpace early r' r'') :
    Agrees isSpace early r r'' := by
  cases early with
  | false => exact ⟨h.1.trans h'.1, h.2.trans h'.2⟩
  | true => exact ⟨h.1.trans h'.1, h.2.trans h'.2⟩

theorem Agrees.strip (h : Agrees isSpace early r r') :
    Substring.strip isSpace r.normalText = Substring.strip isSpace r'.normalText ∧
      Substring.strip isSpace r.reasoningText = Substring.strip isSpace r'.reasoningText := by
  cases early with
  | true => exact h
  | false => exact @Agrees.of_late isSpace true r r' h

theorem emit_ended (hs : s.inReasoning = true) (h : F.scan text = .ended a b) :
    F.emit isSpace s text = (s.leave, ⟨b, rstrip isSpace a⟩) := by
  unfold emit
  rw [if_pos hs, h]

theorem emit_interrupted (hs : s.inReasoning = true) (h : F.scan text = .interrupted a b) :
    F.emit isSpace s text = (s.leave, ⟨b, a⟩) := by
  unfold emit
  rw [if_pos hs, h]

theorem emit_running (hs : s.inReasoning = true) (h : F.scan text = .running) :
    F.emit isSpace s text = if F.streamReasoning then (s.hold [], ⟨[], text⟩) else (s, .empty) := by
  unfold emit
  rw [if_pos hs, h]

theorem emit_normal (hs : s.inReasoning = false) : F.emit isSpace s text = (s.hold [], ⟨text, []⟩) := by
  unfold emit
  rw [hs]
  rfl

/-- Text in front of a piece of reasoning that is streamed joins the reasoning. -/
theorem emit_after {x y : Str} (hs : s.inReasoning = true) (ht : t.inReasoning = true)
    (hstream : F.streamReasoning = true) (hscan : F.scan (x ++ y) = (F.scan y).after x) :
    Agrees isSpace false (StreamingParseResult.append ⟨[], x⟩ (F.emit isSpace s y).2)
      (F.emit isSpace t (x ++ y)).2 := by
  cases h : F.scan y with
  | ended a b =>
    rw [h] at hscan
    rw [emit_ended hs h, emit_ended ht hscan]
    refine ⟨rfl, ?_⟩
    rw [rstrip_rstrip]
    exact rstrip_append_congr isSpace (rstrip_rstrip isSpace)
  | interrupted a b =>
    rw [h] at hscan
    rw [emit_interrupted hs h, emit_interrupted ht hscan]
    exact ⟨rfl, rfl⟩
  | running =>
    rw [h] at hscan
    rw [emit_running hs h, emit_running ht hscan, if_pos hstream, if_pos hstream]
    exact ⟨rfl, rfl⟩

/-- Whitespace in front of the reasoning does not count, wherever it goes. -/
theorem emit_after_space {x y : Str} (hs : s.inReasoning = true) (ht : t.inReasoning = true)
    (hx : ∀ c ∈ x, isSpace c = true) (hscan : F.scan (x ++ y) = (F.scan y).after x) :
    Agrees isSpace true (StreamingParseResult.append ⟨x, []⟩ (F.emit isSpace s y).2)
      (F.emit isSpace t (x ++ y)).2 := by
  cases h : F.scan y with
  | ended a b =>
    rw [h] at hscan
    rw [emit_ended hs h, emit_ended ht hscan]
    refine ⟨strip_append isSpace hx, ?_⟩
    show Substring.strip isSpace (rstrip isSpace a) = Substring.strip isSpace (rstrip isSpace (x ++ a))
    rw [strip_rstrip, strip_rstrip, strip_append isSpace hx]
  | interrupted a b =>
    rw [h] at hscan
    rw [emit_interrupted hs h, emit_interrupted ht hscan]
    exact ⟨strip_append isSpace hx, (strip_append isSpace hx).symm⟩
  | running =>
    rw [h] at hscan
    rw [emit_running hs h, emit_running ht hscan]
    split
    · refine ⟨?_, (strip_append isSpace hx).symm⟩
      exact strip_append isSpace hx
    · exact ⟨strip_append isSpace hx, rfl⟩

theorem settle_of_enter (h : F.enter s = (t, text)) : F.settle isSpace s = F.emit isSpace t text := by
  unfold settle
  rw [h]

/-- What the buffer gives, and then the rest. -/
def settleTwice (F : Format) (isSpace : Char → Bool) (s : DetectorState) (rest : Str) : StreamingParseResult :=
  (F.settle isSpace s).2.append
    (F.settle isSpace ((F.settle isSpace s).1.hold ((F.settle isSpace s).1.buffer ++ rest))).2

section Cut

/-- Outside of reasoning, with no start tag to come, the rest is normal text. -/
theorem settleTwice_outside {raw : Str} (hfirst : F.settle isSpace s = (t, r)) (ht : t.buffer = [])
    (hs : t.inReasoning = false) (h : F.Started t raw rest) :
    F.settleTwice isSpace s rest = ⟨r.normalText ++ rest, r.reasoningText⟩ := by
  have henter : F.enter (t.hold rest) = (t.hold rest, rest) := enter_of_not h.takesStart_rest
  have hs' : (t.hold rest).inReasoning = false := hs
  rw [settleTwice, hfirst, ht, nil_append, settle_of_enter henter, emit_normal hs']
  exact StreamingParseResult.ext rfl (append_nil _)

/-- In reasoning that is streamed. -/
theorem settle_append_streamed (hin : (F.enter s).1.inReasoning = true)
    (hscan : F.scan (F.enter s).2 = .running) (hstream : F.streamReasoning = true)
    (h : F.Apart (F.enter s).1 (F.enter s).2 rest) :
    Agrees isSpace false (F.settleTwice isSpace s rest) (F.settle isSpace (s.hold (s.buffer ++ rest))).2 := by
  have hfirst : F.settle isSpace s = ((F.enter s).1.hold [], ⟨[], (F.enter s).2⟩) := by
    unfold settle
    rw [emit_running hin hscan, if_pos hstream]
  have hin' := enter_inReasoning (F := F) (s := (F.enter s).1.hold rest) hin
  rw [settleTwice, hfirst, settle_of_enter (enter_append_of_apart h)]
  exact emit_after hin' hin' hstream (scan_append_of_clear h.2.1 h.2.2)

/-- In reasoning that is kept back. -/
theorem settle_append_kept (hin : (F.enter s).1.inReasoning = true)
    (hscan : F.scan (F.enter s).2 = .running) (hstream : F.streamReasoning = false) (h : F.takesStart s = true →
      F.scan (s.buffer ++ rest) = .running ∧ F.scan ((F.enter s).2 ++ rest) = .running) :
    F.settleTwice isSpace s rest = (F.settle isSpace (s.hold (s.buffer ++ rest))).2 := by
  have hfirst : F.settle isSpace s = ((F.enter s).1, .empty) := by
    unfold settle
    rw [emit_running hin hscan, hstream]
    rfl
  rw [settleTwice, hfirst]
  show (F.settle isSpace ((F.enter s).1.hold ((F.enter s).1.buffer ++ rest))).2 = _
  rw [enter_buffer]
  cases ht : F.takesStart s with
  | false => rw [enter_of_not ht]
  | true =>
    obtain ⟨hraw, htext⟩ := h ht
    have hst : (F.enter s).1.strippedThinkStart = true := by rw [enter_of_takes ht]
    have hin' : ((F.enter s).1.hold (s.buffer ++ rest)).inReasoning = true := hin
    have hkept : F.enter ((F.enter s).1.hold (s.buffer ++ rest)) =
        ((F.enter s).1.hold (s.buffer ++ rest), s.buffer ++ rest) := enter_of_not (takesStart_of_stripped hst)
    -- neither comes to an end: not with the start tag, not without it
    rw [settle_of_enter hkept, settle_of_enter (enter_append_of_started (.inl hst)), emit_running hin' hraw,
      emit_running hin' htext, hstream]
    rfl

/-- Before the reasoning, after whitespace. -/
theorem settle_append_space (hin : (F.enter s).1.inReasoning = false) (hsp : ∀ c ∈ s.buffer, isSpace c = true)
    (h : F.Apart (F.enter s).1 (F.enter s).2 rest) :
    Agrees isSpace (F.fresh s rest) (F.settleTwice isSpace s rest)
      (F.settle isSpace (s.hold (s.buffer ++ rest))).2 := by
  have hself : F.enter s = (s, s.buffer) := enter_of_not (takesStart_of_outside hin)
  have hfirst : F.settle isSpace s = ((F.enter s).1.hold [], ⟨(F.enter s).2, []⟩) := emit_normal hin
  rw [settleTwice, hfirst, settle_of_enter (enter_append_of_apart h)]
  rw [hself] at h hin ⊢
  have hscan := scan_append_of_clear h.2.1 h.2.2
  change Agrees isSpace (F.fresh s rest) (StreamingParseResult.append ⟨s.buffer, []⟩
    (F.emit isSpace (F.enter (s.hold rest)).1 (F.enter (s.hold rest)).2).2) (F.emit isSpace
      ((F.enter (s.hold rest)).1.hold (s.buffer ++ rest)) (s.buffer ++ (F.enter (s.hold rest)).2)).2
  cases hin₂ : (F.enter (s.hold rest)).1.inReasoning with
  | true =>
    -- the start tag is in the rest, so that the state was fresh
    have hfresh : F.fresh s rest = true := by
      cases htr : F.takesStart (s.hold rest) with
      | false =>
        rw [enter_of_not htr] at hin₂
        cases hin.symm.trans hin₂
      | true =>
        unfold fresh
        rw [takesStart_append_left htr, show s.inReasoning = false from hin]
        rfl
    rw [hfresh]
    exact emit_after_space hin₂ hin₂ hsp hscan
  | false =>
    have hin₃ : ((F.enter (s.hold rest)).1.hold (s.buffer ++ rest)).inReasoning = false := hin₂
    apply Agrees.of_eq
    rw [emit_normal hin₂, emit_normal hin₃]
    rfl

end Cut

/-- The buffer and then the rest give what both give at once. -/
theorem settle_append (h : F.Harmless isSpace s rest) :
    Agrees isSpace (F.fresh s rest) (F.settleTwice isSpace s rest)
      (F.settle isSpace (s.hold (s.buffer ++ rest))).2 := by
  unfold Harmless at h
  cases hin : (F.enter s).1.inReasoning with
  | true =>
    have hin' : ((F.enter s).1.hold (s.buffer ++ rest)).inReasoning = true := hin
    rw [if_pos hin] at h
    cases hscan : F.scan (F.enter s).2 with
    | ended a b =>
      rw [hscan] at h
      apply Agrees.of_eq
      rw [settleTwice_outside (emit_ended hin hscan) rfl rfl h, settle_of_enter (enter_append_of_started h),
        emit_ended hin' (scan_ended_append hscan rest)]
    | interrupted a b =>
      rw [hscan] at h
      apply Agrees.of_eq
      rw [settleTwice_outside (emit_interrupted hin hscan) rfl rfl h.1,
        settle_of_enter (enter_append_of_started h.1),
        emit_interrupted hin' (scan_interrupted_append hscan h.2)]
    | running =>
      rw [hscan] at h
      cases hstream : F.streamReasoning with
      | true =>
        simp only [hstream, if_true] at h
        exact .of_late (settle_append_streamed hin hscan hstream h)
      | false =>
        simp only [hstream, Bool.false_eq_true, if_false] at h
        exact .of_eq (settle_append_kept hin hscan hstream h)
  | false =>
    rw [hin, if_neg Bool.false_ne_true] at h
    rcases h with h | ⟨hsp, h⟩
    · have hin' : ((F.enter s).1.hold (s.buffer ++ rest)).inReasoning = false := hin
      apply Agrees.of_eq
      rw [settleTwice_outside (emit_normal hin) rfl hin h, settle_of_enter (enter_append_of_started h),
        emit_normal hin']
    · exact settle_append_space hin hsp h

theorem parse_of_cut (h : F.isPartial (s.buffer ++ a) = true) :
    F.parseStreamingIncrement isSpace s a = (s.hold (s.buffer ++ a), .empty) := by
  exact if_pos h

theorem parse_of_complete (h : F.isPartial (s.buffer ++ a) = false) :
    F.parseStreamingIncrement isSpace s a = F.settle isSpace (s.hold (s.buffer ++ a)) := by
  exact if_neg (eq_false_iff.mp h)

/-- The rest is not held back after a buffer that was not. -/
theorem isPartial_rest (hs : F.isPartial s.buffer = false) (h : F.isPartial rest = false ∨ F.Keeps s) :
    F.isPartial ((F.settle isSpace s).1.buffer ++ rest) = false := by
  by_cases hkeep : F.Keeps s
  · obtain ⟨hin, hscan, hstream⟩ := hkeep
    have hbuf : (F.settle isSpace s).1.buffer = s.buffer := by
      unfold settle
      rw [emit_running hin hscan, hstream]
      exact enter_buffer s
    rw [hbuf]
    exact isPartial_append hs rest
  · have hbuf : (F.settle isSpace s).1.buffer = [] := by
      unfold settle
      cases hin : (F.enter s).1.inReasoning with
      | false =>
        rw [emit_normal hin]
        rfl
      | true =>
        cases hscan : F.scan (F.enter s).2 with
        | ended a b =>
          rw [emit_ended hin hscan]
          rfl
        | interrupted a b =>
          rw [emit_interrupted hin hscan]
          rfl
        | running =>
          cases hstream : F.streamReasoning with
          | false => exact absurd ⟨hin, hscan, hstream⟩ hkeep
          | true =>
            rw [emit_running hin hscan, hstream]
            rfl
    rw [hbuf]
    exact h.resolve_right hkeep

/-- **One cut.** A clean chunk and then the rest in one chunk give what both give in one chunk. -/
theorem parse_append (h : F.Clean isSpace s a rest) :
    Agrees isSpace (F.fresh s (a ++ rest)) ((F.parseStreamingIncrement isSpace s a).2.append
        (F.parseStreamingIncrement isSpace (F.parseStreamingIncrement isSpace s a).1 rest).2)
      (F.parseStreamingIncrement isSpace s (a ++ rest)).2 := by
  cases hpart : F.isPartial (s.buffer ++ a) with
  | true =>
    -- the chunk waits in the buffer
    rw [parse_of_cut hpart]
    apply Agrees.of_eq
    unfold parseStreamingIncrement
    rw [← append_assoc]
    rfl
  | false =>
    obtain ⟨hmore, hharm⟩ := h.resolve_left (eq_false_iff.mp hpart)
    have hrest : F.isPartial ((F.parseStreamingIncrement isSpace s a).1.buffer ++ rest) = false := by
      rw [parse_of_complete hpart]
      exact isPartial_rest hpart hmore
    have hwhole : F.isPartial (s.buffer ++ (a ++ rest)) = false := by
      rw [← append_assoc]
      exact isPartial_append hpart rest
    have hcut := settle_append hharm
    rw [parse_of_complete hrest, parse_of_complete hwhole]
    rw [parse_of_complete hpart]
    rw [DetectorState.hold_hold, DetectorState.hold_buffer, append_assoc] at hcut
    have hfresh : F.fresh (s.hold (s.buffer ++ a)) rest = F.fresh s (a ++ rest) := by
      unfold fresh
      rw [DetectorState.hold_hold, DetectorState.hold_buffer, append_assoc]
      rfl
    rwa [hfresh] at hcut

/-- As long as the start tag is still to come, only whitespace has gone out. -/
theorem parse_fresh (h : F.Clean isSpace s a rest)
    (hf : F.fresh (F.parseStreamingIncrement isSpace s a).1 rest = true) :
    F.fresh s (a ++ rest) = true ∧ (F.parseStreamingIncrement isSpace s a).2.reasoningText = [] ∧
      ∀ c ∈ (F.parseStreamingIncrement isSpace s a).2.normalText, isSpace c = true := by
  cases hpart : F.isPartial (s.buffer ++ a) with
  | true =>
    rw [parse_of_cut hpart] at hf ⊢
    refine ⟨?_, rfl, fun c hc => by cases hc⟩
    unfold fresh at hf ⊢
    rwa [DetectorState.hold_hold, DetectorState.hold_buffer, append_assoc] at hf
  | false =>
    obtain ⟨_, hharm⟩ := h.resolve_left (eq_false_iff.mp hpart)
    rw [parse_of_complete hpart] at hf ⊢
    unfold Harmless at hharm
    unfold fresh at hf
    rw [and_eq_true] at hf
    obtain ⟨hout, htakes⟩ := hf
    cases hin : (F.enter (s.hold (s.buffer ++ a))).1.inReasoning with
    | true =>
      exfalso
      rw [if_pos hin] at hharm
      cases hscan : F.scan (F.enter (s.hold (s.buffer ++ a))).2 with
      | ended x y =>
        rw [hscan] at hharm
        rw [settle, emit_ended hin hscan] at htakes
        -- a start tag can only come where none is ruled out
        exact absurd htakes (eq_false_iff.mp hharm.takesStart_rest)
      | interrupted x y =>
        rw [hscan] at hharm
        rw [settle, emit_interrupted hin hscan] at htakes
        exact absurd htakes (eq_false_iff.mp hharm.1.takesStart_rest)
      | running =>
        rw [settle, emit_running hin hscan] at hout
        have hstill : (!(F.enter (s.hold (s.buffer ++ a))).1.inReasoning) = true := by
          split at hout
          · exact hout
          · exact hout
        rw [hin] at hstill
        cases hstill
    | false =>
      have ht := takesStart_of_outside hin
      rw [hin, if_neg Bool.false_ne_true] at hharm
      rw [settle, emit_normal hin] at htakes ⊢
      rcases hharm with hst | ⟨hspace, _⟩
      · exact absurd htakes (eq_false_iff.mp hst.takesStart_rest)
      rw [enter_of_not ht] at hin htakes ⊢
      refine ⟨?_, rfl, hspace⟩
      unfold fresh
      rw [show s.inReasoning = false from hin, ← append_assoc]
      exact takesStart_append_left htakes

/-- What goes out before does not spoil the agreement. -/
theorem Agrees.append (h : F.Clean isSpace s a rest)
    (hr : Agrees isSpace (F.fresh (F.parseStreamingIncrement isSpace s a).1 rest) r r') :
    Agrees isSpace (F.fresh s (a ++ rest)) ((F.parseStreamingIncrement isSpace s a).2.append r)
      ((F.parseStreamingIncrement isSpace s a).2.append r') := by
  cases hf : F.fresh (F.parseStreamingIncrement isSpace s a).1 rest with
  | false =>
    rw [hf] at hr
    apply Agrees.of_late
    refine ⟨?_, rstrip_append_congr isSpace hr.2⟩
    show _ ++ r.normalText = _ ++ r'.normalText
    rw [hr.1]
  | true =>
    rw [hf] at hr
    obtain ⟨hfresh, hreason, hspace⟩ := parse_fresh h hf
    rw [hfresh]
    refine ⟨?_, ?_⟩
    · show Substring.strip isSpace (_ ++ r.normalText) = Substring.strip isSpace (_ ++ r'.normalText)
      rw [strip_append isSpace hspace, strip_append isSpace hspace]
      exact hr.1
    · show Substring.strip isSpace (_ ++ r.reasoningText) = Substring.strip isSpace (_ ++ r'.reasoningText)
      rw [hreason, nil_append, nil_append]
      exact hr.2

/-- **A clean run gives what the whole text gives.** -/
theorem run_agrees (chunk : Str) (chunks : List Str) (h : F.CleanRun isSpace s (chunk :: chunks)) :
    Agrees isSpace (F.fresh s (chunk :: chunks).flatten) (F.run isSpace s (chunk :: chunks)).2
      (F.parseStreamingIncrement isSpace s (chunk :: chunks).flatten).2 := by
  -- the chunks after the first one give what their text gives, by induction
  induction chunks generalizing s chunk with
  | nil =>
    rw [flatten_cons, flatten_nil, append_nil]
    apply Agrees.of_eq
    exact StreamingParseResult.ext (append_nil _) (append_nil _)
  | cons next chunks ih =>
    obtain ⟨hclean, hrun⟩ := h
    rw [flatten_cons]
    exact ((ih next hrun).append hclean).trans (parse_append hclean)

end Agreement

/-- **Where chunking does not matter.** If every cut of a run is clean, then the reasoning and the normal text
of the run are those of the whole text in one chunk, up to whitespace at the ends. -/
theorem clean_run_eq_whole (forceReasoning : Bool) (previousContent chunk : Str) (chunks : List Str)
    (h : F.CleanRun isSpace (.init F forceReasoning previousContent) (chunk :: chunks)) :
    let s := DetectorState.init F forceReasoning previousContent
    strip isSpace (F.run isSpace s (chunk :: chunks)).2.reasoningText =
        strip isSpace (F.parseStreamingIncrement isSpace s (chunk :: chunks).flatten).2.reasoningText ∧
      strip isSpace (F.run isSpace s (chunk :: chunks)).2.normalText =
        strip isSpace (F.parseStreamingIncrement isSpace s (chunk :: chunks).flatten).2.normalText := by
  intro s
  obtain ⟨hnormal, hreasoning⟩ := (run_agrees chunk chunks h).strip
  exact ⟨hreasoning, hnormal⟩

/-- The tags of most models, with streamed reasoning. -/
def thinkTags : Format := ⟨"<think>".toList, [], "</think>".toList, none, true⟩

/-- A start tag in two chunks, and an end tag that is a chunk's beginning. -/
theorem clean_run_eq_whole_split_tag :
    strip isWhitespace (thinkTags.run isWhitespace (.init thinkTags false [])
        ["<th".toList, "ink>a".toList, "</think>b".toList]).2.reasoningText =
      strip isWhitespace (thinkTags.parseStreamingIncrement isWhitespace (.init thinkTags false [])
        ["<th".toList, "ink>a".toList, "</think>b".toList].flatten).2.reasoningText := by
  refine (clean_run_eq_whole thinkTags isWhitespace false [] "<th".toList
    ["ink>a".toList, "</think>b".toList] ⟨.inl (by decide), .inr ⟨.inl (by decide), ?_⟩, trivial⟩).1
  exact ⟨.inl rfl, by decide⟩

/-- An end tag whose first character comes with other text is not recognised. -/
theorem cut_end_tag_missed : let s := DetectorState.init thinkTags false []
    let chunks := ["<think>a<".toList, "/think>b".toList]
    strip isWhitespace (thinkTags.run isWhitespace s chunks).2.reasoningText = "a</think>b".toList ∧
      strip isWhitespace (thinkTags.parseStreamingIncrement isWhitespace s
        chunks.flatten).2.reasoningText = "a".toList := by
  decide

end Format

end SGLang.Parser
