/-
# SGLang.Managers.Detokenizer — incremental detokenisation.

The detokenizer keeps a `DecodeStatus` for each request and turns the token ids of each message into the text
that is new since the last one (`managers/detokenizer_manager.py`). Text is flushed when it does not end in a
replacement character; until then a printable part of it, cut by `find_printable_text` (`utils.py`), is sent
ahead. A batch is handled in two passes over its rows, the first storing the token ids, the second computing the
texts.

Over the code stands a `View` of a request: the tokens whose text is flushed, and those that are pending. A
message pushes its tokens to the view, and what the detokenizer sends is what the new view shows beyond the
length of what the old one showed (`stepRow_streaming`).
-/
import Mathlib.Data.List.AList
import SGLang.Lib.Substring
import SGLang.Lib.Utf8Lossy

namespace SGLang.Detokenizer

open SGLang.Lib List
open SGLang.Lib.Utf8Lossy (replacement)
open Option (map_eq_some_iff map_some)

/-! ## Printable text -/

/-- Checks whether `cp` is the code point of a CJK character. -/
def isChineseChar (cp : ℕ) : Bool :=
  (0x4E00 ≤ cp && cp ≤ 0x9FFF) || (0x3400 ≤ cp && cp ≤ 0x4DBF) || (0x20000 ≤ cp && cp ≤ 0x2A6DF) ||
    (0x2A700 ≤ cp && cp ≤ 0x2B73F) || (0x2B740 ≤ cp && cp ≤ 0x2B81F) || (0x2B820 ≤ cp && cp ≤ 0x2CEAF) ||
    (0xF900 ≤ cp && cp ≤ 0xFAFF) || (0x2F800 ≤ cp && cp ≤ 0x2FA1F)

variable (text : List ℕ)

/-- The last character but one is a CJK character. -/
def chineseBeforeLast : Bool := text.dropLast.getLast?.any isChineseChar

/-- The part of `text` that is printed ahead: all of it after a newline or a CJK character, all but the last
character after a CJK character and one more, and else everything to the last space. -/
def findPrintableText : List ℕ :=
  if text.getLast? = some 0x0A then text
  else if text.getLast?.any isChineseChar then text
  else if chineseBeforeLast text then text.dropLast
  else text.rdropWhile (· ≠ 0x20)

/-- New text that is flushed: there is some, and it does not end in a replacement character. -/
def Flushes : Prop := text ≠ [] ∧ text.getLast? ≠ some replacement

instance (text : List ℕ) : Decidable (Flushes text) := inferInstanceAs (Decidable (_ ∧ _))

section Printable

variable {t : List ℕ}

theorem not_flushes_nil : ¬ Flushes [] := fun h => h.1 rfl

/-- Text that is not flushed is empty or ends in a replacement character. -/
theorem eq_concat_of_not_flushes (h : ¬ Flushes t) : t = [] ∨ t = t.dropLast ++ [replacement] := by
  by_cases hnil : t = []
  · exact .inl hnil
  · refine .inr ?_
    have hlast : t.getLast? = some replacement := not_not.mp fun hne => h ⟨hnil, hne⟩
    exact (dropLast_append_getLast? _ hlast).symm

/-- On text that ends in a replacement character only the cuts of the last two rules apply. -/
theorem findPrintableText_concat (t : List ℕ) : findPrintableText (t ++ [replacement]) =
      if chineseBeforeLast (t ++ [replacement]) then t else t.rdropWhile (· ≠ 0x20) := by
  unfold findPrintableText
  rw [getLast?_concat, if_neg (by decide), if_neg (by decide), dropLast_concat,
    rdropWhile_concat_pos _ _ _ (by decide)]

/-- What is printed of text that is not flushed is less than the text. -/
theorem findPrintableText_prefix_dropLast (h : ¬ Flushes t) : findPrintableText t <+: t.dropLast := by
  rcases eq_concat_of_not_flushes h with rfl | ht
  · exact prefix_rfl
  · rw [ht, findPrintableText_concat, dropLast_concat]
    split
    · exact prefix_rfl
    · exact rdropWhile_prefix _ _

end Printable

/-! ## The tokenizer -/

/-- What the detokenizer knows of the model: the bytes of each token, and whether the tool call parser is the
one of gpt-oss. -/
structure Config where
  tokenBytes : ℕ → List ℕ
  isToolCallParserGptOss : Bool

namespace Config

variable (c : Config) {x y : List ℕ}

def bytes (ids : List ℕ) : List ℕ := ids.flatMap c.tokenBytes

/-- The decoding of a token list. -/
def decode (ids : List ℕ) : List ℕ := Utf8Lossy.decode (c.bytes ids)

/-- The tokens end on a character boundary. -/
def AtBoundary (ids : List ℕ) : Prop := Utf8Lossy.AtBoundary (c.bytes ids)

instance (ids : List ℕ) : Decidable (c.AtBoundary ids) := inferInstanceAs (Decidable (Utf8Lossy.AtBoundary _))

theorem bytes_append (x y : List ℕ) : c.bytes (x ++ y) = c.bytes x ++ c.bytes y := flatMap_append

theorem atBoundary_nil : c.AtBoundary [] := rfl

variable {c}

theorem AtBoundary.decode_append (hx : c.AtBoundary x) (y : List ℕ) :
    c.decode (x ++ y) = c.decode x ++ c.decode y := by
  unfold decode
  rw [bytes_append, Utf8Lossy.AtBoundary.decode_append hx, Utf8Lossy.AtBoundary.decode_eq hx]

theorem AtBoundary.append_iff (hx : c.AtBoundary x) : c.AtBoundary (x ++ y) ↔ c.AtBoundary y := by
  unfold AtBoundary
  rw [bytes_append]
  exact Utf8Lossy.AtBoundary.append_iff hx

theorem AtBoundary.of_append (h : c.AtBoundary (x ++ y)) : c.AtBoundary y := by
  unfold AtBoundary at h
  rw [bytes_append] at h
  exact Utf8Lossy.AtBoundary.of_append h

/-- Flushed text ends on a boundary. -/
theorem atBoundary_of_flushes (h : Flushes (c.decode x)) : c.AtBoundary x := Utf8Lossy.atBoundary_of_getLast h.2

theorem decode_length_le (x y : List ℕ) : (c.decode x).length ≤ (c.decode (x ++ y)).length := by
  unfold decode
  rw [bytes_append]
  exact Utf8Lossy.decode_length_le _ _

/-- All but the last character of a decoding stays when tokens follow. -/
theorem dropLast_decode_prefix_append (x y : List ℕ) : (c.decode x).dropLast <+: c.decode (x ++ y) := by
  unfold decode
  rw [bytes_append]
  exact (Utf8Lossy.dropLast_decode_prefix_settled _).trans (Utf8Lossy.settled_prefix_decode _ _)

/-- So what is printed ahead is never taken back by the text. -/
theorem findPrintableText_prefix_decode (h : ¬ Flushes (c.decode x)) (y : List ℕ) :
    findPrintableText (c.decode x) <+: c.decode (x ++ y) :=
  (findPrintableText_prefix_dropLast h).trans (dropLast_decode_prefix_append x y)

end Config

/-! ## The detokenizer -/

/-- Why a request is finished; `matched` is the matched stop token or stop string. -/
inductive FinishReason where
  | length
  | matchedToken (matched : ℕ)
  | matchedStr (matched : List ℕ)
  deriving DecidableEq

/-- The status of incremental decoding of one request. -/
structure DecodeStatus where
  decodedText : List ℕ
  decodeIds : List ℕ
  surrOffset : ℕ
  readOffset : ℕ
  sentOffset : ℕ := 0

/-- One row of a `BatchTokenIDOutput`. -/
structure Row where
  rid : ℕ
  decodedText : List ℕ
  decodeIds : List ℕ
  readOffset : ℕ
  finishedReason : Option FinishReason
  noStopTrim : Bool

/-- The `decode_status` of the detokenizer. -/
abbrev Manager := AList (fun _ : ℕ => DecodeStatus)

/-- `trim_matched_stop` on token ids: `none` is the exception an empty list raises. -/
def trimMatchedStopIds (c : Config) (output : List ℕ) (reason : Option FinishReason) (noStopTrim : Bool) :
    Option (List ℕ) :=
  if noStopTrim then some output
  else
    match reason with
    | some (.matchedToken matched) =>
      if matched = 0 then some output
      else
        match output.getLast? with
        | none => none
        | some last =>
          -- `<|call|>` is the tool call token and one of the eos tokens of gpt-oss
          if last = 200012 ∧ c.isToolCallParserGptOss then some output else some output.dropLast
    | _ => some output

/-- `trim_matched_stop` on text. -/
def trimMatchedStopText (output : List ℕ) (reason : Option FinishReason) (noStopTrim : Bool) : List ℕ :=
  if noStopTrim then output
  else
    match reason with
    | some (.matchedStr matched) =>
      if matched = [] then output
      else
        match Substring.find matched output with
        | none => output
        | some pos => output.take pos
    | _ => output

/-- The status once the row's ids are stored. -/
def receive (status : Option DecodeStatus) (x : Row) : DecodeStatus :=
  match status with
  | none =>
    { decodedText := x.decodedText, decodeIds := x.decodeIds, surrOffset := 0, readOffset := x.readOffset }
  | some s => { s with decodeIds := s.decodeIds ++ x.decodeIds }

/-- The ids to decode. -/
def readIds (c : Config) (s : DecodeStatus) (x : Row) : Option (List ℕ) :=
  trimMatchedStopIds c (s.decodeIds.drop s.surrOffset) x.finishedReason x.noStopTrim

/-- The ids before them, whose text is cut off. -/
def surrIds (s : DecodeStatus) : List ℕ := (s.decodeIds.take s.readOffset).drop s.surrOffset

/-- The first pass over the rows. -/
def prepare (c : Config) (m : Manager) : List Row → Option (Manager × List (List ℕ × List ℕ))
  | [] => some (m, [])
  | x :: xs =>
    let s := receive (m.lookup x.rid) x
    match readIds c s x with
    | none => none
    | some ids => (prepare c (m.insert x.rid s) xs).map fun r => (r.1, (ids, surrIds s) :: r.2)

/-- The status and the text of a streaming chunk. -/
def advance (s : DecodeStatus) (newText : List ℕ) : DecodeStatus × List ℕ :=
  if Flushes newText then
    ({ s with
        decodedText := s.decodedText ++ newText, surrOffset := s.readOffset
        readOffset := s.decodeIds.length }, [])
  else (s, findPrintableText newText)

/-- The second pass for one row: the status that is kept, and the incremental output. -/
def emit (c : Config) (s : DecodeStatus) (x : Row) (ids : List ℕ × List ℕ) : Option DecodeStatus × List ℕ :=
  let newText := (c.decode ids.1).drop (c.decode ids.2).length
  match x.finishedReason with
  | none =>
    let r := advance s newText
    let output := trimMatchedStopText (r.1.decodedText ++ r.2) none x.noStopTrim
    (some { r.1 with sentOffset := output.length }, output.drop r.1.sentOffset)
  | some reason =>
    (none, (trimMatchedStopText (s.decodedText ++ newText) (some reason) x.noStopTrim).drop s.sentOffset)

/-- The `decode_status` with the entry of `rid` set or deleted. -/
def setStatus (m : Manager) (rid : ℕ) : Option DecodeStatus → Manager
  | none => m.erase rid
  | some s => m.insert rid s

/-- The second pass over the rows; `none` is the error for a status that is not found. -/
def emitAll (c : Config) (m : Manager) : List (Row × List ℕ × List ℕ) → Option (Manager × List (List ℕ))
  | [] => some (m, [])
  | (x, ids) :: xs =>
    match m.lookup x.rid with
    | none => none
    | some s =>
      (emitAll c (setStatus m x.rid (emit c s x ids).1) xs).map fun r => (r.1, (emit c s x ids).2 :: r.2)

def decodeBatchTokenIdOutput (c : Config) (m : Manager) (rows : List Row) : Option (Manager × List (List ℕ)) :=
  match prepare c m rows with
  | none => none
  | some (m, ids) => emitAll c m (rows.zip ids)

/-! ## One row of a batch -/

/-- What a batch does for the request of one of its rows. -/
def stepRow (c : Config) (status : Option DecodeStatus) (x : Row) : Option (Option DecodeStatus × List ℕ) :=
  (readIds c (receive status x) x).map fun ids => emit c (receive status x) x (ids, surrIds (receive status x))

section Batch

variable {c : Config} {m : Manager} {rows : List Row}

theorem lookup_setStatus_self (m : Manager) (rid : ℕ) (status : Option DecodeStatus) :
    (setStatus m rid status).lookup rid = status := by
  cases status with
  | none => exact AList.lookup_erase _ _
  | some s => exact AList.lookup_insert _

theorem lookup_setStatus_ne {rid r : ℕ} (h : r ≠ rid) (m : Manager) (status : Option DecodeStatus) :
    (setStatus m rid status).lookup r = m.lookup r := by
  cases status with
  | none => exact AList.lookup_erase_ne h
  | some s => exact AList.lookup_insert_ne h

/-- The first pass stores the ids of each row and leaves other requests alone. -/
theorem prepare_spec (hnd : (rows.map Row.rid).Nodup) {ids : Row → List ℕ}
    (hids : ∀ x ∈ rows, readIds c (receive (m.lookup x.rid) x) x = some (ids x)) :
    ∃ m', prepare c m rows = some (m', rows.map fun x => (ids x, surrIds (receive (m.lookup x.rid) x))) ∧
      (∀ x ∈ rows, m'.lookup x.rid = some (receive (m.lookup x.rid) x)) ∧
      ∀ r ∉ rows.map Row.rid, m'.lookup r = m.lookup r := by
  induction rows generalizing m with
  | nil => exact ⟨m, rfl, nofun, fun _ _ => rfl⟩
  | cons x xs ih =>
    obtain ⟨hx, hxs⟩ := nodup_cons.mp hnd
    have hother : ∀ y ∈ xs, (m.insert x.rid (receive (m.lookup x.rid) x)).lookup y.rid = m.lookup y.rid := by
      intro y hy
      apply AList.lookup_insert_ne
      intro heq
      exact hx (heq ▸ mem_map_of_mem hy)
    obtain ⟨m', hprep, hrows, hrest⟩ := ih (m := m.insert x.rid (receive (m.lookup x.rid) x)) hxs fun y hy => by
      rw [hother y hy]
      exact hids y (mem_cons_of_mem _ hy)
    refine ⟨m', ?_, ?_, ?_⟩
    · unfold prepare
      simp only [hids x mem_cons_self, hprep, map_some, map_cons]
      congr 3
      exact map_congr_left fun y hy => by rw [hother y hy]
    · intro y hy
      rcases mem_cons.mp hy with rfl | hy
      · rw [hrest _ hx]
        exact AList.lookup_insert _
      · rw [hrows y hy, hother y hy]
    · intro r hr
      rw [map_cons, mem_cons, not_or] at hr
      rw [hrest r hr.2]
      exact AList.lookup_insert_ne hr.1

/-- The second pass computes each row from its own status. -/
theorem emitAll_spec (hnd : (rows.map Row.rid).Nodup) (ids : Row → List ℕ × List ℕ)
    {status : Row → DecodeStatus} (hm : ∀ x ∈ rows, m.lookup x.rid = some (status x)) :
    ∃ m', emitAll c m (rows.map fun x => (x, ids x)) =
        some (m', rows.map fun x => (emit c (status x) x (ids x)).2) ∧
      (∀ x ∈ rows, m'.lookup x.rid = (emit c (status x) x (ids x)).1) ∧
      ∀ r ∉ rows.map Row.rid, m'.lookup r = m.lookup r := by
  induction rows generalizing m with
  | nil => exact ⟨m, rfl, nofun, fun _ _ => rfl⟩
  | cons x xs ih =>
    obtain ⟨hx, hxs⟩ := nodup_cons.mp hnd
    obtain ⟨m', hemit, hrows, hrest⟩ :=
      ih (m := setStatus m x.rid (emit c (status x) x (ids x)).1) hxs fun y hy => by
        have hne : y.rid ≠ x.rid := fun heq => hx (heq ▸ mem_map_of_mem hy)
        rw [lookup_setStatus_ne hne]
        exact hm y (mem_cons_of_mem _ hy)
    refine ⟨m', ?_, ?_, ?_⟩
    · simp only [map_cons, emitAll, hm x mem_cons_self, hemit, map_some]
    · intro y hy
      rcases mem_cons.mp hy with rfl | hy
      · rw [hrest _ hx]
        exact lookup_setStatus_self _ _ _
      · exact hrows y hy
    · intro r hr
      rw [map_cons, mem_cons, not_or] at hr
      rw [hrest r hr.2]
      exact lookup_setStatus_ne hr.1 _ _

/-- **The rows of a batch do not disturb each other**: a batch of rows of different requests does for each of
them what its row does alone. -/
theorem decodeBatchTokenIdOutput_spec (hnd : (rows.map Row.rid).Nodup)
    {res : Row → Option DecodeStatus × List ℕ}
    (hres : ∀ x ∈ rows, stepRow c (m.lookup x.rid) x = some (res x)) :
    ∃ m', decodeBatchTokenIdOutput c m rows = some (m', rows.map fun x => (res x).2) ∧
      (∀ x ∈ rows, m'.lookup x.rid = (res x).1) ∧ ∀ r ∉ rows.map Row.rid, m'.lookup r = m.lookup r := by
  have hids : ∀ x ∈ rows, readIds c (receive (m.lookup x.rid) x) x =
      some ((readIds c (receive (m.lookup x.rid) x) x).getD []) := by
    intro x hx
    obtain ⟨ids, hsome, -⟩ := map_eq_some_iff.mp (hres x hx)
    rw [hsome]
    rfl
  have hemit : ∀ x ∈ rows, emit c (receive (m.lookup x.rid) x) x
      ((readIds c (receive (m.lookup x.rid) x) x).getD [], surrIds (receive (m.lookup x.rid) x)) = res x := by
    intro x hx
    obtain ⟨ids, hsome, heq⟩ := map_eq_some_iff.mp (hres x hx)
    rw [hsome]
    exact heq
  obtain ⟨m₁, hprep, hstored, hrest₁⟩ := prepare_spec hnd hids
  obtain ⟨m₂, hall, hrows, hrest₂⟩ := emitAll_spec (c := c) hnd
    (fun x => ((readIds c (receive (m.lookup x.rid) x) x).getD [], surrIds (receive (m.lookup x.rid) x)))
      hstored
  refine ⟨m₂, ?_, ?_, ?_⟩
  · unfold decodeBatchTokenIdOutput
    rw [hprep]
    have hzip (f : Row → List ℕ × List ℕ) : rows.zip (rows.map f) = rows.map fun x => (x, f x) := by
      have := zip_map' (f := id) (g := f) (l := rows)
      rwa [map_id] at this
    show emitAll c m₁ (rows.zip (rows.map _)) = _
    rw [hzip]
    refine hall.trans ?_
    congr 2
    exact map_congr_left fun x hx => congrArg Prod.snd (hemit x hx)
  · intro x hx
    rw [hrows x hx, hemit x hx]
  · intro r hr
    rw [hrest₂ r hr, hrest₁ r hr]

end Batch

/-! ## What a request has been shown -/

/-- The tokens of a request whose text is flushed, and those after them. -/
structure View where
  done : List ℕ
  rest : List ℕ

namespace View

variable (c : Config)

/-- A message with tokens `g`. -/
def push (v : View) (g : List ℕ) : View :=
  if Flushes (c.decode (v.rest ++ g)) then ⟨v.done ++ (v.rest ++ g), []⟩ else ⟨v.done, v.rest ++ g⟩

/-- The text that has been printed, if nothing was sent twice. -/
def shown (v : View) : List ℕ := c.decode v.done ++ findPrintableText (c.decode v.rest)

/-- The view after messages with the given tokens. -/
def ofChunks (chunks : List (List ℕ)) : View := chunks.foldl (push c) ⟨[], []⟩

/-- Flushed tokens end on a boundary, and the text of the others is not to be flushed. -/
structure Valid (v : View) : Prop where
  done : c.AtBoundary v.done
  rest : ¬ Flushes (c.decode v.rest)

variable {c} {v : View} {g a d : List ℕ}

theorem ofChunks_concat (chunks : List (List ℕ)) (g : List ℕ) :
    ofChunks c (chunks ++ [g]) = (ofChunks c chunks).push c g := foldl_concat ..

theorem push_of_flushes (h : Flushes (c.decode (v.rest ++ g))) : v.push c g = ⟨v.done ++ (v.rest ++ g), []⟩ :=
  if_pos h

theorem push_of_not_flushes (h : ¬ Flushes (c.decode (v.rest ++ g))) : v.push c g = ⟨v.done, v.rest ++ g⟩ :=
  if_neg h

theorem push_tokens (v : View) (g : List ℕ) :
    (v.push c g).done ++ (v.push c g).rest = v.done ++ (v.rest ++ g) := by
  by_cases h : Flushes (c.decode (v.rest ++ g))
  · rw [push_of_flushes h, append_nil]
  · rw [push_of_not_flushes h]

theorem Valid.push (hv : v.Valid c) (g : List ℕ) : (v.push c g).Valid c := by
  by_cases h : Flushes (c.decode (v.rest ++ g))
  · rw [push_of_flushes h]
    exact ⟨hv.done.append_iff.mpr (Config.atBoundary_of_flushes h), not_flushes_nil⟩
  · rw [push_of_not_flushes h]
    exact ⟨hv.done, h⟩

theorem ofChunks_valid (chunks : List (List ℕ)) : (ofChunks c chunks).Valid c := by
  induction chunks using reverseRecOn with
  | nil => exact ⟨c.atBoundary_nil, not_flushes_nil⟩
  | append_singleton chunks g ih =>
    rw [ofChunks_concat]
    exact ih.push g

theorem ofChunks_tokens (chunks : List (List ℕ)) :
    (ofChunks c chunks).done ++ (ofChunks c chunks).rest = chunks.flatten := by
  induction chunks using reverseRecOn with
  | nil => rfl
  | append_singleton chunks g ih =>
    rw [ofChunks_concat, push_tokens, ← append_assoc, ih, flatten_append, flatten_singleton]

/-- What has been shown begins the text, whatever tokens follow. -/
theorem Valid.shown_prefix_text (hv : v.Valid c) (y : List ℕ) :
    v.shown c <+: c.decode v.done ++ c.decode (v.rest ++ y) :=
  prefix_append_right_inj _ |>.mpr (Config.findPrintableText_prefix_decode hv.rest y)

/-- A view that shows no less than the one before shows an extension of it. -/
theorem Valid.shown_prefix_push (hv : v.Valid c) (h : (v.shown c).length ≤ ((v.push c g).shown c).length) :
    v.shown c <+: (v.push c g).shown c := by
  have hnew := (hv.push g).shown_prefix_text []
  rw [← (hv.push g).done.decode_append, append_nil, push_tokens, hv.done.decode_append] at hnew
  exact prefix_of_prefix_length_le (hv.shown_prefix_text g) hnew h

/-! ### When a message shows less than the one before -/

/-- The new pending text `u` shows no less than the old one `t`: only where `t` was cut after a CJK character is
there something to ask, namely that `u` is cut after one too, or has a space behind it. -/
def Keeps (t u : List ℕ) : Prop := chineseBeforeLast t → chineseBeforeLast u ∨ 0x20 ∈ u.drop (t.length - 1)

instance (t u : List ℕ) : Decidable (Keeps t u) := inferInstanceAs (Decidable (_ → _))

theorem rdropWhile_append_of_mem (h : 0x20 ∈ d) : a.length ≤ ((a ++ d).rdropWhile (· ≠ 0x20)).length := by
  rw [← Substring.rstrip, Substring.rstrip_append, if_neg, length_append]
  · exact Nat.le_add_right _ _
  · intro hnil
    exact absurd (rdropWhile_eq_nil_iff.mp hnil 0x20 h) (by decide)

theorem rdropWhile_append_of_notMem (h : 0x20 ∉ d) :
    (a ++ d).rdropWhile (· ≠ 0x20) = a.rdropWhile (· ≠ 0x20) := by
  refine (Substring.rstrip_append _).trans (if_pos (Substring.rstrip_eq_nil _ fun b hb => ?_))
  exact decide_eq_true (ne_of_mem_of_not_mem hb h)

theorem rdropWhile_length_lt (h : a.getLast?.any isChineseChar) :
    (a.rdropWhile (· ≠ 0x20)).length < a.length := by
  obtain ⟨b, hb, hcjk⟩ := (Option.any_eq_true _ _).mp h
  have ha := (dropLast_append_getLast? _ hb).symm
  have hspace : b ≠ 0x20 := by
    rintro rfl
    exact absurd hcjk (by decide)
  have hcut : a.rdropWhile (· ≠ 0x20) = a.dropLast.rdropWhile (· ≠ 0x20) := by
    conv_lhs => rw [ha]
    exact rdropWhile_concat_pos _ _ _ (decide_eq_true hspace)
  have hle := (List.rdropWhile_prefix (fun b : ℕ => decide (b ≠ 0x20)) a.dropLast).length_le
  have hlen := congrArg length ha
  rw [length_append, length_singleton] at hlen
  rw [hcut]
  omega

theorem findPrintableText_length_le_iff {t u : List ℕ} (ht : ¬ Flushes t) (hu : ¬ Flushes u)
    (hpre : t.dropLast <+: u) (hlen : t.length ≤ u.length) :
    (findPrintableText t).length ≤ (findPrintableText u).length ↔ Keeps t u := by
  rcases eq_concat_of_not_flushes ht with rfl | ht
  · exact iff_of_true (Nat.zero_le _) nofun
  rcases eq_concat_of_not_flushes hu with rfl | hu
  · rw [ht] at hlen
    simp at hlen
  generalize t.dropLast = a at ht hpre
  generalize u.dropLast = b at hu
  subst ht hu
  have hab : a <+: b := by
    refine prefix_of_prefix_length_le hpre (prefix_append b _) ?_
    simpa using hlen
  obtain ⟨d, rfl⟩ := hab
  have hcut (l : List ℕ) : (l.rdropWhile (· ≠ 0x20)).length ≤ l.length := (List.rdropWhile_prefix _ l).length_le
  have hmem : 0x20 ∈ (a ++ d ++ [replacement]).drop ((a ++ [replacement]).length - 1) ↔ 0x20 ∈ d := by
    rw [length_append, length_singleton, Nat.add_sub_cancel, append_assoc, drop_left]
    simp [replacement]
  unfold Keeps
  rw [findPrintableText_concat, findPrintableText_concat, hmem]
  by_cases hb : chineseBeforeLast (a ++ d ++ [replacement])
  · rw [if_pos hb]
    refine iff_of_true ?_ fun _ => .inl hb
    split
    · exact (prefix_append a d).length_le
    · exact (hcut a).trans (prefix_append a d).length_le
  · rw [if_neg hb]
    by_cases ha : chineseBeforeLast (a ++ [replacement])
    · rw [if_pos ha]
      unfold chineseBeforeLast at ha
      rw [dropLast_concat] at ha
      constructor
      · intro hle _
        refine .inr (not_not.mp fun hd => ?_)
        rw [rdropWhile_append_of_notMem hd] at hle
        exact absurd (rdropWhile_length_lt ha) (by omega)
      · intro hkeeps
        have hpen : chineseBeforeLast (a ++ [replacement]) := by
          unfold chineseBeforeLast
          rwa [dropLast_concat]
        exact rdropWhile_append_of_mem ((hkeeps hpen).resolve_left hb)
    · rw [if_neg ha]
      refine iff_of_true ?_ fun h => absurd h ha
      by_cases hd : 0x20 ∈ d
      · exact (hcut a).trans (rdropWhile_append_of_mem hd)
      · rw [rdropWhile_append_of_notMem hd]

/-- What makes a message show no less than the one before. -/
theorem Valid.shown_length_le_iff (hv : v.Valid c) : (v.shown c).length ≤ ((v.push c g).shown c).length ↔
      (¬ Flushes (c.decode (v.rest ++ g)) → Keeps (c.decode v.rest) (c.decode (v.rest ++ g))) := by
  by_cases h : Flushes (c.decode (v.rest ++ g))
  · refine iff_of_true ?_ fun hn => absurd h hn
    rw [push_of_flushes h]
    show _ ≤ (c.decode (v.done ++ (v.rest ++ g)) ++ _).length
    rw [hv.done.decode_append, length_append]
    exact (hv.shown_prefix_text g).length_le.trans (Nat.le_add_right _ _)
  · rw [push_of_not_flushes h,
      ← findPrintableText_length_le_iff hv.rest h (Config.dropLast_decode_prefix_append _ _)
      (Config.decode_length_le _ _)]
    show (c.decode v.done ++ _).length ≤ (c.decode v.done ++ _).length ↔ _
    rw [length_append, length_append, Nat.add_le_add_iff_left]
    exact ⟨fun hle _ => hle, fun hle => hle h⟩

end View

/-- No message of the request showed less than the one before it: whenever text that is not flushed follows text
that was cut after a CJK character, it is cut after one too, or has a space behind that character. -/
def Steady (c : Config) (chunks : List (List ℕ)) : Prop :=
  ∀ pre g, pre ++ [g] <+: chunks → ¬ Flushes (c.decode ((View.ofChunks c pre).rest ++ g)) →
    View.Keeps (c.decode (View.ofChunks c pre).rest) (c.decode ((View.ofChunks c pre).rest ++ g))

theorem steady_nil (c : Config) : Steady c [] := by
  intro pre g hpre
  exact absurd (prefix_nil.mp hpre) (by simp)

theorem steady_concat_iff {c : Config} {chunks : List (List ℕ)} {g : List ℕ} : Steady c (chunks ++ [g]) ↔
      Steady c chunks ∧ ((View.ofChunks c chunks).shown c).length ≤
        ((View.ofChunks c (chunks ++ [g])).shown c).length := by
  rw [View.ofChunks_concat, (View.ofChunks_valid chunks).shown_length_le_iff]
  constructor
  · intro h
    exact ⟨fun pre g' hpre => h pre g' (hpre.trans (prefix_append _ _)), h chunks g prefix_rfl⟩
  · rintro ⟨hold, hnew⟩ pre g' hpre
    rcases prefix_concat_iff.mp hpre with heq | hpre
    · obtain ⟨rfl, hg⟩ := append_inj' heq rfl
      obtain rfl := singleton_inj.mp hg
      exact hnew
    · exact hold pre g' hpre

/-! ## The status of a request follows its view -/

/-- The status of a request whose prompt tail is `tail`, with the ids of the tokens `pending` stored after those
that are flushed. -/
structure Follows (c : Config) (tail : List ℕ) (v : View) (pending : List ℕ) (s : DecodeStatus) : Prop where
  decodeIds : s.decodeIds = tail ++ v.done ++ pending
  readOffset : s.readOffset = (tail ++ v.done).length
  surrOffset : s.surrOffset ≤ s.readOffset
  surr : c.AtBoundary ((tail ++ v.done).drop s.surrOffset)
  decodedText : s.decodedText = c.decode v.done
  sentOffset : s.sentOffset = (v.shown c).length

section Follows

variable {c : Config} {tail pending ids : List ℕ} {v : View} {s : DecodeStatus} {x : Row}
  {reason : Option FinishReason}

theorem Follows.surrIds_eq (h : Follows c tail v pending s) :
    surrIds s = (tail ++ v.done).drop s.surrOffset := by
  unfold surrIds
  rw [h.decodeIds, h.readOffset, take_left]

theorem Follows.drop_eq (h : Follows c tail v pending s) :
    s.decodeIds.drop s.surrOffset = (tail ++ v.done).drop s.surrOffset ++ pending := by
  rw [h.decodeIds, drop_append_of_le_length (h.readOffset ▸ h.surrOffset)]

/-- The difference of the two decodings is the text of the pending tokens. -/
theorem Follows.newText (h : Follows c tail v pending s) (ids : List ℕ) :
    (c.decode ((tail ++ v.done).drop s.surrOffset ++ ids)).drop (c.decode (surrIds s)).length =
      c.decode ids := by
  rw [h.surr.decode_append, h.surrIds_eq, drop_left]

theorem readIds_streaming (c : Config) (s : DecodeStatus) (hx : x.finishedReason = none) :
    readIds c s x = some (s.decodeIds.drop s.surrOffset) := by
  unfold readIds trimMatchedStopIds
  rw [hx]
  exact ite_self _

theorem trimMatchedStopText_none (output : List ℕ) (noStopTrim : Bool) :
    trimMatchedStopText output none noStopTrim = output := ite_self _

/-- **A streaming message** sends what the new view shows beyond the length of what the old one showed. -/
theorem Follows.emit_streaming {g : List ℕ} (hv : v.Valid c) (h : Follows c tail v (v.rest ++ g) s)
    (hx : x.finishedReason = none) :
    ∃ s', emit c s x (s.decodeIds.drop s.surrOffset, surrIds s) =
        (some s', ((v.push c g).shown c).drop (v.shown c).length) ∧
      Follows c tail (v.push c g) (v.push c g).rest s' := by
  unfold emit
  rw [hx]
  simp only [h.drop_eq, h.newText, trimMatchedStopText_none]
  unfold advance
  by_cases hf : Flushes (c.decode (v.rest ++ g))
  · have hshown : ((v.push c g).shown c) = c.decode v.done ++ c.decode (v.rest ++ g) := by
      rw [View.push_of_flushes hf]
      show c.decode (v.done ++ (v.rest ++ g)) ++ [] = _
      rw [append_nil, hv.done.decode_append]
    rw [if_pos hf]
    simp only [h.decodedText, h.sentOffset, append_nil, ← hshown]
    refine ⟨_, rfl, ?_⟩
    rw [View.push_of_flushes hf] at hshown ⊢
    have hids : s.decodeIds = tail ++ (v.done ++ (v.rest ++ g)) := h.decodeIds.trans (append_assoc ..)
    refine ⟨hids.trans (append_nil _).symm, congrArg length hids, ?_, ?_, ?_, ?_⟩
    · rw [h.readOffset, h.decodeIds]
      exact (prefix_append _ _).length_le
    · show c.AtBoundary ((tail ++ (v.done ++ (v.rest ++ g))).drop s.readOffset)
      rw [← append_assoc, h.readOffset, drop_left]
      exact Config.atBoundary_of_flushes hf
    · exact hshown.trans (hv.done.decode_append _).symm
    · rfl
  · have hshown : ((v.push c g).shown c) = c.decode v.done ++ findPrintableText (c.decode (v.rest ++ g)) := by
      rw [View.push_of_not_flushes hf]
      rfl
    rw [if_neg hf]
    simp only [h.decodedText, h.sentOffset, ← hshown]
    refine ⟨_, rfl, ?_⟩
    rw [View.push_of_not_flushes hf] at hshown ⊢
    exact ⟨h.decodeIds, h.readOffset, h.surrOffset, h.surr, rfl, rfl⟩

/-- Trimming looks at the last token only. -/
theorem trimMatchedStopIds_append {noStopTrim : Bool} {a b : List ℕ}
    (hb : (∃ matched, reason = some (.matchedToken matched)) → b ≠ []) :
    trimMatchedStopIds c (a ++ b) reason noStopTrim =
      (trimMatchedStopIds c b reason noStopTrim).map (a ++ ·) := by
  unfold trimMatchedStopIds
  split
  · rfl
  split
  · next matched =>
    have hne : b ≠ [] := hb ⟨matched, rfl⟩
    obtain ⟨last, hlast⟩ : ∃ last, b.getLast? = some last := ⟨_, getLast?_eq_some_getLast hne⟩
    split
    · rfl
    rw [getLast?_append, hlast]
    show (if _ then some (a ++ b) else some (a ++ b).dropLast) = Option.map _ (if _ then _ else _)
    split
    · rfl
    · rw [dropLast_append_of_ne_nil hne]
      rfl
  · rfl

/-- It fails only on an empty list. -/
theorem exists_trimMatchedStopIds (c : Config) (noStopTrim : Bool)
    (h : (∃ matched, reason = some (.matchedToken matched)) → ids ≠ []) :
    ∃ kept, trimMatchedStopIds c ids reason noStopTrim = some kept := by
  unfold trimMatchedStopIds
  split
  · exact ⟨_, rfl⟩
  split
  · next matched =>
    split
    · exact ⟨_, rfl⟩
    rw [getLast?_eq_some_getLast (h ⟨matched, rfl⟩)]
    dsimp only
    split
    · exact ⟨_, rfl⟩
    · exact ⟨_, rfl⟩
  · exact ⟨_, rfl⟩

theorem trimMatchedStopText_of_no_str {reason : FinishReason} (hr : ∀ str, reason ≠ .matchedStr str)
    (output : List ℕ) (noStopTrim : Bool) : trimMatchedStopText output (some reason) noStopTrim = output := by
  unfold trimMatchedStopText
  split
  · rfl
  · cases reason with
    | length => rfl
    | matchedToken matched => rfl
    | matchedStr str => exact absurd rfl (hr str)

/-- **The last message** sends the rest of the text of the tokens that are kept. -/
theorem Follows.stepRow_finished {status : Option DecodeStatus} {reason : FinishReason} {kept : List ℕ}
    (hv : v.Valid c) (h : Follows c tail v pending (receive status x)) (hx : x.finishedReason = some reason)
    (hr : ∀ str, reason ≠ .matchedStr str) (hne : (∃ matched, reason = .matchedToken matched) → pending ≠ [])
    (hkept : trimMatchedStopIds c (v.done ++ pending) (some reason) x.noStopTrim = some kept) :
    stepRow c status x = some (none, (c.decode kept).drop (v.shown c).length) := by
  have hlast : (∃ matched, some reason = some (.matchedToken matched)) → pending ≠ [] :=
    fun ⟨matched, heq⟩ => hne ⟨matched, Option.some.inj heq⟩
  rw [trimMatchedStopIds_append hlast] at hkept
  obtain ⟨ids, hids, rfl⟩ := map_eq_some_iff.mp hkept
  unfold stepRow readIds
  rw [h.drop_eq, hx, trimMatchedStopIds_append hlast, hids]
  show some (emit c _ x _) = _
  unfold emit
  rw [hx]
  simp only [h.newText, h.decodedText, h.sentOffset, trimMatchedStopText_of_no_str hr, hv.done.decode_append]

/-- The status of a request that is not finished is kept. -/
theorem exists_status_of_streaming {status : Option DecodeStatus} {res : Option DecodeStatus × List ℕ}
    (hres : stepRow c status x = some res) (hx : x.finishedReason = none) : ∃ s, res.1 = some s := by
  obtain ⟨ids, -, rfl⟩ := map_eq_some_iff.mp hres
  unfold emit
  rw [hx]
  exact ⟨_, rfl⟩

theorem Follows.stepRow_streaming {status : Option DecodeStatus} {g : List ℕ} (hv : v.Valid c)
    (h : Follows c tail v (v.rest ++ g) (receive status x)) (hx : x.finishedReason = none) :
    ∃ s', stepRow c status x = some (some s', ((v.push c g).shown c).drop (v.shown c).length) ∧
      Follows c tail (v.push c g) (v.push c g).rest s' := by
  obtain ⟨s', hemit, hs'⟩ := h.emit_streaming hv hx
  refine ⟨s', ?_, hs'⟩
  unfold stepRow
  rw [readIds_streaming c _ hx, map_some, hemit]

end Follows

/-! ## Offsets -/

/-- The offsets of a status are within its ids. -/
structure Within (s : DecodeStatus) : Prop where
  surrOffset : s.surrOffset ≤ s.readOffset
  readOffset : s.readOffset ≤ s.decodeIds.length

section Within

variable {c : Config} {status : Option DecodeStatus} {s : DecodeStatus} {x : Row}

theorem Within.emit (h : Within (receive status x)) {res : Option DecodeStatus × List ℕ}
    (hres : stepRow c status x = some res) (hs : res.1 = some s) : Within s := by
  obtain ⟨ids, -, rfl⟩ := map_eq_some_iff.mp hres
  unfold Detokenizer.emit at hs
  split at hs
  · obtain rfl := Option.some.inj hs
    unfold advance
    split
    · exact ⟨h.readOffset, le_rfl⟩
    · exact ⟨h.surrOffset, h.readOffset⟩
  · cases hs

/-- A row is refused only if its stop token is missing. -/
theorem exists_stepRow (c : Config) (h : (∃ matched, x.finishedReason = some (.matchedToken matched)) →
      (receive status x).surrOffset < (receive status x).decodeIds.length) :
        ∃ res, stepRow c status x = some res := by
  obtain ⟨ids, hids⟩ := exists_trimMatchedStopIds c x.noStopTrim fun hm hnil =>
    absurd (h hm) (Nat.not_lt.mpr (drop_eq_nil_iff.mp hnil))
  exact ⟨_, map_eq_some_iff.mpr ⟨ids, hids, rfl⟩⟩

end Within

/-! ## Strings sent -/

/-- The strings that were sent add up to `text`, or to more if the text was not `steady`. -/
structure Sends (steady : Prop) (text : List ℕ) (sent : List (List ℕ)) : Prop where
  eq : steady → sent.flatten = text
  lt : ¬ steady → text.length < sent.flatten.length

/-- **One more string**, the part of the new text behind the length of the old one: the sum is the new text
exactly as long as texts do not get shorter. -/
theorem Sends.send {steady : Prop} {old new : List ℕ} {sent : List (List ℕ)} (h : Sends steady old sent)
    (hpre : old.length ≤ new.length → old <+: new) :
    Sends (steady ∧ old.length ≤ new.length) new (sent ++ [new.drop old.length]) := by
  constructor
  · rintro ⟨hsteady, hle⟩
    rw [flatten_append, flatten_singleton, h.eq hsteady]
    exact prefix_append_drop (hpre hle) |>.symm
  · intro hnot
    rw [flatten_append, flatten_singleton, length_append, length_drop]
    by_cases hsteady : steady
    · have hlt : ¬ old.length ≤ new.length := fun hle => hnot ⟨hsteady, hle⟩
      rw [h.eq hsteady]
      omega
    · have := h.lt hsteady
      omega

end SGLang.Detokenizer
