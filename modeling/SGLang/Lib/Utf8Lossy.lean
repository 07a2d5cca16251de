/-
# SGLang.Lib.Utf8Lossy — lossy UTF-8 decoding as an automaton.

Bytes are fed one at a time to an automaton whose state is the started, still incomplete character. A byte that
cannot continue it closes a maximal invalid part, which becomes one replacement character, and is then read as a
first byte. At the end of the input an incomplete character is one more invalid part. So a decoding is the text
that is *settled* by the bytes read, whatever follows, and at most one replacement character after it; and a
byte sequence that ends on a character boundary decodes independently of what follows it.
-/
import Mathlib.Data.List.Infix
import Mathlib.Order.Nat

namespace SGLang.Lib.Utf8Lossy

open List

/-- U+FFFD. -/
def replacement : ℕ := 0xFFFD

/-- A started character: the bits read, how many bytes are needed after the next one, and the range of the next
one, which is narrower than that of continuation bytes after some first bytes. -/
structure Started where
  bits : ℕ
  more : ℕ
  lower : ℕ
  upper : ℕ
  lower_ge : 0x80 ≤ lower
  upper_le : upper ≤ 0xBF
  deriving DecidableEq

/-- A started character whose next byte is any continuation byte. -/
def started (bits more : ℕ) : Started := ⟨bits, more, 0x80, 0xBF, le_rfl, le_rfl⟩

/-- A byte read on a character boundary: the next state and the code points it yields. -/
def first (b : ℕ) : Option Started × List ℕ :=
  if b ≤ 0x7F then (none, [b])
  else if b < 0xC2 then (none, [replacement])
  else if b ≤ 0xDF then (some (started (b - 0xC0) 0), [])
  else if b = 0xE0 then (some ⟨0, 1, 0xA0, 0xBF, by decide, le_rfl⟩, [])
  else if b = 0xED then (some ⟨0xD, 1, 0x80, 0x9F, le_rfl, by decide⟩, [])
  else if b ≤ 0xEF then (some (started (b - 0xE0) 1), [])
  else if b = 0xF0 then (some ⟨0, 2, 0x90, 0xBF, by decide, le_rfl⟩, [])
  else if b ≤ 0xF3 then (some (started (b - 0xF0) 2), [])
  else if b = 0xF4 then (some ⟨4, 2, 0x80, 0x8F, le_rfl, by decide⟩, [])
  else (none, [replacement])

/-- A byte in the range a started character asks for. -/
def Started.next (c : Started) (b : ℕ) : Option Started × List ℕ :=
  match c.more with
  | 0 => (none, [c.bits * 64 + (b - 0x80)])
  | n + 1 => (some (started (c.bits * 64 + (b - 0x80)) n), [])

/-- A byte read in any state. -/
def step : Option Started → ℕ → Option Started × List ℕ
  | none, b => first b
  | some c, b => if c.lower ≤ b ∧ b ≤ c.upper then c.next b else ((first b).1, replacement :: (first b).2)

theorem step_some (c : Started) (b : ℕ) : step (some c) b =
      if c.lower ≤ b ∧ b ≤ c.upper then c.next b else ((first b).1, replacement :: (first b).2) := rfl

/-- Bytes read one after the other. -/
def feed : Option Started → List ℕ → Option Started × List ℕ
  | s, [] => (s, [])
  | s, b :: bs => ((feed (step s b).1 bs).1, (step s b).2 ++ (feed (step s b).1 bs).2)

/-- What the end of the input adds. -/
def flush : Option Started → List ℕ
  | none => []
  | some _ => [replacement]

/-- The text the bytes settle. -/
def settled (bs : List ℕ) : List ℕ := (feed none bs).2

/-- The text of a complete input. -/
def decode (bs : List ℕ) : List ℕ := settled bs ++ flush (feed none bs).1

/-- The bytes end with a complete character or a complete invalid part. -/
def AtBoundary (bs : List ℕ) : Prop := (feed none bs).1 = none

instance (bs : List ℕ) : Decidable (AtBoundary bs) := inferInstanceAs (Decidable (_ = _))

variable {s : Option Started} {x y : List ℕ}

theorem feed_append (s : Option Started) (x y : List ℕ) :
    feed s (x ++ y) = ((feed (feed s x).1 y).1, (feed s x).2 ++ (feed (feed s x).1 y).2) := by
  induction x generalizing s with
  | nil => rfl
  | cons b x ih => simp only [cons_append, feed, ih, append_assoc]

/-! ## Boundaries -/

/-- After a boundary the automaton starts anew. -/
theorem AtBoundary.feed_append (hx : AtBoundary x) (y : List ℕ) :
    feed none (x ++ y) = ((feed none y).1, settled x ++ settled y) := by
  rw [Utf8Lossy.feed_append, show (feed none x).1 = none from hx]
  rfl

theorem AtBoundary.decode_append (hx : AtBoundary x) (y : List ℕ) :
    decode (x ++ y) = settled x ++ decode y := by
  unfold decode
  rw [show settled (x ++ y) = settled x ++ settled y from congrArg Prod.snd (hx.feed_append y),
    hx.feed_append y, append_assoc]

theorem AtBoundary.decode_eq (hx : AtBoundary x) : decode x = settled x := by
  unfold decode
  rw [show (feed none x).1 = none from hx]
  exact append_nil _

theorem AtBoundary.append_iff (hx : AtBoundary x) : AtBoundary (x ++ y) ↔ AtBoundary y := by
  unfold AtBoundary
  rw [hx.feed_append y]

/-- A byte that continues a character is no first byte. -/
theorem first_of_continuation {b : ℕ} (hl : 0x80 ≤ b) (hu : b ≤ 0xBF) : (first b).1 = none := by
  unfold first
  rw [if_neg (by omega), if_pos (by omega)]

/-- Started in the middle of the input the automaton is on a boundary, or in the state it has had from the
start. -/
theorem feed_none_fst (s : Option Started) (y : List ℕ) :
    (feed none y).1 = none ∨ (feed none y).1 = (feed s y).1 := by
  suffices h : ∀ t : Option Started, t = none ∨ t = s → (feed t y).1 = none ∨ (feed t y).1 = (feed s y).1 from
    h none (.inl rfl)
  induction y generalizing s with
  | nil => exact fun t ht => ht
  | cons b y ih =>
    intro t ht
    apply ih
    rcases ht with rfl | rfl
    · cases s with
      | none => exact .inr rfl
      | some c =>
        rw [step_some]
        split
        · next hin => exact .inl (first_of_continuation (c.lower_ge.trans hin.1) (hin.2.trans c.upper_le))
        · exact .inr rfl
    · exact .inr rfl

/-- A boundary is one for every part of the input that ends there. -/
theorem AtBoundary.of_append (h : AtBoundary (x ++ y)) : AtBoundary y := by
  unfold AtBoundary at h
  rw [Utf8Lossy.feed_append] at h
  rcases feed_none_fst (feed none x).1 y with hnone | heq
  · exact hnone
  · exact heq.trans h

/-- A text that does not end in a replacement character ends on a boundary. -/
theorem atBoundary_of_getLast (h : (decode x).getLast? ≠ some replacement) : AtBoundary x := by
  unfold AtBoundary
  cases hs : (feed none x).1 with
  | none => rfl
  | some c =>
    refine absurd ?_ h
    unfold decode
    rw [hs]
    exact List.getLast?_concat ..

/-! ## Settled text -/

theorem settled_prefix_append (x y : List ℕ) : settled x <+: settled (x ++ y) := by
  unfold settled
  rw [feed_append]
  exact prefix_append _ _

theorem settled_prefix_decode (x y : List ℕ) : settled x <+: decode (x ++ y) :=
  (settled_prefix_append x y).trans (prefix_append _ _)

/-- All but the last character of a decoding is settled. -/
theorem dropLast_decode_prefix_settled (x : List ℕ) : (decode x).dropLast <+: settled x := by
  unfold decode
  cases (feed none x).1 with
  | none =>
    rw [show flush none = [] from rfl, append_nil]
    exact dropLast_prefix _
  | some c =>
    rw [show flush (some c) = [replacement] from rfl, dropLast_concat]

/-- An incomplete character yields a character, whatever follows. -/
theorem flush_length_le (s : Option Started) (y : List ℕ) :
    (flush s).length ≤ (feed s y).2.length + (flush (feed s y).1).length := by
  induction y generalizing s with
  | nil => exact Nat.le_add_left _ _
  | cons b y ih =>
    have hstep : (flush s).length ≤ (step s b).2.length + (flush (step s b).1).length := by
      cases s with
      | none => exact Nat.zero_le _
      | some c =>
        rw [step_some]
        split
        · unfold Started.next
          split
          · exact le_rfl
          · exact le_rfl
        · show 1 ≤ (first b).2.length + 1 + _
          omega
    have := ih (step s b).1
    show _ ≤ ((step s b).2 ++ (feed (step s b).1 y).2).length + _
    rw [length_append]
    show _ ≤ _ + (flush (feed (step s b).1 y).1).length
    omega

theorem decode_length_le (x y : List ℕ) : (decode x).length ≤ (decode (x ++ y)).length := by
  have := flush_length_le (feed none x).1 y
  unfold decode settled
  rw [feed_append]
  simp only [length_append]
  omega

end SGLang.Lib.Utf8Lossy
