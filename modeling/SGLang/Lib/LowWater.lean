/-
# SGLang.Lib.LowWater — a ledger issued in order, retired in any order, and its low-water mark.

Spans are cut one after the other from an ordered tape: each begins at or after the end of the one
before it, possibly with a gap. They are given back in any order. The low-water mark is kept as the
place where the oldest span still held begins, or the end of the tape used so far when none is held.
Two facts make it useful to a party that sees it late: nothing that is held begins below it, and it
never moves back.
-/
import Mathlib.Order.Lattice

namespace SGLang.Lib

open Function

/-- A tape of positions `P`. `held i` is where the `i`-th span begins and ends, while it is held. -/
structure Ledger (P : Type) where
  cursor : P
  floor : P
  held : ℕ → Option (P × P)
  next : ℕ

namespace Ledger

variable {P : Type} {l l' : Ledger P}

/-- A tape of which nothing was used yet. -/
def empty (p : P) : Ledger P := ⟨p, p, fun _ => none, 0⟩

/-- The ledger after the next span, from `s` to `t`. -/
def issue (l : Ledger P) (s t : P) : Ledger P :=
  { l with
    cursor := t
    held := Function.update l.held l.next (some (s, t))
    next := l.next + 1 }

/-- The ledger after span `i` is given back and the floor is read anew. -/
def retire (l : Ledger P) (i : ℕ) (f : P) : Ledger P :=
  { l with
    floor := f
    held := Function.update l.held i none }

theorem issue_held {s t : P} {i : ℕ} {a b : P} (h : (l.issue s t).held i = some (a, b)) :
    i = l.next ∧ a = s ∧ b = t ∨ l.held i = some (a, b) := by
  by_cases hi : i = l.next
  · subst hi
    simp only [issue, update_self, Option.some.injEq, Prod.mk.injEq] at h
    exact .inl ⟨rfl, h.1.symm, h.2.symm⟩
  · simp only [issue, update_of_ne hi] at h
    exact .inr h

theorem retire_held {i j : ℕ} {f a b : P} (h : (l.retire i f).held j = some (a, b)) :
    j ≠ i ∧ l.held j = some (a, b) := by
  by_cases hj : j = i
  · subst hj
    simp [retire] at h
  · simp only [retire, update_of_ne hj] at h
    exact ⟨hj, h⟩

variable [LinearOrder P]

/-- What holds of a ledger at any time: spans are in the order of their numbers, and lie between the floor
and the cursor. -/
structure Valid (l : Ledger P) : Prop where
  fresh : ∀ i, l.next ≤ i → l.held i = none
  within : ∀ i s t, l.held i = some (s, t) → l.floor ≤ s ∧ s ≤ t ∧ t ≤ l.cursor
  ordered : ∀ i j s t s' t', i < j → l.held i = some (s, t) → l.held j = some (s', t') → t ≤ s'
  floor_le_cursor : l.floor ≤ l.cursor

/-- `f` is the low-water mark of the spans held: one of their beginnings, or the cursor, and no
beginning is below it. -/
structure IsLow (held : ℕ → Option (P × P)) (cursor f : P) : Prop where
  attained : f = cursor ∨ ∃ i t, held i = some (f, t)
  le : ∀ i s t, held i = some (s, t) → f ≤ s
  le_cursor : f ≤ cursor

/-- One step of a ledger. -/
inductive Step (l : Ledger P) : Ledger P → Prop
  | issue (s t : P) (hs : l.cursor ≤ s) (ht : s ≤ t) : Step l (l.issue s t)
  | retire (i : ℕ) (f : P) (hf : IsLow (Function.update l.held i none) l.cursor f) :
      Step l (l.retire i f)

theorem empty_valid (p : P) : (empty p).Valid := by
  refine ⟨fun _ _ => rfl, ?_, ?_, le_refl p⟩
  · intro i s t h
    cases h
  · intro i j s t s' t' _ h
    cases h

theorem Valid.lt_next (v : l.Valid) {i : ℕ} {s t : P} (h : l.held i = some (s, t)) : i < l.next := by
  by_contra hlt
  rw [v.fresh i (Nat.le_of_not_lt hlt)] at h
  cases h

theorem Valid.issue (v : l.Valid) {s t : P} (hs : l.cursor ≤ s) (ht : s ≤ t) : (l.issue s t).Valid := by
  have hle : l.cursor ≤ t := hs.trans ht
  refine ⟨?_, ?_, ?_, v.floor_le_cursor.trans hle⟩
  · intro i hi
    have hne : i ≠ l.next := Nat.ne_of_gt hi
    show update l.held l.next _ i = none
    rw [update_of_ne hne]
    exact v.fresh i (Nat.le_of_succ_le hi)
  · intro i a b h
    rcases issue_held h with ⟨_, rfl, rfl⟩ | h
    · exact ⟨v.floor_le_cursor.trans hs, ht, le_refl b⟩
    · exact (v.within i a b h).imp_right (And.imp_right hle.trans')
  · intro i j a b a' b' hij h h'
    -- only the later of two spans can be the new one, and it begins behind every old one
    rcases issue_held h with ⟨rfl, _, _⟩ | old
    · rcases issue_held h' with ⟨rfl, _, _⟩ | old'
      · exact absurd hij (lt_irrefl _)
      · exact absurd hij (not_lt_of_gt (v.lt_next old'))
    · rcases issue_held h' with ⟨_, rfl, _⟩ | old'
      · exact (v.within i a b old).2.2.trans hs
      · exact v.ordered i j a b a' b' hij old old'

theorem Valid.retire (v : l.Valid) {i : ℕ} {f : P}
    (hf : IsLow (update l.held i none) l.cursor f) : (l.retire i f).Valid := by
  refine ⟨?_, ?_, ?_, hf.le_cursor⟩
  · exact (forall_update_iff l.held fun j x => l.next ≤ j → x = none).mpr ⟨fun _ => rfl, fun j _ => v.fresh j⟩
  · intro j a b h
    exact ⟨hf.le j a b h, (v.within j a b (retire_held h).2).2⟩
  · intro j k a b a' b' hjk h h'
    exact v.ordered j k a b a' b' hjk (retire_held h).2 (retire_held h').2

theorem Step.valid (h : Step l l') (v : l.Valid) : l'.Valid := by
  cases h with
  | issue s t hs ht => exact v.issue hs ht
  | retire i f hf => exact v.retire hf

/-- The floor never moves back. -/
theorem Step.floor_le (h : Step l l') (v : l.Valid) : l.floor ≤ l'.floor := by
  cases h with
  | issue s t hs ht => exact le_refl _
  | retire i f hf =>
    rcases hf.attained with rfl | ⟨j, t, hj⟩
    · exact v.floor_le_cursor
    · exact (v.within j f t (retire_held (f := f) hj).2).1

/-- Of the spans left when span `k` is given back, the oldest begins at the low-water mark. -/
theorem Valid.isLow_oldest (v : l.Valid) {k i : ℕ} {s t : P} (hi : update l.held k none i = some (s, t))
    (hmin : ∀ j, update l.held k none j ≠ none → i ≤ j) :
    IsLow (update l.held k none) l.cursor s := by
  have hold := (retire_held (f := s) hi).2
  obtain ⟨_, hst, htc⟩ := v.within i s t hold
  refine ⟨.inr ⟨i, t, hi⟩, ?_, hst.trans htc⟩
  intro j a b hj
  have hne : update l.held k none j ≠ none := by
    rw [hj]
    exact Option.some_ne_none _
  rcases Nat.eq_or_lt_of_le (hmin j hne) with rfl | hlt
  · rw [hi] at hj
    cases hj
    exact le_refl s
  · have hold' := (retire_held (f := s) hj).2
    exact hst.trans (v.ordered i j s t a b hlt hold hold')

/-- When nothing is held the low-water mark is the cursor. -/
theorem isLow_none {held : ℕ → Option (P × P)} {cursor : P} (h : ∀ i, held i = none) :
    IsLow held cursor cursor := by
  refine ⟨.inl rfl, ?_, le_refl cursor⟩
  intro i s t hi
  rw [h i] at hi
  cases hi

end Ledger

end SGLang.Lib
