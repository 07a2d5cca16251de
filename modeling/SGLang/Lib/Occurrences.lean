/-
# SGLang.Lib.Occurrences — where a word ends in a text.

`Ends w u i` says that `u` occurs in `w` and ends before position `i`. A longer word ends at fewer places; two
words that end at one place are suffixes of each other; and appending a letter to the text adds one end for each
suffix of the new text. A word is `Closed` if it is not preceded by the same letter wherever it occurs: words
that end at the same places have one closed word among their common extensions to the left.
-/
import Mathlib.Data.List.Infix
import Mathlib.Order.Nat

namespace SGLang.Lib.Occurrences

open List

variable {α : Type} {w u x y z : List α} {a b : α} {i : ℕ}

/-- The word `u` ends in `w` before position `i`. -/
def Ends (w u : List α) (i : ℕ) : Prop := i ≤ w.length ∧ u <:+ w.take i

/-- The word occurs in the text. -/
def Occurs (w u : List α) : Prop := ∃ i, Ends w u i

/-- The two words end at the same places. -/
def SameEnds (w u x : List α) : Prop := ∀ i, Ends w u i ↔ Ends w x i

/-- The word occurs, and not always after the same letter. -/
structure Closed (w x : List α) : Prop where
  occurs : Occurs w x
  left : ∀ c, ∃ i, Ends w x i ∧ ¬ Ends w (c :: x) i

theorem Ends.mono (h : Ends w x i) (hu : u <:+ x) : Ends w u i := ⟨h.1, hu.trans h.2⟩

theorem Occurs.mono (h : Occurs w x) (hu : u <:+ x) : Occurs w u := h.imp fun _ hi => hi.mono hu

theorem Ends.length_le (h : Ends w u i) : u.length ≤ w.length := by
  have := h.2.length_le
  rw [length_take] at this
  omega

theorem Occurs.length_le (h : Occurs w u) : u.length ≤ w.length := h.elim fun _ hi => hi.length_le

/-- Words that end at one place are suffixes of each other. -/
theorem Ends.suffix (hu : Ends w u i) (hx : Ends w x i) (h : u.length ≤ x.length) : u <:+ x :=
  suffix_of_suffix_length_le hu.2 hx.2 h

theorem ends_length_iff : Ends w u w.length ↔ u <:+ w := by
  unfold Ends
  rw [take_length]
  exact and_iff_right le_rfl

theorem occurs_of_suffix (h : u <:+ w) : Occurs w u := ⟨_, ends_length_iff.mpr h⟩

/-- A word occurs in a text if it is a contiguous part of it. -/
theorem occurs_iff_infix : Occurs w u ↔ u <:+: w := by
  constructor
  · rintro ⟨i, -, s, hs⟩
    refine ⟨s, w.drop i, ?_⟩
    rw [hs, take_append_drop]
  · rintro ⟨s, t, rfl⟩
    refine ⟨(s ++ u).length, ?_, ?_⟩
    · exact (List.prefix_append _ _).length_le
    · rw [take_left]
      exact suffix_append _ _

namespace SameEnds

theorem refl (w u : List α) : SameEnds w u u := fun _ => Iff.rfl

theorem symm (h : SameEnds w u x) : SameEnds w x u := fun i => (h i).symm

theorem trans (h : SameEnds w u x) (h' : SameEnds w x y) : SameEnds w u y := fun i => (h i).trans (h' i)

theorem occurs_iff (h : SameEnds w u x) : Occurs w u ↔ Occurs w x := exists_congr h

/-- What lies between two words that end at the same places does too. -/
theorem between (h : SameEnds w u x) (huy : u <:+ y) (hyx : y <:+ x) : SameEnds w y x :=
  fun i => ⟨fun hy => (h i).mp (hy.mono huy), fun hx => hx.mono hyx⟩

end SameEnds

/-- Closed words that end at the same places are equal. -/
theorem Closed.eq (hx : Closed w x) (hy : Closed w y) (h : SameEnds w x y) : x = y := by
  -- of two different ones the longer would always precede the shorter by the same letter
  have hle : ∀ {u v : List α}, Closed w u → SameEnds w u v → v.length ≤ u.length := by
    intro u v hu huv
    by_contra hlt
    obtain ⟨i, hi⟩ := hu.occurs
    obtain ⟨s, rfl⟩ := hi.suffix ((huv i).mp hi) (by omega)
    rcases eq_nil_or_concat s with rfl | ⟨s, c, rfl⟩
    · rw [nil_append] at hlt
      exact hlt le_rfl
    · obtain ⟨j, hj, hnot⟩ := hu.left c
      apply hnot
      apply ((huv j).mp hj).mono
      rw [concat_eq_append, append_assoc]
      exact suffix_append _ _
  obtain ⟨i, hi⟩ := hx.occurs
  have hlen : x.length = y.length := Nat.le_antisymm (hle hy h.symm) (hle hx h)
  exact (hi.suffix ((h i).mp hi) hlen.le).eq_of_length hlen

/-! ## Words with one more letter -/

theorem suffix_concat_iff : u ++ [b] <:+ w ++ [a] ↔ u <:+ w ∧ b = a := by
  constructor
  · rintro ⟨s, hs⟩
    rw [← append_assoc] at hs
    obtain ⟨rfl, hb⟩ := append_inj' hs rfl
    exact ⟨suffix_append _ _, singleton_inj.mp hb⟩
  · rintro ⟨⟨s, rfl⟩, rfl⟩
    exact ⟨s, (append_assoc ..).symm⟩

/-- A word with one more letter ends one place after the word, behind that letter. -/
theorem ends_concat_iff : Ends w (u ++ [a]) i ↔ ∃ j, i = j + 1 ∧ Ends w u j ∧ w[j]? = some a := by
  constructor
  · rintro ⟨hi, hs⟩
    rcases i with _ | j
    · exact absurd (suffix_nil.mp hs) (by simp)
    · have hj : j < w.length := hi
      rw [take_succ_eq_append_getElem hj, suffix_concat_iff] at hs
      refine ⟨j, rfl, ⟨hj.le, hs.1⟩, ?_⟩
      rw [getElem?_eq_getElem hj, hs.2]
  · rintro ⟨j, rfl, hu, ha⟩
    obtain ⟨hj, rfl⟩ := List.getElem?_eq_some_iff.mp ha
    refine ⟨hj, ?_⟩
    rw [take_succ_eq_append_getElem hj, suffix_concat_iff]
    exact ⟨hu.2, rfl⟩

theorem SameEnds.concat (h : SameEnds w u x) (a : α) : SameEnds w (u ++ [a]) (x ++ [a]) := by
  intro i
  rw [ends_concat_iff, ends_concat_iff]
  exact exists_congr fun j => and_congr_right fun _ => and_congr_left fun _ => h j

theorem Occurs.of_concat (h : Occurs w (u ++ [a])) : Occurs w u := by
  obtain ⟨i, hi⟩ := h
  obtain ⟨j, -, hj, -⟩ := ends_concat_iff.mp hi
  exact ⟨j, hj⟩

/-! ## A text with one more letter -/

/-- The new text has the old ends, and its own suffixes end at its end. -/
theorem ends_append_iff : Ends (w ++ [a]) u i ↔ Ends w u i ∨ i = w.length + 1 ∧ u <:+ w ++ [a] := by
  have hlen : (w ++ [a]).length = w.length + 1 := length_append
  constructor
  · rintro ⟨hi, hs⟩
    rw [hlen] at hi
    rcases Nat.lt_or_ge w.length i with hlt | hge
    · obtain rfl : i = w.length + 1 := by omega
      rw [← hlen, take_length] at hs
      exact .inr ⟨rfl, hs⟩
    · rw [take_append_of_le_length hge] at hs
      exact .inl ⟨hge, hs⟩
  · rintro (⟨hi, hs⟩ | ⟨rfl, hs⟩)
    · refine ⟨by omega, ?_⟩
      rwa [take_append_of_le_length hi]
    · rw [← hlen]
      exact ends_length_iff.mpr hs

theorem Ends.append (h : Ends w u i) (a : α) : Ends (w ++ [a]) u i := ends_append_iff.mpr (.inl h)

theorem Occurs.append (h : Occurs w u) (a : α) : Occurs (w ++ [a]) u := h.imp fun _ hi => hi.append a

theorem ends_append_of_le (hi : i ≤ w.length) : Ends (w ++ [a]) u i ↔ Ends w u i := by
  rw [ends_append_iff]
  exact or_iff_left fun h => by omega

theorem ends_append_length : Ends (w ++ [a]) u (w.length + 1) ↔ u <:+ w ++ [a] := by
  rw [ends_append_iff]
  constructor
  · rintro (h | h)
    · exact absurd h.1 (by omega)
    · exact h.2
  · exact fun h => .inr ⟨rfl, h⟩

theorem occurs_append_iff : Occurs (w ++ [a]) u ↔ Occurs w u ∨ u <:+ w ++ [a] := by
  constructor
  · rintro ⟨i, hi⟩
    rcases ends_append_iff.mp hi with hi | hi
    · exact .inl ⟨i, hi⟩
    · exact .inr hi.2
  · rintro (h | h)
    · exact h.append a
    · exact ⟨_, ends_append_length.mpr h⟩

theorem sameEnds_append_iff : SameEnds (w ++ [a]) u x ↔ SameEnds w u x ∧ (u <:+ w ++ [a] ↔ x <:+ w ++ [a]) := by
  constructor
  · intro h
    refine ⟨?_, ?_⟩
    · intro i
      by_cases hi : i ≤ w.length
      · rw [← ends_append_of_le (a := a) hi, ← ends_append_of_le (a := a) hi]
        exact h i
      · exact iff_of_false (fun hu => hi hu.1) (fun hx => hi hx.1)
    · rw [← ends_append_length, ← ends_append_length]
      exact h _
  · rintro ⟨h, hsuf⟩ i
    rw [ends_append_iff, ends_append_iff, h i, hsuf]

/-- A closed word stays closed. -/
theorem Closed.append (h : Closed w x) (a : α) : Closed (w ++ [a]) x := by
  refine ⟨h.occurs.append a, ?_⟩
  intro c
  obtain ⟨i, hi, hnot⟩ := h.left c
  exact ⟨i, hi.append a, fun hc => hnot ((ends_append_of_le hi.1).mp hc)⟩

/-- The text itself is closed. -/
theorem closed_self (w : List α) : Closed w w := by
  refine ⟨occurs_of_suffix suffix_rfl, fun c => ⟨w.length, ends_length_iff.mpr suffix_rfl, ?_⟩⟩
  intro h
  have := h.length_le
  rw [length_cons] at this
  omega

theorem not_occurs_self_append (w : List α) (a : α) : ¬ Occurs w (w ++ [a]) := by
  intro h
  have := h.length_le
  rw [length_append, length_singleton] at this
  omega

/-! ## The longest suffix that occurs -/

/-- The longest suffix of `text` that occurs in `w`. -/
structure Longest (w text z : List α) : Prop where
  suffix : z <:+ text
  occurs : Occurs w z
  max : ∀ u, u <:+ text → Occurs w u → u <:+ z

namespace Longest

variable {text : List α}

/-- For words that occur, being a suffix of the text is being a suffix of `z`. -/
theorem suffix_iff (h : Longest w text z) (hu : Occurs w u) : u <:+ text ↔ u <:+ z :=
  ⟨fun hs => h.max u hs hu, fun hs => hs.trans h.suffix⟩

theorem nil (w : List α) : Longest w [] [] :=
  ⟨suffix_rfl, occurs_of_suffix (nil_suffix), fun _ hu _ => hu⟩

/-- One more letter: the longest suffix of `z` that the letter follows. -/
theorem concat (h : Longest w text z) (hx : x <:+ z) (hocc : Occurs w (x ++ [a]))
    (hmax : ∀ u, u <:+ z → Occurs w (u ++ [a]) → u <:+ x) : Longest w (text ++ [a]) (x ++ [a]) := by
  refine ⟨suffix_concat_iff.mpr ⟨hx.trans h.suffix, rfl⟩, hocc, ?_⟩
  intro u hu hoccu
  rcases eq_nil_or_concat u with rfl | ⟨u, b, rfl⟩
  · exact nil_suffix
  · rw [concat_eq_append] at hu hoccu ⊢
    obtain ⟨hsuf, rfl⟩ := suffix_concat_iff.mp hu
    exact suffix_concat_iff.mpr ⟨hmax u (h.max u hsuf hoccu.of_concat) hoccu, rfl⟩

/-- Or nothing, if the letter does not occur. -/
theorem concat_nil (text : List α) (hnot : ¬ Occurs w [a]) : Longest w (text ++ [a]) [] := by
  refine ⟨nil_suffix, occurs_of_suffix nil_suffix, ?_⟩
  intro u hu hoccu
  rcases eq_nil_or_concat u with rfl | ⟨u, b, rfl⟩
  · exact suffix_rfl
  · rw [concat_eq_append] at hu hoccu
    obtain ⟨-, rfl⟩ := suffix_concat_iff.mp hu
    exact absurd (hoccu.mono (suffix_append u [b])) hnot

theorem sameEnds_iff (h : Longest w (w ++ [a]) z) (hu : Occurs w u) (hx : Occurs w x) :
    SameEnds (w ++ [a]) u x ↔ SameEnds w u x ∧ (u <:+ z ↔ x <:+ z) := by
  rw [sameEnds_append_iff, h.suffix_iff hu, h.suffix_iff hx]

/-- The longest old suffix of the new text becomes closed: where it ends newly, no letter precedes it that did
before. -/
theorem closed (h : Longest w (w ++ [a]) z) : Closed (w ++ [a]) z := by
  refine ⟨h.occurs.append a, ?_⟩
  intro c
  by_cases hc : c :: z <:+ w ++ [a]
  · obtain ⟨i, hi⟩ := h.occurs
    refine ⟨i, hi.append a, fun hcz => ?_⟩
    have := (h.max _ hc ⟨i, (ends_append_of_le hi.1).mp hcz⟩).length_le
    rw [length_cons] at this
    omega
  · exact ⟨_, ends_append_length.mpr h.suffix, fun hcz => hc (ends_append_length.mp hcz)⟩

theorem length_lt (h : Longest w (w ++ [a]) z) : z.length < (w ++ [a]).length := by
  have := h.occurs.length_le
  rw [length_append, length_singleton]
  omega

end Longest

/-- The new suffixes of the new text end only at its end. -/
theorem sameEnds_of_new (hu : u <:+ w ++ [a]) (hnew : ¬ Occurs w u) : SameEnds (w ++ [a]) u (w ++ [a]) := by
  rw [sameEnds_append_iff]
  refine ⟨fun i => iff_of_false (fun h => hnew ⟨i, h⟩) (fun h => ?_), iff_of_true hu suffix_rfl⟩
  exact not_occurs_self_append w a ⟨i, h⟩

end SGLang.Lib.Occurrences
