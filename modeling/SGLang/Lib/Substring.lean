/-
# SGLang.Lib.Substring — finding, cutting and stripping in lists.

`find` is the position of the first occurrence, as Python's `str.find`. Two facts say how it behaves when text
arrives in two pieces: an occurrence in the first piece stays the first one, and if no occurrence starts in the
first piece (`Clear`) then the occurrences are those of the second piece. `strip` and its halves drop elements
at the ends.
-/
import Mathlib.Data.List.DropRight

namespace SGLang.Lib.Substring

open List

section Find

variable {α : Type} [DecidableEq α] {sub x y : List α} {k : ℕ}

/-- Where `sub` first occurs. -/
def find (sub : List α) : List α → Option ℕ
  | [] => if sub = [] then some 0 else none
  | c :: text => if sub <+: c :: text then some 0 else (find sub text).map (· + 1)

theorem find_cons (c : α) (text : List α) :
    find sub (c :: text) = if sub <+: c :: text then some 0 else (find sub text).map (· + 1) := rfl

/-- The text without the first occurrence of `sub`. -/
def removeFirst (sub text : List α) : List α :=
  match find sub text with
  | none => text
  | some k => text.take k ++ text.drop (k + sub.length)

/-- No occurrence of `sub` in `x ++ y` starts in `x`. -/
def Clear (sub x y : List α) : Prop := ∀ k < x.length, ¬ sub <+: (x ++ y).drop k

instance : Decidable (Clear sub x y) :=
  inferInstanceAs (Decidable (∀ k < x.length, ¬ sub <+: (x ++ y).drop k))

/-- An occurrence ends in the text. -/
theorem find_length (h : find sub x = some k) : k + sub.length ≤ x.length := by
  induction x generalizing k with
  | nil =>
    unfold find at h
    split at h
    · next hnil =>
      cases h
      rw [hnil]
      exact le_rfl
    · cases h
  | cons c x ih =>
    rw [find_cons] at h
    split at h
    · next hpre =>
      cases h
      rw [Nat.zero_add]
      exact hpre.length_le
    · obtain ⟨j, hj, rfl⟩ := Option.map_eq_some_iff.mp h
      have := ih hj
      rw [length_cons]
      omega

/-- More text does not move the first occurrence. -/
theorem find_append (h : find sub x = some k) (y : List α) : find sub (x ++ y) = some k := by
  induction x generalizing k with
  | nil =>
    unfold find at h
    split at h
    · next hnil =>
      cases h
      subst hnil
      cases y with
      | nil => rfl
      | cons d y => exact if_pos nil_prefix
    · cases h
  | cons c x ih =>
    rw [find_cons] at h
    split at h
    · next hpre =>
      cases h
      exact if_pos (hpre.trans (prefix_append _ _))
    · next hpre =>
      obtain ⟨j, hj, rfl⟩ := Option.map_eq_some_iff.mp h
      -- an occurrence at the front that needs `y` is too long to occur in `x`
      have hnot : ¬ sub <+: c :: (x ++ y) := by
        intro hlong
        have hlen := find_length hj
        apply hpre
        apply prefix_of_prefix_length_le hlong (prefix_append (c :: x) y)
        rw [length_cons]
        omega
      rw [cons_append, find_cons, if_neg hnot, ih hj, Option.map_some]

theorem find_append_of_clear (h : Clear sub x y) : find sub (x ++ y) = (find sub y).map (· + x.length) := by
  induction x with
  | nil => simp
  | cons c x ih =>
    have hfront : ¬ sub <+: c :: (x ++ y) := h 0 (Nat.succ_pos _)
    have hrest : Clear sub x y := by
      intro k hk
      exact h (k + 1) (Nat.succ_lt_succ hk)
    rw [cons_append, find_cons, if_neg hfront, ih hrest, Option.map_map]
    rfl

/-- What is not in the whole is not in its second part. -/
theorem find_right_eq_none (h : find sub (x ++ y) = none) : find sub y = none := by
  induction x with
  | nil => exact h
  | cons c x ih =>
    rw [cons_append, find_cons] at h
    split at h
    · cases h
    · exact ih (Option.map_eq_none_iff.mp h)

theorem removeFirst_append (h : (find sub x).isSome = true) (y : List α) :
    removeFirst sub (x ++ y) = removeFirst sub x ++ y := by
  obtain ⟨k, hk⟩ := Option.isSome_iff_exists.mp h
  have hlen := find_length hk
  unfold removeFirst
  rw [hk, find_append hk y]
  show (x ++ y).take k ++ (x ++ y).drop (k + sub.length) = x.take k ++ x.drop (k + sub.length) ++ y
  rw [take_append_of_le_length (by omega), drop_append_of_le_length hlen, append_assoc]

theorem removeFirst_append_of_clear (h : Clear sub x y) :
    removeFirst sub (x ++ y) = x ++ removeFirst sub y := by
  unfold removeFirst
  rw [find_append_of_clear h]
  cases find sub y with
  | none => rfl
  | some k =>
    show (x ++ y).take (k + x.length) ++ (x ++ y).drop (k + x.length + sub.length) =
      x ++ (y.take k ++ y.drop (k + sub.length))
    rw [Nat.add_comm k, take_length_add_append, Nat.add_assoc, drop_length_add_append, append_assoc]

end Find

section Strip

variable {α : Type} (p : α → Bool) {x y y' : List α}

/-- `str.rstrip`. -/
def rstrip (x : List α) : List α := x.rdropWhile p

/-- `str.strip`. -/
def strip (x : List α) : List α := (rstrip p x).dropWhile p

theorem rstrip_append : rstrip p (x ++ y) = if rstrip p y = [] then rstrip p x else x ++ rstrip p y := by
  unfold rstrip rdropWhile
  rw [reverse_append, dropWhile_append]
  by_cases h : y.reverse.dropWhile p = []
  · rw [h, if_pos isEmpty_nil, if_pos reverse_nil]
  · rw [if_neg (by simpa using h), if_neg (by simpa using h), reverse_append, reverse_reverse]

theorem rstrip_rstrip : rstrip p (rstrip p x) = rstrip p x := rdropWhile_idempotent p x

theorem rstrip_append_congr (h : rstrip p y = rstrip p y') : rstrip p (x ++ y) = rstrip p (x ++ y') := by
  rw [rstrip_append, rstrip_append, h]

theorem strip_congr (h : rstrip p y = rstrip p y') : strip p y = strip p y' := by
  unfold strip
  rw [h]

theorem strip_rstrip : strip p (rstrip p x) = strip p x := strip_congr p (rstrip_rstrip p)

theorem rstrip_eq_nil (h : ∀ a ∈ x, p a = true) : rstrip p x = [] :=
  rdropWhile_eq_nil_iff.mpr h

/-- What is dropped anyway may stand in front. -/
theorem strip_append (h : ∀ a ∈ x, p a = true) : strip p (x ++ y) = strip p y := by
  unfold strip
  rw [rstrip_append]
  split
  · next hy => rw [hy, rstrip_eq_nil p h]
  · rw [dropWhile_append, if_pos]
    rw [dropWhile_eq_nil_iff.mpr h]
    rfl

end Strip

end SGLang.Lib.Substring
