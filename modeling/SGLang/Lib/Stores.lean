/-
# SGLang.Lib.Stores — programs that write to one array.

A program is the list of its stores, pairs of a position and a value, and `run` applies them one after the
other. Stores at distinct positions may be made in any order (`run_perm`). The other lemmas are about how
the positions are produced: lanes behind a mask (`filter_lt_range`), a loop over blocks
(`flatMap_blocks`), and programs that each own the next part of the array (`flatMap_parts`).
-/
import Mathlib

namespace SGLang.Lib

open List

variable {α β : Type*}

/-- The array after the stores. -/
def run (stores : List (ℕ × α)) (out : List α) : List α :=
  stores.foldl (fun out s => out.set s.1 s.2) out

/-- **Stores at distinct positions commute.** -/
theorem run_perm {stores stores' : List (ℕ × α)} (h : stores.Perm stores')
    (hnodup : (stores.map Prod.fst).Nodup) (out : List α) : run stores out = run stores' out := by
  refine h.foldl_eq' (fun x hx y hy z => ?_) out
  by_cases hxy : x = y
  · rw [hxy]
  · apply set_comm
    exact fun heq => hxy (inj_on_of_nodup_map hnodup hx hy heq)

theorem filter_lt_range {m n : ℕ} (h : m ≤ n) : (range n).filter (· < m) = range m := by
  obtain ⟨k, rfl⟩ := Nat.exists_eq_add_of_le h
  rw [range_add, filter_append, filter_eq_self.mpr (by simp), filter_eq_nil_iff.mpr (by simp), append_nil]

/-- A loop over `blocks` blocks of `size` lanes visits the offsets in order. -/
theorem flatMap_blocks (size blocks : ℕ) :
    ((range blocks).flatMap fun b => (range size).map (b * size + ·)) = range (blocks * size) := by
  induction blocks with
  | zero => simp
  | succ blocks ih =>
    rw [range_succ, flatMap_append, ih, flatMap_singleton, Nat.succ_mul, range_add]

/-- The positions of one program behind those of the programs before it. -/
theorem flatMap_parts (f : β → ℕ) (l : List β) (d : β) : ((range l.length).flatMap fun i =>
      (range (f (l.getD i d))).map (((l.take i).map f).sum + ·)) = range (l.map f).sum := by
  have hpart : ∀ n ≤ l.length, ((range n).flatMap fun i =>
      (range (f (l.getD i d))).map (((l.take i).map f).sum + ·)) = range ((l.take n).map f).sum := by
    intro n
    induction n with
    | zero => simp
    | succ n ih =>
      intro hn
      have hget : l.getD n d = l[n] := by simp [getD_eq_getElem?_getD, getElem?_eq_getElem hn]
      rw [range_succ, flatMap_append, ih (Nat.le_of_succ_le hn), flatMap_singleton,
        take_add_one, getElem?_eq_getElem hn, map_append, sum_append, range_add,
        hget]
      simp
  simpa using hpart l.length le_rfl

end SGLang.Lib
