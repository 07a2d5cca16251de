/-
# SGLang.Lib.Dict — dictionaries with values that are changed in place.

A dictionary is an association list. Its values may be mutable objects: `update` changes the object
stored under a key, `updateAll` those stored under several keys, `insertAll` writes and `eraseAll` drops several
keys. All that is ever said about the results is what a lookup finds. The order in which a dictionary is
iterated is any order (`arrange`). Last, two lemmas on computations that may raise.
-/
import Mathlib.Data.List.AList
import Mathlib.Algebra.Order.BigOperators.Group.List
import Mathlib.Algebra.Order.Group.Nat
import Mathlib.Algebra.GroupWithZero.Nat

namespace SGLang.Lib.Dict

open List AList

variable {κ β : Type} [DecidableEq κ] {d : AList fun _ : κ => β} {k k' : κ} {b : β} {f : β → β}
  {es : List (κ × β)}
  {ks : List κ} {p : β → Bool} {w : β → ℕ}

/-- The object stored under `k` changes, if there is one. -/
def update (d : AList fun _ : κ => β) (k : κ) (f : β → β) : AList fun _ : κ => β :=
  match d.lookup k with
  | none => d
  | some b => d.insert k (f b)

/-- The objects stored under the keys change. -/
def updateAll (d : AList fun _ : κ => β) (ks : List κ) (f : β → β) : AList fun _ : κ => β :=
  ks.foldl (fun d k => update d k f) d

/-- The keys are dropped. -/
def eraseAll (d : AList fun _ : κ => β) (ks : List κ) : AList fun _ : κ => β :=
  ks.foldl (fun d k => d.erase k) d

/-- The entries are written one after the other. -/
def insertAll (d : AList fun _ : κ => β) (es : List (κ × β)) : AList fun _ : κ => β :=
  es.foldl (fun d e => d.insert e.1 e.2) d

theorem lookup_insertAll_of_notMem (h : k ∉ es.map Prod.fst) : (insertAll d es).lookup k = d.lookup k := by
  induction es generalizing d with
  | nil => rfl
  | cons e es ih =>
    rw [map_cons, mem_cons, not_or] at h
    show (insertAll (d.insert e.1 e.2) es).lookup k = _
    rw [ih h.2]
    exact lookup_insert_ne h.1

theorem lookup_insertAll_of_mem (hes : (es.map Prod.fst).Nodup) (h : (k, b) ∈ es) :
    (insertAll d es).lookup k = some b := by
  induction es generalizing d with
  | nil => cases h
  | cons e es ih =>
    obtain ⟨he, hes⟩ := nodup_cons.mp hes
    show (insertAll (d.insert e.1 e.2) es).lookup k = _
    rcases mem_cons.mp h with rfl | h
    · rw [lookup_insertAll_of_notMem he]
      exact lookup_insert _
    · exact ih hes h

theorem lookup_insert_iff {b' : β} : (d.insert k b).lookup k' = some b' ↔
    k' = k ∧ b' = b ∨ k' ≠ k ∧ d.lookup k' = some b' := by
  by_cases hk : k' = k
  · subst hk
    simp [eq_comm]
  · simp [hk, lookup_insert_ne hk]

theorem lookup_erase_iff : (d.erase k).lookup k' = some b ↔ k' ≠ k ∧ d.lookup k' = some b := by
  by_cases hk : k' = k
  · subst hk
    simp
  · simp [hk, lookup_erase_ne hk]

/-- Different keys have different values. -/
def Inj (d : AList fun _ : κ => β) : Prop := ∀ k k' b, d.lookup k = some b → d.lookup k' = some b → k = k'

theorem Inj.insert (h : Inj d) (hb : ∀ k', d.lookup k' = some b → k' = k) : Inj (d.insert k b) := by
  intro i j c hi hj
  rcases lookup_insert_iff.mp hi with ⟨rfl, rfl⟩ | ⟨-, hold⟩ <;>
    rcases lookup_insert_iff.mp hj with ⟨rfl, heq⟩ | ⟨-, hold'⟩
  · rfl
  · exact (hb j hold').symm
  · exact hb i (heq ▸ hold)
  · exact h i j c hold hold'

theorem Inj.erase (h : Inj d) : Inj (d.erase k) :=
  fun i j c hi hj => h i j c (lookup_erase_iff.mp hi).2 (lookup_erase_iff.mp hj).2

theorem lookup_update : (update d k f).lookup k' = if k' = k then (d.lookup k).map f else d.lookup k' := by
  unfold update
  cases h : d.lookup k with
  | none =>
    by_cases hk : k' = k
    · rw [if_pos hk, hk, h, Option.map_none]
    · rw [if_neg hk]
  | some b =>
    by_cases hk : k' = k
    · rw [if_pos hk, hk, Option.map_some]
      exact lookup_insert d
    · rw [if_neg hk]
      exact lookup_insert_ne hk

theorem lookup_updateAll (hks : ks.Nodup) : (updateAll d ks f).lookup k' =
    if k' ∈ ks then (d.lookup k').map f else d.lookup k' := by
  induction ks generalizing d with
  | nil => simp [updateAll]
  | cons k ks ih =>
    rcases nodup_cons.mp hks with ⟨hk, hks⟩
    show (updateAll (update d k f) ks f).lookup k' = _
    rw [ih hks, lookup_update]
    by_cases h : k' = k
    · subst h
      simp [hk]
    · simp [h]

theorem lookup_eraseAll : (eraseAll d ks).lookup k' = if k' ∈ ks then none else d.lookup k' := by
  induction ks generalizing d with
  | nil => simp [eraseAll]
  | cons k ks ih =>
    show (eraseAll (d.erase k) ks).lookup k' = _
    rw [ih]
    by_cases h : k' = k
    · subst h
      simp
    · simp [h]

/-- The keys whose objects satisfy `p`, in the order of the dictionary. -/
def keysWhere (d : AList fun _ : κ => β) (p : β → Bool) : List κ :=
  (d.entries.filter fun e => p e.2).map fun e => e.1

omit [DecidableEq κ] in
theorem nodup_keysWhere : (keysWhere d p).Nodup :=
  (filter_sublist.map _).nodup d.nodupKeys

theorem mem_keysWhere : k ∈ keysWhere d p ↔ ∃ b, d.lookup k = some b ∧ p b = true := by
  simp only [keysWhere, mem_map, mem_filter, mem_lookup_iff, Option.mem_def.symm]
  constructor
  · rintro ⟨⟨k, b⟩, ⟨hmem, hp⟩, rfl⟩
    exact ⟨b, hmem, hp⟩
  · rintro ⟨b, hmem, hp⟩
    exact ⟨⟨k, b⟩, ⟨hmem, hp⟩, rfl⟩

/-! ## Weights -/

/-- The sum of the objects' weights. -/
def weigh (w : β → ℕ) (d : AList fun _ : κ => β) : ℕ := (d.entries.map fun e => w e.2).sum

theorem weigh_update (hk : d.lookup k = some b) : weigh w (update d k f) + w b = weigh w d + w (f b) := by
  obtain ⟨b', l₁, l₂, -, hl, hl'⟩ :=
    exists_of_kerase (mem_keys.mp (lookup_isSome.mp (by rw [hk]; rfl : (d.lookup k).isSome)))
  have hb : b' = b := by
    have hmem := mem_lookup_iff.mpr (show ⟨k, b'⟩ ∈ d.entries by simp [hl])
    rw [hk] at hmem
    exact (Option.some.inj hmem).symm
  simp only [update, hk, weigh, entries_insert, hl', map_cons, map_append, sum_cons, sum_append]
  simp only [hl, hb, map_cons, map_append, sum_cons, sum_append]
  omega

/-- Objects change that weigh the same afterwards. -/
theorem weigh_updateAll (hf : ∀ b, w (f b) = w b) : weigh w (updateAll d ks f) = weigh w d := by
  induction ks generalizing d with
  | nil => rfl
  | cons k ks ih =>
    refine ih.trans ?_
    cases hk : d.lookup k with
    | none => simp only [update, hk]
    | some b => exact Nat.add_right_cancel ((weigh_update hk).trans (by rw [hf]))

theorem weigh_eraseAll_le : weigh w (eraseAll d ks) ≤ weigh w d := by
  induction ks generalizing d with
  | nil => exact le_rfl
  | cons k ks ih => exact ih.trans (((kerase_sublist k d.entries).map _).sum_le_sum fun _ _ => Nat.zero_le _)

/-! ## Orders of iteration -/

section Arrange

variable {α : Type} [DecidableEq α]

/-- An order of a list's elements, if `order` gives one. -/
def arrange (order : List α → List α) (l : List α) : List α :=
  if (order l).Perm l then order l else l

theorem arrange_perm (order : List α → List α) (l : List α) : (arrange order l).Perm l := by
  unfold arrange
  split
  · assumption
  · exact Perm.refl l

/-- Any element may come first. -/
theorem exists_arrange_cons {a : α} {l : List α} (h : a ∈ l) :
    ∃ (order : List α → List α) (rest : List α), arrange order l = a :: rest ∧ ∀ b ∈ rest, b ∈ l := by
  refine ⟨fun l => a :: l.erase a, l.erase a, ?_, fun b => mem_of_mem_erase⟩
  exact if_pos (perm_cons_erase h).symm

end Arrange

end SGLang.Lib.Dict

namespace SGLang.Lib

theorem exists_of_bind_eq_ok {α β ε : Type} {x : Except ε α} {f : α → Except ε β} {y : β}
    (h : x >>= f = .ok y) : ∃ a, x = .ok a ∧ f a = .ok y := by
  cases x with
  | error e => cases h
  | ok a => exact ⟨a, rfl, h⟩

theorem mapM_eq_map {α β : Type} {f : α → Option β} {g : α → β} {l : List α} (h : ∀ x ∈ l, f x = some (g x)) :
    l.mapM f = some (l.map g) := by
  induction l with
  | nil => rfl
  | cons x l ih =>
    rw [List.mapM_cons, h x List.mem_cons_self, ih fun y hy => h y (List.mem_cons_of_mem x hy)]
    rfl

end SGLang.Lib
