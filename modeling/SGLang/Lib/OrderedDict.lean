/-
# SGLang.Lib.OrderedDict — dictionaries that remember the order of their keys.

An `OrderedDict` is the list of its items, no key twice. Next to lookup and removal it has the operations that a
recency order is made of: a key is put last with a new value or with its own, and the first item is taken out.
Of each operation it is said what it does to lookups and, up to the order, what it does to the values.
-/
import Mathlib.Data.List.Nodup
import Mathlib.Data.List.Perm.Basic

namespace SGLang.Lib

open List

/-- The items in order, with no key twice. -/
structure OrderedDict (κ β : Type) where
  items : List (κ × β)
  nodup : (items.map Prod.fst).Nodup

namespace OrderedDict

variable {κ β : Type} {d : OrderedDict κ β} {k : κ}

def empty : OrderedDict κ β := ⟨[], nodup_nil⟩

def values (d : OrderedDict κ β) : List β := d.items.map Prod.snd

/-- `popitem(last=False)`. -/
def popFirst (d : OrderedDict κ β) : Option ((κ × β) × OrderedDict κ β) :=
  match h : d.items with
  | [] => none
  | item :: rest => some (item, ⟨rest, by
      have hd := d.nodup
      rw [h] at hd
      exact hd.of_cons⟩)

theorem values_popFirst {d' : OrderedDict κ β} {item : κ × β} (h : d.popFirst = some (item, d')) :
    d.values = item.2 :: d'.values := by
  unfold popFirst at h
  split at h
  · cases h
  · next heq =>
    cases h
    simp [values, heq]

theorem exists_popFirst (h : d.values ≠ []) : ∃ item d', d.popFirst = some (item, d') := by
  unfold popFirst
  split
  · next heq => exact absurd (by simp [values, heq]) h
  · exact ⟨_, _, rfl⟩

variable [DecidableEq κ]

def get? (d : OrderedDict κ β) (k : κ) : Option β := (d.items.find? fun item => item.1 = k).map Prod.snd

/-- The dictionary without the key. -/
def drop (d : OrderedDict κ β) (k : κ) : OrderedDict κ β :=
  ⟨d.items.filter fun item => item.1 ≠ k, (filter_sublist.map _).nodup d.nodup⟩

/-- `d[k] = b` and `d.move_to_end(k)`. -/
def setLast (d : OrderedDict κ β) (k : κ) (b : β) : OrderedDict κ β where
  items := (d.drop k).items ++ [(k, b)]
  nodup := by
    rw [map_append, nodup_append']
    refine ⟨(d.drop k).nodup, nodup_singleton k, ?_⟩
    intro k' hmem hk
    rw [mem_map] at hmem
    obtain ⟨item, hitem, rfl⟩ := hmem
    have hne := (mem_filter.mp hitem).2
    simp_all

/-- `d.move_to_end(k)`, if the key is there. -/
def moveToEnd (d : OrderedDict κ β) (k : κ) : OrderedDict κ β :=
  match d.get? k with
  | none => d
  | some b => d.setLast k b

theorem get?_eq_none_iff : d.get? k = none ↔ ∀ item ∈ d.items, item.1 ≠ k := by
  simp [get?]

theorem drop_of_get?_none (h : d.get? k = none) : d.drop k = d := by
  obtain ⟨items, hnodup⟩ := d
  rw [get?_eq_none_iff] at h
  simp only [drop, mk.injEq, filter_eq_self]
  intro item hitem
  simpa using h item hitem

theorem values_drop {b : β} (h : d.get? k = some b) : d.values.Perm (b :: (d.drop k).values) := by
  obtain ⟨item, hfind, rfl⟩ := Option.map_eq_some_iff.mp h
  have hmem := mem_of_find?_eq_some hfind
  have hkey : item.1 = k := by simpa using find?_some hfind
  obtain ⟨before, after, heq⟩ := append_of_mem hmem
  -- no other item has the key
  have hnodup := d.nodup
  rw [heq] at hnodup
  have hdrop : (d.drop k).items = before ++ after := by
    simp only [map_append, map_cons, nodup_append', nodup_cons, mem_map, disjoint_cons_right] at hnodup
    obtain ⟨_, ⟨hafter, _⟩, hbefore, _⟩ := hnodup
    have keep : ∀ l : List (κ × β), (¬ ∃ a ∈ l, a.1 = item.1) → l.filter (fun item => ¬ item.1 = k) = l := by
      intro l hl
      refine filter_eq_self.mpr fun a ha => ?_
      have hne : a.1 ≠ item.1 := fun h => hl ⟨a, ha, h⟩
      simpa [← hkey] using hne
    simp only [drop, heq, filter_append, filter_cons, hkey, ne_eq, not_true, decide_false,
      Bool.false_eq_true, if_false]
    rw [keep before hbefore, keep after hafter]
  unfold values
  rw [hdrop, heq, map_append, map_cons, map_append]
  exact perm_middle

theorem values_setLast (d : OrderedDict κ β) (k : κ) (b : β) :
    (d.setLast k b).values.Perm (b :: (d.drop k).values) := by
  simp only [values, setLast, map_append, map_cons, map_nil]
  exact perm_append_singleton _ _

theorem values_moveToEnd (d : OrderedDict κ β) (k : κ) : (d.moveToEnd k).values.Perm d.values := by
  unfold moveToEnd
  split
  · exact .refl _
  · next b hget => exact (d.values_setLast k b).trans (values_drop hget).symm

theorem get?_drop (d : OrderedDict κ β) (k k' : κ) :
    (d.drop k).get? k' = if k' = k then none else d.get? k' := by
  split
  · next h =>
    rw [get?_eq_none_iff]
    intro item hitem
    have hne := (mem_filter.mp hitem).2
    simpa [h] using hne
  · next h =>
    simp only [get?, drop, find?_filter]
    congr 2
    funext item
    by_cases hk : item.1 = k' <;> simp_all

theorem get?_setLast (d : OrderedDict κ β) (k k' : κ) (b : β) :
    (d.setLast k b).get? k' = if k' = k then some b else d.get? k' := by
  have hdrop := d.get?_drop k k'
  simp only [get?, setLast, find?_append, Option.map_or] at hdrop ⊢
  rw [hdrop]
  split
  · next h => simp [h]
  · next h =>
    have hne : k ≠ k' := Ne.symm h
    simp [hne]

theorem get?_moveToEnd (d : OrderedDict κ β) (k k' : κ) : (d.moveToEnd k).get? k' = d.get? k' := by
  unfold moveToEnd
  split
  · rfl
  · next b hget =>
    rw [get?_setLast]
    split
    · next h => rw [h, hget]
    · rfl

end OrderedDict

end SGLang.Lib
