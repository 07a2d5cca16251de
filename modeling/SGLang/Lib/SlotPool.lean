/-
# SGLang.Lib.SlotPool — a fixed number of slots, each empty or held by a key.

The slots and an index from keys to slots, kept in agreement (`Valid`). A key is put into an empty slot; a slot
is vacated by naming its key. `Valid.exists_victim` is the counting argument of every replacement scheme: if the
keys that must stay, with one that is not there yet, are at most as many as the slots, then there is an empty
slot or a key that may go.
-/
import Mathlib.Data.Finset.Card
import SGLang.Lib.Dict

namespace SGLang.Lib

open Finset

/-- Slots and the index of the keys that hold one. -/
structure SlotPool (α : Type) where
  slots : List (Option α)
  index : AList fun _ : α => ℕ

namespace SlotPool

variable {α : Type} [DecidableEq α] {s : SlotPool α} {a b : α} {k : ℕ}

/-- The index says exactly who holds which slot. -/
def Valid (s : SlotPool α) : Prop := ∀ a k, s.index.lookup a = some k ↔ s.slots[k]? = some (some a)

/-- The keys that hold a slot. -/
def held (s : SlotPool α) : Finset α := s.index.keys.toFinset

def empty (n : ℕ) : SlotPool α := ⟨List.replicate n none, ∅⟩

/-- The first empty slot. -/
def firstEmpty (s : SlotPool α) : Option ℕ := s.slots.findIdx? Option.isNone

/-- The key takes the slot. -/
def put (s : SlotPool α) (k : ℕ) (a : α) : SlotPool α := ⟨s.slots.set k (some a), s.index.insert a k⟩

/-- The key's slot becomes empty. -/
def vacate (s : SlotPool α) (a : α) (k : ℕ) : SlotPool α := ⟨s.slots.set k none, s.index.erase a⟩

theorem mem_held : a ∈ s.held ↔ a ∈ s.index := by
  unfold held
  rw [List.mem_toFinset, AList.mem_keys]

theorem mem_held_iff_lookup : a ∈ s.held ↔ ∃ k, s.index.lookup a = some k := by
  rw [mem_held, ← AList.lookup_isSome, Option.isSome_iff_exists]

theorem valid_empty (n : ℕ) : (empty n : SlotPool α).Valid := by
  intro a k
  unfold empty
  rw [AList.lookup_empty, List.getElem?_replicate]
  split <;> simp

@[simp] theorem length_put : (s.put k a).slots.length = s.slots.length := List.length_set

@[simp] theorem length_vacate : (s.vacate a k).slots.length = s.slots.length := List.length_set

theorem held_put : (s.put k a).held = insert a s.held := by
  ext b
  rw [mem_insert, mem_held, mem_held, put, AList.mem_insert]

theorem held_vacate : (s.vacate a k).held = s.held.erase a := by
  ext b
  rw [mem_erase, mem_held, mem_held, vacate, AList.mem_erase]

theorem Valid.put (h : s.Valid) (hk : s.slots[k]? = some none) (ha : a ∉ s.held) : (s.put k a).Valid := by
  have hlt : k < s.slots.length := (List.getElem?_eq_some_iff.mp hk).1
  intro b j
  show (s.index.insert a k).lookup b = some j ↔ (s.slots.set k (some a))[j]? = some (some b)
  rw [Dict.lookup_insert_iff, h b j, List.getElem?_set]
  by_cases hj : k = j
  · subst hj
    rw [if_pos rfl, if_pos hlt, hk]
    simp [eq_comm]
  · -- the key was in no slot
    have hnot : s.slots[j]? = some (some b) → b ≠ a := by
      rintro hslot rfl
      exact ha (mem_held_iff_lookup.mpr ⟨j, (h b j).mpr hslot⟩)
    simpa [hj, Ne.symm hj] using hnot

theorem Valid.vacate (h : s.Valid) (ha : s.index.lookup a = some k) : (s.vacate a k).Valid := by
  have hk := (h a k).mp ha
  have hlt : k < s.slots.length := (List.getElem?_eq_some_iff.mp hk).1
  intro b j
  show (s.index.erase a).lookup b = some j ↔ (s.slots.set k none)[j]? = some (some b)
  rw [Dict.lookup_erase_iff, h b j, List.getElem?_set]
  by_cases hj : k = j
  · subst hj
    rw [if_pos rfl, if_pos hlt, hk]
    simp [eq_comm]
  · have hnot : s.slots[j]? = some (some b) → b ≠ a := by
      rintro hslot rfl
      exact hj (Option.some.inj (ha.symm.trans ((h b j).mpr hslot)))
    simpa [hj] using hnot

/-- The slot of a vacated key is empty. -/
theorem vacate_slot (h : s.Valid) (ha : s.index.lookup a = some k) : (s.vacate a k).slots[k]? = some none := by
  have hlt : k < s.slots.length := (List.getElem?_eq_some_iff.mp ((h a k).mp ha)).1
  show (s.slots.set k none)[k]? = some none
  rw [List.getElem?_set_self hlt]

omit [DecidableEq α] in
theorem firstEmpty_spec (h : s.firstEmpty = some k) : s.slots[k]? = some none := by
  obtain ⟨hlt, hnone, _⟩ := List.findIdx?_eq_some_iff_getElem.mp h
  rw [List.getElem?_eq_getElem hlt]
  exact congrArg some (Option.isNone_iff_eq_none.mp hnone)

/-- Without an empty slot there are as many keys as slots. -/
theorem Valid.length_le_card (h : s.Valid) (hfull : s.firstEmpty = none) : s.slots.length ≤ s.held.card := by
  -- the content of a slot is a key, which determines the slot
  have hcontent : ∀ k < s.slots.length, ∃ a, s.slots[k]? = some (some a) := by
    intro k hk
    have hno := List.findIdx?_eq_none_iff.mp hfull s.slots[k] (List.getElem_mem hk)
    rw [List.getElem?_eq_getElem hk]
    cases hs : s.slots[k] with
    | none =>
      rw [hs] at hno
      cases hno
    | some a => exact ⟨a, rfl⟩
  have hmaps : ∀ k ∈ range s.slots.length, s.slots[k]? ∈ s.held.image fun a => some (some a) := by
    intro k hk
    obtain ⟨a, ha⟩ := hcontent k (mem_range.mp hk)
    rw [ha]
    exact mem_image_of_mem _ (mem_held_iff_lookup.mpr ⟨k, (h a k).mpr ha⟩)
  have hinj : ∀ i ∈ range s.slots.length, ∀ j ∈ range s.slots.length, s.slots[i]? = s.slots[j]? → i = j := by
    intro i hi j _ heq
    obtain ⟨a, ha⟩ := hcontent i (mem_range.mp hi)
    have hj := (h a j).mpr (heq ▸ ha)
    rw [(h a i).mpr ha] at hj
    exact Option.some.inj hj
  calc s.slots.length = (range s.slots.length).card := (card_range _).symm
    _ ≤ (s.held.image fun a => some (some a)).card := card_le_card_of_injOn _ hmaps hinj
    _ ≤ s.held.card := card_image_le

/-- There are never more keys than slots. -/
theorem Valid.card_le_length (h : s.Valid) : s.held.card ≤ s.slots.length := by
  have hmaps : ∀ a ∈ s.held, (s.index.lookup a).getD 0 ∈ range s.slots.length := by
    intro a ha
    obtain ⟨k, hk⟩ := mem_held_iff_lookup.mp ha
    rw [hk, mem_range]
    exact (List.getElem?_eq_some_iff.mp ((h a k).mp hk)).1
  have hinj : ∀ a ∈ s.held, ∀ b ∈ s.held, (s.index.lookup a).getD 0 = (s.index.lookup b).getD 0 → a = b := by
    intro a ha b hb heq
    obtain ⟨i, hi⟩ := mem_held_iff_lookup.mp ha
    obtain ⟨j, hj⟩ := mem_held_iff_lookup.mp hb
    rw [hi, hj] at heq
    have hij : i = j := heq
    have hslot := (h a i).mp hi
    rw [hij, (h b j).mp hj] at hslot
    exact (Option.some.inj (Option.some.inj hslot)).symm
  calc s.held.card ≤ (range s.slots.length).card := card_le_card_of_injOn _ hmaps hinj
    _ = s.slots.length := card_range _

/-- If the keys that stay, with a new one, fit into the slots, then there is an empty slot or a key that may
go. -/
theorem Valid.exists_victim (h : s.Valid) (hfull : s.firstEmpty = none) {stay : Finset α}
    (hfit : stay.card ≤ s.slots.length) (ha : a ∈ stay) (hnew : a ∉ s.held) :
    ∃ b ∈ s.held, b ∉ stay := by
  by_contra hall
  push Not at hall
  have hsub : insert a s.held ⊆ stay := insert_subset ha hall
  have hcard := card_le_card hsub
  rw [card_insert_of_notMem hnew] at hcard
  have := h.length_le_card hfull
  omega

end SlotPool

end SGLang.Lib
