/-
# SGLang.Lib.Buckets — an index of a dictionary by an attribute of its values.

The buckets of an index list, per value of the attribute, a view of every entry of the dictionary with that
attribute. An entry is pushed onto the bucket of its attribute when it is stored, and a bucket is filtered
when an entry goes. `Indexes` says that the index is right; storing a new entry and dropping one keep it.
-/
import SGLang.Lib.Dict

namespace SGLang.Lib

variable {ι β κ α : Type} [DecidableEq ι] [DecidableEq κ]

variable (B : AList fun _ : κ => List α)

/-- What is listed under `k`; nothing if there is no bucket. -/
def bucket (k : κ) : List α := (B.lookup k).getD []

/-- The bucket of `k`, made if there is none, gets one more element at its end. -/
def push (k : κ) (a : α) : AList fun _ : κ => List α :=
  B.insert k (bucket B k ++ [a])

/-- The bucket of `k` keeps what satisfies `p`. -/
def retain (k : κ) (p : α → Bool) : AList fun _ : κ => List α :=
  Dict.update B k (List.filter p)

variable {B : AList fun _ : κ => List α} {k k' : κ} {a : α} {p : α → Bool}

theorem bucket_push : bucket (push B k a) k' = if k' = k then bucket B k ++ [a] else bucket B k' := by
  unfold push
  by_cases h : k' = k
  · subst h
    rw [if_pos rfl, bucket, AList.lookup_insert, Option.getD_some]
  · rw [if_neg h, bucket, AList.lookup_insert_ne h, bucket]

theorem bucket_retain : bucket (retain B k p) k' = if k' = k then (bucket B k).filter p else bucket B k' := by
  unfold retain
  by_cases h : k' = k
  · subst h
    rw [if_pos rfl, bucket, bucket, Dict.lookup_update, if_pos rfl]
    cases B.lookup k' <;> rfl
  · rw [if_neg h, bucket, bucket, Dict.lookup_update, if_neg h]

/-- The bucket of `k` lists the views of the entries with attribute `k`, each once. -/
structure Indexes (d : AList fun _ : ι => β) (f : β → κ) (v : ι → β → α)
    (B : AList fun _ : κ => List α) : Prop where
  nodup : ∀ k, (bucket B k).Nodup
  mem : ∀ k a, a ∈ bucket B k ↔ ∃ i b, d.lookup i = some b ∧ f b = k ∧ v i b = a

variable {d : AList fun _ : ι => β} {f : β → κ} {v : ι → β → α} {i : ι} {b : β}

theorem Indexes.empty : Indexes (∅ : AList fun _ : ι => β) f v (∅ : AList fun _ : κ => List α) where
  nodup k := by simp [bucket]
  mem k a := by simp [bucket]

/-- A new entry, whose view no other entry has, is pushed onto its bucket. -/
theorem Indexes.insert (h : Indexes d f v B) (hnone : d.lookup i = none)
    (hview : ∀ j b', d.lookup j = some b' → v j b' ≠ v i b) :
    Indexes (d.insert i b) f v (push B (f b) (v i b)) where
  nodup k := by
    rw [bucket_push]
    split
    · refine List.nodup_append.mpr ⟨h.nodup _, List.nodup_singleton _, ?_⟩
      intro x hx y hy heq
      rcases (h.mem _ _).mp hx with ⟨j, b', hj, -, hv⟩
      rw [List.mem_singleton] at hy
      exact hview j b' hj (hv.trans (heq.trans hy))
    · exact h.nodup k
  mem k x := by
    have hins : (∃ j b', (d.insert i b).lookup j = some b' ∧ f b' = k ∧ v j b' = x) ↔
        (f b = k ∧ v i b = x) ∨ ∃ j b', d.lookup j = some b' ∧ f b' = k ∧ v j b' = x := by
      simp only [Dict.lookup_insert_iff]
      constructor
      · rintro ⟨j, b', ⟨rfl, rfl⟩ | ⟨-, hj⟩, hrest⟩
        · exact .inl hrest
        · exact .inr ⟨j, b', hj, hrest⟩
      · rintro (hrest | ⟨j, b', hj, hrest⟩)
        · exact ⟨i, b, .inl ⟨rfl, rfl⟩, hrest⟩
        · refine ⟨j, b', .inr ⟨?_, hj⟩, hrest⟩
          rintro rfl
          cases hnone.symm.trans hj
    rw [bucket_push, hins, ← h.mem k x]
    split
    · next hk =>
      subst hk
      simp [or_comm, eq_comm]
    · next hk => simp [Ne.symm hk]

/-- An entry is dropped, and its bucket keeps exactly the other entries. -/
theorem Indexes.erase (h : Indexes d f v B) (hb : d.lookup i = some b) (hgone : p (v i b) = false)
    (hkeep : ∀ j b', d.lookup j = some b' → j ≠ i → f b' = f b → p (v j b') = true) :
    Indexes (d.erase i) f v (retain B (f b) p) where
  nodup k := by
    rw [bucket_retain]
    split
    · exact (h.nodup _).filter p
    · exact h.nodup k
  mem k x := by
    simp only [bucket_retain, Dict.lookup_erase_iff]
    split
    · next hk =>
      subst hk
      rw [List.mem_filter, h.mem]
      constructor
      · rintro ⟨⟨j, b', hj, hf, rfl⟩, hp⟩
        refine ⟨j, b', ⟨?_, hj⟩, hf, rfl⟩
        rintro rfl
        cases hb.symm.trans hj
        cases hgone.symm.trans hp
      · rintro ⟨j, b', ⟨hji, hj⟩, hf, rfl⟩
        exact ⟨⟨j, b', hj, hf, rfl⟩, hkeep j b' hj hji hf⟩
    · next hk =>
      rw [h.mem]
      constructor
      · rintro ⟨j, b', hj, hf, hv⟩
        refine ⟨j, b', ⟨?_, hj⟩, hf, hv⟩
        rintro rfl
        cases hb.symm.trans hj
        exact hk hf.symm
      · rintro ⟨j, b', ⟨-, hj⟩, hrest⟩
        exact ⟨j, b', hj, hrest⟩

end SGLang.Lib
