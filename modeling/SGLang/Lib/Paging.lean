/-
# SGLang.Lib.Paging — slots laid out on pages.

A page `p` of size `ps` is the run of slots `p * ps, …, p * ps + ps - 1`. `expand ps P` lists the slots
of the pages `P` in order, and `Laid ps vs P` says that `vs` occupies the pages `P` from the first
slot on, each page up to the last being full. Cutting `vs` at a page boundary cuts `P`
(`Laid.take`, `Laid.drop`), and the set of pages a list of slots touches is the set of its layout
(`Laid.touched`).
-/
import Mathlib

namespace SGLang.Lib

open Nat List

/-- How many pages `n` slots need. -/
def pageCount (ps n : ℕ) : ℕ := (n + ps - 1) / ps

section PageCount

variable {ps n m k : ℕ}

theorem pageCount_mono (h : n ≤ m) : pageCount ps n ≤ pageCount ps m :=
  Nat.div_le_div_right (by omega)

theorem succ_div_mod (h : (m + 1) % ps ≠ 0) : (m + 1) / ps = m / ps ∧ (m + 1) % ps = m % ps + 1 := by
  have hdiv : (m + 1) / ps = m / ps := by
    rw [Nat.succ_div, if_neg fun hd => h (Nat.mod_eq_zero_of_dvd hd), Nat.add_zero]
  have h₁ := Nat.div_add_mod (m + 1) ps
  have h₂ := Nat.div_add_mod m ps
  rw [hdiv] at h₁
  exact ⟨hdiv, by omega⟩

variable (hps : 0 < ps)

include hps

@[simp] theorem pageCount_zero : pageCount ps 0 = 0 := by
  exact div_eq_of_lt (by omega)

theorem lt_pageCount_iff : k < pageCount ps n ↔ k * ps < n := by
  unfold pageCount
  rw [lt_iff_add_one_le, le_div_iff_mul_le hps, add_mul]
  omega

theorem le_pageCount_mul : n ≤ pageCount ps n * ps :=
  not_lt.mp fun h => lt_irrefl _ ((lt_pageCount_iff hps).mpr h)

theorem pageCount_mul : pageCount ps (k * ps) = k :=
  eq_of_forall_lt_iff fun _ => (lt_pageCount_iff hps).trans (Nat.mul_lt_mul_right hps)

theorem pageCount_of_dvd (h : ps ∣ n) : pageCount ps n = n / ps := by
  obtain ⟨k, rfl⟩ := h
  rw [mul_comm, pageCount_mul hps, Nat.mul_div_cancel _ hps]

theorem pageCount_succ : pageCount ps (n + 1) = n / ps + 1 := by
  rw [pageCount, show n + 1 + ps - 1 = n + ps by omega, Nat.add_div_right n hps]

theorem pageCount_le_div : pageCount ps n ≤ n / ps + 1 :=
  (pageCount_mono n.le_succ).trans (pageCount_succ hps).le

/-- A last page that is not full. -/
theorem pageCount_of_lt (h : n / ps * ps < n) : pageCount ps n = n / ps + 1 :=
  le_antisymm (pageCount_le_div hps) ((lt_pageCount_iff hps).mpr h)

theorem pageCount_add_mul : pageCount ps (n + k * ps) = pageCount ps n + k := by
  unfold pageCount
  rw [show n + k * ps + ps - 1 = n + ps - 1 + k * ps by omega, add_mul_div_right _ _ hps]

theorem div_lt_pageCount (h : m < n) : m / ps < pageCount ps n :=
  (lt_pageCount_iff hps).mpr ((div_mul_le_self m ps).trans_lt h)

end PageCount

/-- The slots of a list of pages. -/
def expand (ps : ℕ) (P : List ℕ) : List ℕ := P.flatMap fun p => (List.range ps).map (p * ps + ·)

section Expand

variable {ps k j : ℕ} {P Q : List ℕ}

@[simp] theorem expand_nil : expand ps [] = [] := rfl

theorem expand_cons (p : ℕ) : expand ps (p :: P) = (range ps).map (p * ps + ·) ++ expand ps P := by
  simp [expand]

@[simp] theorem expand_append : expand ps (P ++ Q) = expand ps P ++ expand ps Q := by
  simp [expand]

@[simp] theorem length_expand : (expand ps P).length = P.length * ps := by
  induction P with
  | nil => simp
  | cons p P ih =>
    rw [expand_cons, length_append, ih, length_map, length_range, length_cons, add_mul]
    omega

/-- Slot `j` of a layout lies on page `j / ps`, at offset `j % ps`. -/
theorem getElem?_expand (hps : 0 < ps) : (expand ps P)[j]? = P[j / ps]?.map fun p => p * ps + j % ps := by
  induction P generalizing j with
  | nil => simp
  | cons p P ih =>
    rw [expand_cons]
    rcases lt_or_ge j ps with h | h
    · rw [getElem?_append_left (by simpa), div_eq_of_lt h, mod_eq_of_lt h]
      simp [h]
    · rw [getElem?_append_right (by simpa), length_map, length_range, ih]
      have hdiv : j / ps = (j - ps) / ps + 1 := by
        rw [← Nat.add_div_right _ hps, Nat.sub_add_cancel h]
      have hmod : j % ps = (j - ps) % ps := by
        rw [← add_mod_right (j - ps) ps, Nat.sub_add_cancel h]
      rw [hdiv, hmod, getElem?_cons_succ]

theorem take_expand : (expand ps P).take (k * ps) = expand ps (P.take k) := by
  induction k generalizing P with
  | zero => simp
  | succ k ih =>
    cases P with
    | nil => simp
    | cons p P =>
      rw [take_succ_cons, expand_cons, expand_cons, ← ih, add_mul, one_mul,
        add_comm, take_append, length_map, length_range,
        Nat.add_sub_cancel_left, take_of_length_le (by simp)]

theorem drop_expand : (expand ps P).drop (k * ps) = expand ps (P.drop k) := by
  induction k generalizing P with
  | zero => simp
  | succ k ih =>
    cases P with
    | nil => simp
    | cons p P =>
      rw [drop_succ_cons, expand_cons, ← ih, add_mul, one_mul, add_comm,
        drop_append, length_map, length_range, Nat.add_sub_cancel_left,
        drop_of_length_le (by simp), nil_append]

end Expand

/-- The slots `vs` occupy the pages `P` in order, from the first slot of the first page on. -/
structure Laid (ps : ℕ) (vs P : List ℕ) : Prop where
  eq : vs = (expand ps P).take vs.length
  count : P.length = pageCount ps vs.length

/-- The pages a layout lies on, read off its first slots. -/
def pagesOf (ps : ℕ) (vs : List ℕ) : List ℕ :=
  (List.range (pageCount ps vs.length)).map fun q => vs.getD (q * ps) 0 / ps

/-- The pages a list of slots touches. -/
def touched (ps : ℕ) (vs : List ℕ) : Finset ℕ := (vs.map (· / ps)).toFinset

section Laid

variable {ps k j : ℕ} {vs vs' P P' : List ℕ}

theorem laid_nil (hps : 0 < ps) : Laid ps [] [] := ⟨rfl, (pageCount_zero hps).symm⟩

theorem laid_expand (hps : 0 < ps) : Laid ps (expand ps P) P :=
  ⟨by rw [take_length], by rw [length_expand, pageCount_mul hps]⟩

section

variable (h : Laid ps vs P) (hps : 0 < ps)
include h hps

theorem Laid.getElem? (hj : j < vs.length) : vs[j]? = P[j / ps]?.map fun p => p * ps + j % ps := by
  rw [h.eq, getElem?_take_of_lt hj, getElem?_expand hps]

omit h hps in
/-- A layout is checked slot by slot. -/
theorem laid_of_getElem? (hps : 0 < ps) (hcount : P.length = pageCount ps vs.length)
    (h : ∀ j < vs.length, vs[j]? = P[j / ps]?.map fun p => p * ps + j % ps) : Laid ps vs P := by
  refine ⟨ext_getElem? fun j => ?_, hcount⟩
  rcases lt_or_ge j vs.length with hj | hj
  · rw [h j hj, getElem?_take_of_lt hj, getElem?_expand hps]
  · rw [getElem?_eq_none hj, getElem?_eq_none]
    rw [length_take]
    omega

theorem Laid.eq_expand (hd : ps ∣ vs.length) : vs = expand ps P := by
  have hlen : vs.length = (expand ps P).length := by
    rw [length_expand, h.count, pageCount_of_dvd hps hd, Nat.div_mul_cancel hd]
  have := h.eq
  rwa [hlen, take_length] at this

theorem Laid.pagesOf_eq : pagesOf ps vs = P := by
  refine ext_getElem (by simp [pagesOf, h.count]) fun q hq hq' => ?_
  have hlt : q * ps < vs.length := (lt_pageCount_iff hps).mp (h.count ▸ hq')
  have hget := h.getElem? hps hlt
  rw [Nat.mul_div_cancel q hps, Nat.mul_mod_left, getElem?_eq_getElem hq', Option.map_some, Nat.add_zero]
    at hget
  simp [pagesOf, getElem_map, getElem_range, getD_eq_getElem?_getD, hget, Option.getD_some,
    Nat.mul_div_cancel _ hps]

omit h hps in
@[simp] theorem pagesOf_nil : pagesOf ps [] = [] := by
  rcases Nat.eq_zero_or_pos ps with rfl | hps
  · rfl
  · exact (laid_nil hps).pagesOf_eq hps

omit h hps in
theorem pagesOf_expand (hps : 0 < ps) : pagesOf ps (expand ps P) = P :=
  (laid_expand hps).pagesOf_eq hps

/-- A prefix occupies the first pages. -/
theorem Laid.take (hj : j ≤ vs.length) : Laid ps (vs.take j) (P.take (pageCount ps j)) := by
  have hlen : (vs.take j).length = j := by rw [length_take, min_eq_left hj]
  refine laid_of_getElem? hps ?_ fun i hi => ?_
  · rw [hlen, length_take, h.count, min_eq_left (pageCount_mono hj)]
  · rw [hlen] at hi
    rw [getElem?_take_of_lt hi, getElem?_take_of_lt (div_lt_pageCount hps hi), h.getElem? hps (hi.trans_le hj)]

/-- What is left after whole pages occupies the other pages. -/
theorem Laid.drop : Laid ps (vs.drop (k * ps)) (P.drop k) := by
  refine laid_of_getElem? hps ?_ fun i hi => ?_
  · rw [length_drop, length_drop, h.count]
    rcases le_or_gt (k * ps) vs.length with hle | hgt
    · have := pageCount_add_mul (n := vs.length - k * ps) (k := k) hps
      rw [Nat.sub_add_cancel hle] at this
      omega
    · have : pageCount ps vs.length ≤ k := by
        rw [← pageCount_mul (k := k) hps]
        exact pageCount_mono hgt.le
      rw [Nat.sub_eq_zero_of_le hgt.le, pageCount_zero hps]
      omega
  · rw [length_drop] at hi
    rw [getElem?_drop, getElem?_drop, h.getElem? hps (by omega), add_comm (k * ps) i,
      add_mul_div_right _ _ hps, add_mul_mod_self_right, add_comm k]

omit h hps in
/-- Layouts are put together at a page boundary. -/
theorem Laid.append (h : Laid ps vs P) (h' : Laid ps vs' P') (hps : 0 < ps) (hd : ps ∣ vs.length) :
    Laid ps (vs ++ vs') (P ++ P') := by
  refine ⟨?_, ?_⟩
  · have hvs := h.eq_expand hps hd
    rw [expand_append, ← hvs, length_append, take_append, Nat.add_sub_cancel_left,
      take_of_length_le (by omega), ← h'.eq]
  · obtain ⟨k, hk⟩ := hd
    rw [length_append, length_append, h.count, h'.count, hk, mul_comm ps k, add_comm,
      add_comm (k * ps), pageCount_add_mul hps, pageCount_mul hps]

/-- **The pages touched are the pages of the layout.** -/
theorem Laid.touched : touched ps vs = P.toFinset := by
  ext p
  simp only [SGLang.Lib.touched, mem_toFinset, mem_map]
  constructor
  · rintro ⟨v, hv, rfl⟩
    obtain ⟨j, hj⟩ := mem_iff_getElem?.mp hv
    have hlt : j < vs.length := (List.getElem?_eq_some_iff.mp hj).1
    rw [h.getElem? hps hlt, Option.map_eq_some_iff] at hj
    obtain ⟨q, hq, rfl⟩ := hj
    rw [add_comm, add_mul_div_right _ _ hps, div_eq_of_lt (mod_lt _ hps), zero_add]
    exact mem_of_getElem? hq
  · intro hp
    obtain ⟨q, hq⟩ := mem_iff_getElem?.mp hp
    have hlt : q < P.length := (List.getElem?_eq_some_iff.mp hq).1
    rw [h.count, lt_pageCount_iff hps] at hlt
    refine ⟨p * ps, ?_, Nat.mul_div_cancel p hps⟩
    refine mem_iff_getElem?.mpr ⟨q * ps, ?_⟩
    rw [h.getElem? hps hlt, Nat.mul_div_cancel q hps, hq, Nat.mul_mod_left]
    simp

end

end Laid

/-! ## Places -/

section Places

variable {ι α : Type*} [DecidableEq ι] {s : Finset ι} {f : ι → Multiset α} {p : α}

/-- Items are spread over places and all together occur once: every item is in one place. -/
theorem existsUnique_mem_of_nodup_sum (h : (∑ i ∈ s, f i).Nodup) (hout : ∀ i ∉ s, f i = 0)
    (hp : p ∈ ∑ i ∈ s, f i) : ∃! i, p ∈ f i := by
  obtain ⟨i, hi, hpi⟩ := Multiset.mem_sum.mp hp
  refine ⟨i, hpi, fun j (hpj : p ∈ f j) => ?_⟩
  by_contra hne
  have hj : j ∈ s.erase i := by
    refine Finset.mem_erase.mpr ⟨hne, ?_⟩
    by_contra hjs
    rw [hout j hjs] at hpj
    exact Multiset.notMem_zero p hpj
  rw [← Finset.add_sum_erase s f hi, Multiset.nodup_add] at h
  exact Multiset.disjoint_left.mp h.2.2 hpi (Multiset.mem_sum.mpr ⟨j, hj, hpj⟩)

end Places

end SGLang.Lib
