/-
# SGLang.Lib.TwinPools — slots of one pool linked to slots of another.

Slots of a first pool are linked to slots of a second one; both pools are cut into pages of `ps` slots. The
second pool is reached through the links alone, so it is in step with them: `Linked` says that links go page
to page, slot to slot within a page, that an unlinked slot has link `0`, and that a page of the second pool
is free exactly when no link leads to it. Links are made slot by slot, at the start of a fresh page
(`Linked.begin`) or behind the last slot of a page (`Linked.next`), and cut by whole pages
(`Linked.cut`).

`Pools` adds the first pool, whose slots are handed out one by one (`Pools.Grow`) and given back by pages
(`Pools.Inv.give`); `Pools.Inv` is kept by both.
-/
import SGLang.Lib.Paging

namespace SGLang.Lib

open Finset Multiset Function

/-- The links of the slots in `live`; `free` are the free pages of the second pool, out of `1 … N`. -/
structure Linked (ps N : ℕ) (free : Multiset ℕ) (link : ℕ → ℕ) (live : Finset ℕ) : Prop where
  nodup : free.Nodup
  range : ∀ q ∈ free, 1 ≤ q ∧ q ≤ N
  zero : ∀ x, x ∉ live → link x = 0
  page : ∀ x ∈ live, 1 ≤ link x / ps ∧ link x / ps ≤ N ∧ link x / ps ∉ free
  offset : ∀ x ∈ live, link x % ps = x % ps
  same : ∀ x ∈ live, ∀ y ∈ live, link x / ps = link y / ps ↔ x / ps = y / ps
  covered : ∀ q, 1 ≤ q → q ≤ N → q ∉ free → ∃ x ∈ live, link x / ps = q

namespace Linked

variable {ps N : ℕ} {free : Multiset ℕ} {link : ℕ → ℕ} {live : Finset ℕ}

section

variable (h : Linked ps N free link live) {x : ℕ}
include h

/-- Links are injective: they keep page and offset apart. -/
theorem injective {y : ℕ} (hx : x ∈ live) (hy : y ∈ live) (heq : link x = link y) : x = y := by
  have hdiv := (h.same x hx y hy).mp (by rw [heq])
  have hmod : x % ps = y % ps := by rw [← h.offset x hx, ← h.offset y hy, heq]
  rw [← Nat.div_add_mod x ps, hdiv, hmod, Nat.div_add_mod]

theorem pos (hx : x ∈ live) : 0 < link x := by
  rcases Nat.eq_zero_or_pos (link x) with h₀ | h₀
  · have := (h.page x hx).1
    rw [h₀, Nat.zero_div] at this
    omega
  · exact h₀

/-- A page is free exactly when no live slot is linked into it. -/
theorem mem_free_iff {q : ℕ} (h₁ : 1 ≤ q) (h₂ : q ≤ N) : q ∈ free ↔ ∀ x ∈ live, link x / ps ≠ q := by
  constructor
  · rintro hq x hx rfl
    exact (h.page x hx).2.2 hq
  · intro hno
    by_contra hq
    obtain ⟨x, hx, heq⟩ := h.covered q h₁ h₂ hq
    exact hno x hx heq

/-- A new slot `z` is linked to a slot at the same offset, of a page that is linked from the page of `z` alone
and is not free afterwards. -/
theorem add {z w : ℕ} {free' : Multiset ℕ} (hz : z ∉ live) (hle : free' ≤ free)
    (hw : 1 ≤ w / ps ∧ w / ps ≤ N ∧ w / ps ∉ free') (hoff : w % ps = z % ps)
    (hsame : ∀ x ∈ live, link x / ps = w / ps ↔ x / ps = z / ps) (htaken : ∀ q ∈ free, q ∉ free' → w / ps = q) :
    Linked ps N free' (update link z w) (insert z live) := by
  have hold : ∀ x ∈ live, update link z w x = link x :=
    fun x hx => update_of_ne (ne_of_mem_of_not_mem hx hz) _ _
  have hself : update link z w z = w := update_self ..
  refine ⟨nodup_of_le hle h.nodup, fun q hq => h.range q (mem_of_le hle hq), fun x hx => ?_,
    (forall_mem_insert _ _ _).mpr ⟨hself.symm ▸ hw, fun x hx => ?_⟩,
    (forall_mem_insert _ _ _).mpr ⟨hself.symm ▸ hoff, fun x hx => by rw [hold x hx, h.offset x hx]⟩, ?_,
      fun q h₁ h₂ hq => ?_⟩
  · rw [mem_insert, not_or] at hx
    rw [update_of_ne hx.1, h.zero x hx.2]
  · rw [hold x hx]
    exact ⟨(h.page x hx).1, (h.page x hx).2.1, fun hm => (h.page x hx).2.2 (mem_of_le hle hm)⟩
  · intro x hx y hy
    rcases mem_insert.mp hx with hx | hx <;> rcases mem_insert.mp hy with hy | hy
    · simp [hx, hy]
    · rw [hx, hself, hold y hy, eq_comm, hsame y hy, eq_comm]
    · rw [hy, hself, hold x hx, hsame x hx]
    · rw [hold x hx, hold y hy, h.same x hx y hy]
  · by_cases hfree : q ∈ free
    · exact ⟨z, mem_insert_self _ _, hself.symm ▸ htaken q hfree hq⟩
    · obtain ⟨x, hx, heq⟩ := h.covered q h₁ h₂ hfree
      exact ⟨x, mem_insert_of_mem hx, by rw [hold x hx, heq]⟩

/-- The first slot of a page that has no live slot is linked to the first slot of a free page. -/
theorem begin (hps : 0 < ps) {p q : ℕ} (hq : q ∈ free) (hp : ∀ x ∈ live, x / ps ≠ p) :
    Linked ps N (free.erase q) (update link (p * ps) (q * ps)) (insert (p * ps) live) := by
  have hdiv : ∀ k, k * ps / ps = k := fun k => Nat.mul_div_cancel k hps
  refine h.add (fun hm => hp _ hm (hdiv p)) (erase_le _ _) ?_ ?_ (fun x hx => ?_) fun k hk hne => ?_
  · rw [hdiv]
    exact ⟨(h.range q hq).1, (h.range q hq).2, h.nodup.notMem_erase⟩
  · rw [Nat.mul_mod_left, Nat.mul_mod_left]
  · rw [hdiv, hdiv]
    exact iff_of_false (fun heq => (h.page x hx).2.2 (heq ▸ hq)) (hp x hx)
  · rw [hdiv]
    exact by_contra fun hkq => hne ((mem_erase_of_ne (Ne.symm hkq)).mpr hk)

/-- The slot behind a live one, on the same page, is linked to the slot behind. -/
theorem next (hx : x ∈ live) (hnew : x + 1 ∉ live) (hpage : (x + 1) % ps ≠ 0) :
    Linked ps N free (update link (x + 1) (link x + 1)) (insert (x + 1) live) := by
  have hlpage : (link x + 1) % ps ≠ 0 := by
    rwa [Nat.add_mod, h.offset x hx, ← Nat.add_mod]
  obtain ⟨hxd, hxm⟩ := succ_div_mod hpage
  obtain ⟨hld, hlm⟩ := succ_div_mod hlpage
  refine h.add hnew le_rfl (hld.symm ▸ h.page x hx) ?_ (fun y hy => ?_) fun q hq hne => absurd hq hne
  · rw [hlm, hxm, h.offset x hx]
  · rw [hld, hxd]
    exact h.same y hy x hx

/-- All live slots of some pages lose their links, and the pages they led to become free. -/
theorem cut {T : Finset ℕ} (hT : ∀ x ∈ T, ∀ y ∈ live, y / ps = x / ps → y ∈ T) :
    Linked ps N (((T ∩ live).image fun x => link x / ps).val + free)
      (fun x => if x ∈ T then 0 else link x) (live \ T) := by
  have hlive : ∀ {x}, x ∈ live \ T → x ∈ live ∧ x ∉ T := fun hx => mem_sdiff.mp hx
  have hcut : ∀ {q}, q ∈ ((T ∩ live).image fun x => link x / ps).val ↔
      ∃ x, (x ∈ T ∧ x ∈ live) ∧ link x / ps = q := by
    intro q
    rw [Finset.mem_val, Finset.mem_image]
    simp
  refine ⟨?_, ?_, ?_, ?_, ?_, ?_, ?_⟩
  · rw [nodup_add]
    refine ⟨Finset.nodup _, h.nodup, disjoint_left.mpr fun {q} hq hfree => ?_⟩
    obtain ⟨x, ⟨-, hx⟩, rfl⟩ := hcut.mp hq
    exact (h.page x hx).2.2 hfree
  · intro q hq
    rcases mem_add.mp hq with hq | hq
    · obtain ⟨x, ⟨-, hx⟩, rfl⟩ := hcut.mp hq
      exact ⟨(h.page x hx).1, (h.page x hx).2.1⟩
    · exact h.range q hq
  · intro x hx
    split
    · rfl
    · next hxT => exact h.zero x fun hl => hx (mem_sdiff.mpr ⟨hl, hxT⟩)
  · intro x hx
    obtain ⟨hx, hxT⟩ := hlive hx
    rw [if_neg hxT]
    refine ⟨(h.page x hx).1, (h.page x hx).2.1, fun hm => ?_⟩
    rcases mem_add.mp hm with hm | hm
    · obtain ⟨y, ⟨hyT, hy⟩, heq⟩ := hcut.mp hm
      exact hxT (hT y hyT x hx ((h.same x hx y hy).mp heq.symm))
    · exact (h.page x hx).2.2 hm
  · intro x hx
    obtain ⟨hx, hxT⟩ := hlive hx
    rw [if_neg hxT, h.offset x hx]
  · intro x hx y hy
    obtain ⟨hx, hxT⟩ := hlive hx
    obtain ⟨hy, hyT⟩ := hlive hy
    rw [if_neg hxT, if_neg hyT]
    exact h.same x hx y hy
  · intro q h₁ h₂ hq
    rw [mem_add, not_or] at hq
    obtain ⟨x, hx, heq⟩ := h.covered q h₁ h₂ hq.2
    have hxT : x ∉ T := fun hxT => hq.1 (hcut.mpr ⟨x, ⟨hxT, hx⟩, heq⟩)
    exact ⟨x, mem_sdiff.mpr ⟨hx, hxT⟩, by rw [if_neg hxT, heq]⟩

end

end Linked

/-! ## Both pools -/

/-- The free pages of the two pools, the links, and the slots of the first pool in use. -/
structure Pools where
  first : Multiset ℕ
  second : Multiset ℕ
  link : ℕ → ℕ
  used : Finset ℕ

/-- No slot of the page of `x` above `x` is in use. -/
def Last (ps : ℕ) (used : Finset ℕ) (x : ℕ) : Prop := x ∈ used ∧ ∀ y ∈ used, y / ps = x / ps → y ≤ x

/-- All slots in use of some pages. -/
def Whole (ps : ℕ) (used T : Finset ℕ) : Prop :=
  T ⊆ used ∧ ∀ x ∈ T, ∀ y ∈ used, y / ps = x / ps → y ∈ T

theorem Whole.union {ps : ℕ} {used T T' : Finset ℕ} (h : Whole ps used T) (h' : Whole ps used T') :
    Whole ps used (T ∪ T') := by
  refine ⟨union_subset h.1 h'.1, fun x hx y hy heq => ?_⟩
  rcases mem_union.mp hx with hx | hx
  · exact mem_union_left _ (h.2 x hx y hy heq)
  · exact mem_union_right _ (h'.2 x hx y hy heq)

namespace Pools

/-- A fresh page of each pool is begun. -/
def begin (ps : ℕ) (P : Pools) (p q : ℕ) : Pools :=
  ⟨P.first.erase p, P.second.erase q, Function.update P.link (p * ps) (q * ps), insert (p * ps) P.used⟩

/-- The page of `x` gets its next slot. -/
def next (P : Pools) (x : ℕ) : Pools :=
  ⟨P.first, P.second, Function.update P.link (x + 1) (P.link x + 1), insert (x + 1) P.used⟩

/-- One more slot, on no page of `held`. -/
inductive Grow (ps : ℕ) (held : Finset ℕ) : Pools → Pools → Prop
  | begin {P : Pools} {p q : ℕ} : p ∈ P.first → q ∈ P.second → Grow ps held P (P.begin ps p q)
  | next {P : Pools} {x : ℕ} : Last ps P.used x → x ∉ held → (x + 1) % ps ≠ 0 → Grow ps held P (P.next x)

/-- The pools are in step. The slots in `closed` have been cut off the second pool, by full pages; those
in `held` are about to be given back. -/
structure Inv (ps N : ℕ) (closed held : Finset ℕ) (P : Pools) : Prop where
  ps_pos : 0 < ps
  linked : Linked ps N P.second P.link (P.used \ closed)
  first_nodup : P.first.Nodup
  first_unused : ∀ x ∈ P.used, x / ps ∉ P.first
  closed_used : closed ⊆ P.used
  closed_full : ∀ x ∈ closed, ∀ y, y / ps = x / ps → y ∈ closed
  held_whole : Whole ps P.used held

variable {ps N : ℕ} {closed held held' T : Finset ℕ} {P P' : Pools}

/-- Nothing is in use. -/
theorem inv_fresh (hps : 0 < ps) (M N : ℕ) :
    Inv ps N ∅ ∅ ⟨(List.range' 1 M : Multiset ℕ), (List.range' 1 N : Multiset ℕ), fun _ => 0, ∅⟩ := by
  refine ⟨hps, ⟨coe_nodup.mpr List.nodup_range', fun q hq => ?_, fun _ _ => rfl, by simp, by simp,
    by simp, fun q h₁ h₂ hq => ?_⟩, coe_nodup.mpr List.nodup_range', by simp, by simp, by simp,
    by simp [Whole]⟩
  · have hq := List.mem_range'_1.mp hq
    omega
  · exact absurd (List.mem_range'_1.mpr ⟨h₁, by omega⟩) hq

section

variable (h : P.Inv ps N closed held)
include h

/-- A new slot keeps the pools in step; it is none of those in use, whose links stay. -/
theorem Grow.inv (hg : Grow ps held P P') :
    P'.Inv ps N closed held ∧ P.used ⊆ P'.used ∧ ∀ x ∈ P.used, P'.link x = P.link x := by
  -- what both kinds of new slot `z` have in common
  have common : ∀ {z first second link}, z ∉ P.used → (∀ x ∈ held, z / ps ≠ x / ps) → first ≤ P.first →
      z / ps ∉ first → Linked ps N second link (insert z (P.used \ closed)) →
      Inv ps N closed held ⟨first, second, link, insert z P.used⟩ := by
    intro z first second link hz hheld hle hfirst hlink
    rw [← insert_sdiff_of_notMem _ fun hc => hz (h.closed_used hc)] at hlink
    refine ⟨h.ps_pos, hlink, nodup_of_le hle h.first_nodup, ?_,
      h.closed_used.trans (subset_insert _ _), h.closed_full,
      h.held_whole.1.trans (subset_insert _ _), ?_⟩
    · intro x hx hm
      rcases mem_insert.mp hx with rfl | hx
      · exact hfirst hm
      · exact h.first_unused x hx (mem_of_le hle hm)
    · intro x hx y hy heq
      rcases mem_insert.mp hy with rfl | hy
      · exact absurd heq (hheld x hx)
      · exact h.held_whole.2 x hx y hy heq
  have stays : ∀ {z v}, z ∉ P.used → ∀ x ∈ P.used, update P.link z v x = P.link x :=
    fun {z} _ hz x hx => update_of_ne (fun heq : x = z => hz (heq ▸ hx)) _ _
  cases hg with
  | @begin p q hp hq =>
    have hfree : ∀ x ∈ P.used, x / ps ≠ p := fun x hx heq => h.first_unused x hx (heq ▸ hp)
    have hdiv : p * ps / ps = p := Nat.mul_div_cancel p h.ps_pos
    have hnew : p * ps ∉ P.used := fun hm => hfree _ hm hdiv
    refine ⟨common hnew (fun x hx heq => ?_) (erase_le _ _) ?_ ?_, subset_insert _ _, stays hnew⟩
    · exact hfree x (h.held_whole.1 hx) (heq.symm.trans hdiv)
    · rw [hdiv]
      exact h.first_nodup.notMem_erase
    · exact h.linked.begin h.ps_pos hq fun x hx => hfree x (mem_sdiff.mp hx).1
  | @next x hlast hheld hpage =>
    have hdiv := (succ_div_mod hpage).1
    have hnew : x + 1 ∉ P.used := fun hm => absurd (hlast.2 _ hm hdiv) (by omega)
    have hopen : x ∉ closed := fun hc => hnew (h.closed_used (h.closed_full x hc _ hdiv))
    refine ⟨common hnew (fun y hy heq => ?_) le_rfl ?_ ?_, subset_insert _ _, stays hnew⟩
    · exact hheld (h.held_whole.2 y hy x hlast.1 (hdiv.symm.trans heq))
    · rw [hdiv]
      exact h.first_unused x hlast.1
    · exact h.linked.next (mem_sdiff.mpr ⟨hlast.1, hopen⟩) (fun hm => hnew (mem_sdiff.mp hm).1) hpage

/-- **New slots, one after the other, keep the pools in step.** -/
theorem grown_inv (hg : Relation.ReflTransGen (Grow ps held) P P') :
    P'.Inv ps N closed held ∧ P.used ⊆ P'.used ∧ ∀ x ∈ P.used, P'.link x = P.link x := by
  induction hg with
  | refl => exact ⟨h, subset_rfl, fun _ _ => rfl⟩
  | tail _ hstep ih =>
    obtain ⟨hinv, hsub, hlink⟩ := ih
    obtain ⟨hinv', hsub', hlink'⟩ := hstep.inv hinv
    exact ⟨hinv', hsub.trans hsub', fun x hx => (hlink' x (hsub hx)).trans (hlink x hx)⟩

omit h in
theorem Grow.mono (hsub : held ⊆ held') (hg : Grow ps held' P P') : Grow ps held P P' := by
  cases hg with
  | begin hp hq => exact .begin hp hq
  | next hlast hheld hpage => exact .next hlast (fun hm => hheld (hsub hm)) hpage

/-- Other slots may be held. -/
theorem Inv.hold (hw : Whole ps P.used held') : P.Inv ps N closed held' :=
  ⟨h.ps_pos, h.linked, h.first_nodup, h.first_unused, h.closed_used, h.closed_full, hw⟩

/-- Pages of the first pool may get lost. -/
theorem Inv.lose {first : Multiset ℕ} (hle : first ≤ P.first) :
    Inv ps N closed held { P with first := first } :=
  ⟨h.ps_pos, h.linked, nodup_of_le hle h.first_nodup,
    fun x hx hm => h.first_unused x hx (mem_of_le hle hm), h.closed_used, h.closed_full,
    h.held_whole⟩

/-- Full pages are cut off the second pool. -/
theorem Inv.close (hT : T ⊆ P.used) (hfull : ∀ x ∈ T, ∀ y, y / ps = x / ps → y ∈ T) :
    Inv ps N (closed ∪ T) held { P with
      second := ((T ∩ (P.used \ closed)).image fun x => P.link x / ps).val + P.second
      link := fun x => if x ∈ T then 0 else P.link x } := by
  have hlink := h.linked.cut (T := T) fun x hx y _ heq => hfull x hx y heq
  rw [sdiff_sdiff_left] at hlink
  refine ⟨h.ps_pos, hlink, h.first_nodup, h.first_unused, union_subset h.closed_used hT, ?_, h.held_whole⟩
  intro x hx y heq
  rcases mem_union.mp hx with hx | hx
  · exact mem_union_left _ (h.closed_full x hx y heq)
  · exact mem_union_right _ (hfull x hx y heq)

/-- All slots in use of some pages are given back to both pools. -/
theorem Inv.give (hT : Whole ps P.used T) : Inv ps N (closed \ T) ∅ ⟨(T.image (· / ps)).val + P.first,
        ((T ∩ (P.used \ closed)).image fun x => P.link x / ps).val + P.second,
        fun x => if x ∈ T then 0 else P.link x, P.used \ T⟩ := by
  have hlink := h.linked.cut (T := T) fun x hx y hy heq =>
    hT.2 x hx y (mem_sdiff.mp hy).1 heq
  have hset : (P.used \ closed) \ T = (P.used \ T) \ (closed \ T) := by
    ext x
    simp only [mem_sdiff]
    tauto
  rw [hset] at hlink
  have himage : ∀ {p}, p ∈ (T.image (· / ps)).val ↔ ∃ x ∈ T, x / ps = p := fun {p} => by
    rw [Finset.mem_val, Finset.mem_image]
  refine ⟨h.ps_pos, hlink, ?_, ?_, sdiff_subset_sdiff h.closed_used subset_rfl, ?_, by simp [Whole]⟩
  · rw [nodup_add]
    refine ⟨Finset.nodup _, h.first_nodup, disjoint_left.mpr fun {p} hp hfree => ?_⟩
    obtain ⟨x, hx, rfl⟩ := himage.mp hp
    exact h.first_unused x (hT.1 hx) hfree
  · intro x hx hm
    obtain ⟨hx, hxT⟩ := mem_sdiff.mp hx
    rcases mem_add.mp hm with hm | hm
    · obtain ⟨y, hy, heq⟩ := himage.mp hm
      exact hxT (hT.2 y hy x hx heq.symm)
    · exact h.first_unused x hx hm
  · intro x hx y heq
    obtain ⟨hx, hxT⟩ := mem_sdiff.mp hx
    have hy := h.closed_full x hx y heq
    exact mem_sdiff.mpr ⟨hy, fun hyT => hxT (hT.2 y hyT x (h.closed_used hx) heq.symm)⟩

end

end Pools

end SGLang.Lib
