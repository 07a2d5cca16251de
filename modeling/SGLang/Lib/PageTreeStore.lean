/-
# SGLang.Lib.PageTreeStore — the map a page tree stands for.

A page tree whose payloads carry one value per unit of the label stores a partial map from strings
to sequences of values: `Stores f t us vs` says that some path spells out `us` and holds `vs` along
it. On strings of whole pages the map is a function (`Stores.functional`), splits and payload
changes the values cannot see leave it alone, and `addLeaf`/`removeLeaf` change it below one node
only. The second half follows a lookup down the tree: `Present.child` is the one step, and
`IsLongest` what a finished lookup has found.
-/
import SGLang.Lib.PageTreeEach

namespace SGLang.Lib

open List
open LawfulPagedKey (childKey_inj)
open Nat (dvd_sub le_of_dvd)
open Node (core)

namespace PageTree

open PagedKey (units childKey)

variable {κ υ χ π α : Type} [PagedKey κ υ χ] [DecidableEq χ]
variable {ps : ℕ} {t t' : PageTree κ χ π} {n m c p x : ℕ} {l l' r r' : List ℕ}
variable {nd pd xd : Node κ χ π} {key : κ} {data : π} {g : π → π} {f : π → List α}
variable {us us' : List υ} {vs vs' : List α}

/-! ## Values along a path -/

/-- The values held by one node. -/
def held (f : π → List α) (t : PageTree κ χ π) (n : ℕ) : List α :=
  ((t.nodes n).map fun nd => f nd.data).getD []

/-- The values held along a list of nodes. -/
def along (f : π → List α) (t : PageTree κ χ π) (l : List ℕ) : List α := l.flatMap (t.held f)

/-- Every node other than the root holds one value per unit of its label. -/
def Fits (f : π → List α) (t : PageTree κ χ π) : Prop :=
  ∀ n nd, t.nodes n = some nd → n ≠ t.root → (f nd.data).length = (units nd.key).length

section Along

omit [PagedKey κ υ χ] [DecidableEq χ]

theorem held_eq (h : t.nodes n = some nd) : t.held f n = f nd.data := by
  simp [held, h]

@[simp] theorem along_nil : t.along f [] = [] := rfl

@[simp] theorem along_append : t.along f (l ++ l') = t.along f l ++ t.along f l' := by
  simp [along]

@[simp] theorem along_cons : t.along f (c :: l) = t.held f c ++ t.along f l := by
  simp [along]

theorem held_congr (h : (t'.nodes x).map core = (t.nodes x).map core) : t'.held f x = t.held f x := by
  rw [held, held, map_congr_core (fun _ d => f d) h]

theorem along_congr (h : ∀ x ∈ l, (t'.nodes x).map core = (t.nodes x).map core) :
    t'.along f l = t.along f l := by
  simp only [along, flatMap_def]
  congr 1
  exact map_congr_left fun x hx => held_congr (h x hx)

theorem along_modifyData (hg : ∀ d, f (g d) = f d) : (t.modifyData n g).along f l = t.along f l := by
  induction l with
  | nil => rfl
  | cons a l ih =>
    rw [along_cons, along_cons, ih]
    congr 1
    simp only [held, nodes_modifyData]
    cases t.nodes a with
    | none => rfl
    | some d => by_cases ha : a = n <;> simp [ha, hg]

end Along

omit [DecidableEq χ] in
theorem Fits.length_along (hf : t.Fits f) (h : t.Path n l) : (t.along f l).length = (t.labels l).length := by
  induction h with
  | root => rfl
  | snoc hd hne _ ih => simp [ih, held_eq hd, label_eq hd, hf _ _ hd hne]

/-- The labels on a path are whole pages. -/
theorem WF.dvd_labels (wf : WF ps t) (h : t.Path n l) : ps ∣ (t.labels l).length := by
  induction h with
  | root => simp
  | snoc hd hne _ ih =>
    simp only [labels_append, labels_cons, labels_nil, append_nil, length_append, label_eq hd]
    exact Nat.dvd_add ih (wf.key_dvd hd hne)

/-! ## The map -/

/-- Some path spells out `us`. -/
def Present (t : PageTree κ χ π) (us : List υ) : Prop := ∃ n l, t.Path n l ∧ us <+: t.labels l

/-- Some path spells out `us` and holds `vs` at the positions of `us`. -/
def Stores (f : π → List α) (t : PageTree κ χ π) (us : List υ) (vs : List α) : Prop :=
  ∃ n l, t.Path n l ∧ us <+: t.labels l ∧ vs = (t.along f l).take us.length

section

omit [DecidableEq χ]

theorem Present.stores (h : t.Present us) : ∃ vs, t.Stores f us vs := by
  obtain ⟨n, l, hl, hus⟩ := h
  exact ⟨_, n, l, hl, hus, rfl⟩

theorem Stores.present (h : t.Stores f us vs) : t.Present us := by
  obtain ⟨n, l, hl, hus, -⟩ := h
  exact ⟨n, l, hl, hus⟩

theorem Stores.of_prefix (h : t.Stores f us vs) (hp : us' <+: us) : t.Stores f us' (vs.take us'.length) := by
  obtain ⟨n, l, hl, hus, rfl⟩ := h
  refine ⟨n, l, hl, hp.trans hus, ?_⟩
  rw [take_take, min_eq_left hp.length_le]

theorem Stores.length_eq (hf : t.Fits f) (h : t.Stores f us vs) : vs.length = us.length := by
  obtain ⟨n, l, hl, hus, rfl⟩ := h
  rw [length_take, hf.length_along hl, min_eq_left hus.length_le]

end

/-- Two nodes below one parent whose labels start with the same page are one node. -/
theorem WF.next_unique [LawfulPagedKey κ] (wf : WF ps t) (hx : t.Path n (l ++ c :: r))
    (hy : t.Path m (l ++ x :: r')) (hus : us <+: t.labels (c :: r)) (hus' : us <+: t.labels (x :: r'))
    (hlen : ps ≤ us.length) : c = x := by
  obtain ⟨hcr, cd, hcd⟩ := hx.node_of_mem (c := c) (by simp)
  obtain ⟨hxr, xd, hxd⟩ := hy.node_of_mem (c := x) (by simp)
  obtain ⟨l₁, h₁, hp₁⟩ := hx.of_append.parent hcd hcr
  obtain ⟨l₂, h₂, hp₂⟩ := hy.of_append.parent hxd hxr
  obtain rfl := (append_inj' h₁ rfl).1
  obtain rfl := (append_inj' h₂ rfl).1
  refine wf.child_unique hcd hxd hcr hxr (hp₁.end_unique hp₂) ?_
  rw [childKey_inj wf.ps_pos (wf.ps_le hcd hcr) (wf.ps_le hxd hxr)]
  obtain ⟨s, hs⟩ := hus
  obtain ⟨s', hs'⟩ := hus'
  rw [labels_cons, label_eq hcd] at hs
  rw [labels_cons, label_eq hxd] at hs'
  have h := congrArg (take ps) hs
  have h' := congrArg (take ps) hs'
  rw [take_append_of_le_length hlen, take_append_of_le_length (wf.ps_le hcd hcr)] at h
  rw [take_append_of_le_length hlen, take_append_of_le_length (wf.ps_le hxd hxr)] at h'
  exact h.symm.trans h'

/-- Below a common node, two paths that spell out the same whole pages hold the same values. The
induction is on the rest of the first path; the two next nodes coincide because they share a page. -/
theorem WF.along_unique [LawfulPagedKey κ] (wf : WF ps t) (hf : t.Fits f)
    (hn : t.Path n (l ++ r)) (hm : t.Path m (l ++ r')) (hus : us <+: t.labels r)
    (hus' : us <+: t.labels r') (hdvd : ps ∣ us.length) :
    (t.along f r).take us.length = (t.along f r').take us.length := by
  induction r generalizing l us r' with
  | nil =>
    obtain rfl : us = [] := prefix_nil.mp (by simpa using hus)
    simp
  | cons c r ih =>
    rcases Nat.eq_zero_or_pos us.length with h0 | hpos
    · simp [h0]
    have hlen : ps ≤ us.length := le_of_dvd hpos hdvd
    cases r' with
    | nil =>
      obtain rfl : us = [] := prefix_nil.mp (by simpa using hus')
      simp at hpos
    | cons x r' =>
      obtain rfl := wf.next_unique hn hm hus hus' hlen
      obtain ⟨hcr, cd, hcd⟩ := hn.node_of_mem (c := c) (by simp)
      have hfit : (t.held f c).length = (t.label c).length := by
        rw [held_eq hcd, label_eq hcd]
        exact hf c cd hcd hcr
      rw [along_cons, along_cons, take_append, take_append]
      congr 1
      have hr : us.drop (t.label c).length <+: t.labels r := by
        simpa using hus.drop (t.label c).length
      have hr' : us.drop (t.label c).length <+: t.labels r' := by
        simpa using hus'.drop (t.label c).length
      have hdvd' : ps ∣ (us.drop (t.label c).length).length := by
        rw [length_drop, label_eq hcd]
        exact dvd_sub hdvd (wf.key_dvd hcd hcr)
      have := ih (l := l ++ [c]) (by simpa using hn) (by simpa using hm) hr hr' hdvd'
      rwa [length_drop, ← hfit] at this

/-- **The stored map is a function on whole pages.** -/
theorem Stores.functional [LawfulPagedKey κ] (wf : WF ps t) (hf : t.Fits f)
    (h : t.Stores f us vs) (h' : t.Stores f us vs') (hdvd : ps ∣ us.length) : vs = vs' := by
  obtain ⟨n, l, hl, hus, rfl⟩ := h
  obtain ⟨m, l', hl', hus', rfl⟩ := h'
  exact wf.along_unique (l := []) hf hl hl' hus hus' hdvd

/-! ## What the operations do to the map -/

omit [DecidableEq χ] in
theorem stores_modifyData (hg : ∀ d, f (g d) = f d) : (t.modifyData n g).Stores f us vs ↔ t.Stores f us vs := by
  simp only [Stores, path_modifyData, labels_modifyData, along_modifyData hg]

omit [DecidableEq χ] in
theorem fits_modifyData (hg : ∀ d, f (g d) = f d) (hf : t.Fits f) : (t.modifyData n g).Fits f := by
  exact Each.map (P := fun k d => (f d).length = (units k).length) hf fun k d hd =>
    (congrArg length (hg d)).trans hd

section Split

variable {up down : π → π} (wf : WF ps t) (hc : t.nodes c = some nd) (hne : c ≠ t.root)
  (hup : f (up nd.data) = (f nd.data).take m) (hdown : f (down nd.data) = (f nd.data).drop m)

include wf hc hne hup hdown

theorem along_splitAt (hl : t.next ∉ l) :
    (splitAt ps t c m up down).1.along f (insertAbove c t.next l) = t.along f l := by
  refine flatMap_insertAbove hl ?_ fun x hxw hxc => held_congr (core_splitAt wf hc hne hxw hxc)
  rw [held_eq (nodes_splitAt_upper wf hc hne), held_eq (nodes_splitAt_lower wf hc hne),
    hup, hdown, take_append_drop, held_eq hc]

theorem along_splitAt_upper (h : t.Path c (l ++ [c])) :
    (splitAt ps t c m up down).1.along f (l ++ [t.next]) = t.along f l ++ (f nd.data).take m := by
  have hal : (splitAt ps t c m up down).1.along f _ = _ :=
    along_splitAt wf hc hne hup hdown (wf.next_notMem_left h)
  rw [insertAbove_of_notMem h.end_notMem] at hal
  rw [along_append, along_cons, along_nil, append_nil, hal, held_eq (nodes_splitAt_upper wf hc hne), hup]

theorem fits_splitAt [LawfulPagedKey κ] (hf : t.Fits f) : (splitAt ps t c m up down).1.Fits f := by
  refine Each.split (P := fun k d => (f d).length = (units k).length) hf wf hc hne
    (fun hlen => ?_) (fun hlen => ?_)
  · simp [hup, units_take, hlen]
  · simp [hdown, units_drop, hlen]

theorem stores_splitAt [LawfulPagedKey κ] (hf : t.Fits f) (hm : m ≤ (units nd.key).length) :
    (splitAt ps t c m up down).1.Stores f us vs ↔ t.Stores f us vs := by
  constructor
  · rintro ⟨n, l', hl', hus, rfl⟩
    rcases eq_or_ne n t.next with rfl | hnw
    · -- the fresh node spells out a prefix of what the split node spells out
      obtain ⟨l, hl⟩ := wf.path hc
      obtain ⟨l₀, rfl, hp⟩ := hl.parent hc hne
      obtain rfl := hl'.functional (path_splitAt_upper wf hc hne hl)
      rw [labels_splitAt_upper wf hc hne hl, ← label_eq hc] at hus
      refine ⟨c, l₀ ++ [c], hl, ?_, ?_⟩
      · simp only [labels_append, labels_cons, labels_nil, append_nil]
        exact hus.trans ((prefix_append_right_inj _).mpr (List.take_prefix _ _))
      · have hlen := hus.length_le
        rw [along_splitAt_upper wf hc hne hup hdown hl, along_append, along_cons, along_nil,
          append_nil, held_eq hc]
        rw [take_append, take_append, take_take]
        congr 2
        rw [length_append, length_take, label_eq hc] at hlen
        have hla := hf.length_along hp
        omega
    · obtain ⟨l, hl, rfl⟩ := path_of_splitAt wf hc hne hnw hl'
      rw [labels_splitAt wf hc hne (wf.next_notMem hl)] at hus
      exact ⟨n, l, hl, hus, by rw [along_splitAt wf hc hne hup hdown (wf.next_notMem hl)]⟩
  · rintro ⟨n, l, hl, hus, rfl⟩
    refine ⟨n, _, path_splitAt wf hc hne hl, ?_, ?_⟩
    · rwa [labels_splitAt wf hc hne (wf.next_notMem hl)]
    · rw [along_splitAt wf hc hne hup hdown (wf.next_notMem hl)]

end Split

section AddLeaf

variable (wf : WF ps t) (hp : t.nodes p = some pd)

include wf hp

theorem fits_addLeaf (hf : t.Fits f) (hdata : (f data).length = (units key).length) :
    (addLeaf ps t p key data).1.Fits f := by
  exact Each.add (P := fun k d => (f d).length = (units k).length) hf wf hp hdata

/-- Hanging a leaf adds what its path spells out and nothing else. -/
theorem stores_addLeaf (hl : t.Path p l) : (addLeaf ps t p key data).1.Stores f us vs ↔
    t.Stores f us vs ∨ (us <+: t.labels l ++ units key ∧ vs = (t.along f l ++ f data).take us.length) := by
  have hal : ∀ {n l}, t.Path n l → (addLeaf ps t p key data).1.along f l = t.along f l := fun h =>
    along_congr fun x hx => core_addLeaf wf hp (wf.path_lt h hx).ne
  have hnew : (addLeaf ps t p key data).1.held f t.next = f data :=
    held_eq (nodes_addLeaf_new wf hp)
  constructor
  · rintro ⟨n, l', hl', hus, rfl⟩
    rcases eq_or_ne n t.next with rfl | hnw
    · obtain rfl := hl'.functional (path_addLeaf_new wf hp hl)
      refine .inr ⟨?_, ?_⟩
      · simpa [labels_addLeaf wf hp (wf.next_notMem hl), label_addLeaf_new wf hp] using hus
      · simp [hal hl, hnew]
    · have hl₁ := path_of_addLeaf wf hp hnw hl'
      rw [labels_addLeaf wf hp (wf.next_notMem hl₁)] at hus
      exact .inl ⟨n, _, hl₁, hus, by rw [hal hl₁]⟩
  · rintro (⟨n, l₁, hl₁, hus, rfl⟩ | ⟨hus, rfl⟩)
    · exact ⟨n, l₁, path_addLeaf wf hp hl₁,
        by rwa [labels_addLeaf wf hp (wf.next_notMem hl₁)], by rw [hal hl₁]⟩
    · refine ⟨t.next, l ++ [t.next], path_addLeaf_new wf hp hl, ?_, ?_⟩
      · simpa [labels_addLeaf wf hp (wf.next_notMem hl), label_addLeaf_new wf hp] using hus
      · simp [hal hl, hnew]

end AddLeaf

section RemoveLeaf

variable (wf : WF ps t) (hc : t.nodes c = some nd) (hne : c ≠ t.root)

include wf hc hne

theorem fits_removeLeaf (hf : t.Fits f) : (removeLeaf ps t c).Fits f :=
  Each.remove (P := fun k d => (f d).length = (units k).length) hf wf hc hne

/-- Removing a leaf only forgets. -/
theorem stores_of_removeLeaf (h : (removeLeaf ps t c).Stores f us vs) : t.Stores f us vs := by
  obtain ⟨n, l, hl, hus, rfl⟩ := h
  have hcl : c ∉ l := by
    intro hmem
    obtain ⟨-, xd, hxd⟩ := hl.node_of_mem hmem
    rw [nodes_removeLeaf_self hc] at hxd
    cases hxd
  rw [labels_removeLeaf wf hc hne hcl] at hus
  refine ⟨n, l, path_of_removeLeaf wf hc hne hl, hus, ?_⟩
  rw [along_congr fun x hx => core_removeLeaf wf hc hne fun he => hcl (he ▸ hx)]

end RemoveLeaf

omit [DecidableEq χ] in
/-- A tree that is only a root stores the empty string and nothing else. -/
theorem stores_single {root : ℕ} (h : (single root key data : PageTree κ χ π).Stores f us vs) : us = [] := by
  obtain ⟨n, l, hl, hus, -⟩ := h
  have hnil : l = [] := by
    rw [eq_nil_iff_forall_not_mem]
    intro x hx
    obtain ⟨hxr, xd, hxd⟩ := hl.node_of_mem hx
    simp only [single, Option.ite_none_right_eq_some] at hxd hxr
    exact hxr hxd.1
  rwa [hnil, labels_nil, prefix_nil] at hus

/-! ## Walking down -/

/-- The longest common prefix of two strings in whole pages. -/
@[mk_iff] structure IsPageMatch (ps : ℕ) (us us' : List υ) (m : ℕ) : Prop where
  dvd : ps ∣ m
  le_left : m ≤ us.length
  le_right : m ≤ us'.length
  take_eq : us.take m = us'.take m
  greatest : ∀ j, ps ∣ j → j ≤ us.length → j ≤ us'.length → us.take j = us'.take j → j ≤ m

theorem isPageMatch_map {υ' : Type} {f : υ → υ'} (hf : Function.Injective f) :
    IsPageMatch ps (us.map f) (us'.map f) m ↔ IsPageMatch ps us us' m := by
  simp only [isPageMatch_iff, length_map, ← map_take, (map_injective_iff.mpr hf).eq_iff]

theorem le_floor_of_dvd {j : ℕ} (hd : ps ∣ j) (h : j ≤ n) : j ≤ n / ps * ps := by
  calc j = j / ps * ps := (Nat.div_mul_cancel hd).symm
    _ ≤ n / ps * ps := Nat.mul_le_mul_right ps (Nat.div_le_div_right h)

/-- The longest common prefix, rounded down to pages. -/
theorem IsPageMatch.floor (hn : n ≤ us.length) (hn' : n ≤ us'.length)
    (h : ∀ j, 0 < j → ps ∣ j → j ≤ us.length → j ≤ us'.length → (j ≤ n ↔ us.take j = us'.take j)) :
    IsPageMatch ps us us' (n / ps * ps) := by
  have hle := Nat.div_mul_le_self n ps
  refine ⟨Nat.dvd_mul_left _ _, hle.trans hn, hle.trans hn', ?_, ?_⟩
  · rcases (n / ps * ps).eq_zero_or_pos with h0 | h0
    · simp [h0]
    · exact (h _ h0 (Nat.dvd_mul_left _ _) (hle.trans hn) (hle.trans hn')).mp hle
  · intro j hd hl hl' heq
    rcases j.eq_zero_or_pos with rfl | h0
    · exact Nat.zero_le _
    · exact le_floor_of_dvd hd ((h j h0 hd hl hl').mpr heq)

/-- The longest stored prefix of a string in whole pages. -/
structure IsLongest (ps : ℕ) (t : PageTree κ χ π) (us : List υ) (L : ℕ) : Prop where
  dvd : ps ∣ L
  le : L ≤ us.length
  present : t.Present (us.take L)
  greatest : ∀ j, ps ∣ j → j ≤ us.length → t.Present (us.take j) → j ≤ L

/-- One step down: whatever extends a node by a page or more goes through a child with that page. -/
theorem Present.child [LawfulPagedKey κ] (wf : WF ps t) (hl : t.Path n l)
    (h : t.Present (t.labels l ++ us)) (hlen : ps ≤ us.length) (hk : us <+: units key) :
    ∃ c cd m r, t.child n (childKey ps key) = some c ∧ t.nodes c = some cd ∧
      c ≠ t.root ∧ t.Path m (l ++ c :: r) ∧ us <+: t.label c ++ t.labels r := by
  obtain ⟨m, l', hl', hus⟩ := h
  obtain ⟨r, rfl⟩ := wf.ids_prefix hl hl' ((prefix_append _ _).trans hus)
  rw [labels_append, prefix_append_right_inj] at hus
  cases r with
  | nil =>
    have hzero := hus.length_le
    have hpos := wf.ps_pos
    rw [labels_nil, length_nil] at hzero
    omega
  | cons c r =>
    rw [labels_cons] at hus
    obtain ⟨hcr, cd, hcd⟩ := hl'.node_of_mem (c := c) (by simp)
    obtain ⟨l₀, heq, hp⟩ := hl'.of_append.parent hcd hcr
    obtain rfl := (append_inj' heq rfl).1
    obtain ⟨pd, hpd⟩ := wf.node_of_path hl
    refine ⟨c, cd, m, r, ?_, hcd, hcr, hl', hus⟩
    rw [wf.child_eq_some hpd]
    refine ⟨cd, hcd, hcr, hp.end_unique hl, ?_⟩
    rw [childKey_inj wf.ps_pos (wf.ps_le hcd hcr) (hlen.trans hk.length_le)]
    obtain ⟨s, hs⟩ := hus
    obtain ⟨s', hs'⟩ := hk
    rw [label_eq hcd] at hs
    have h₁ := congrArg (take ps) hs
    have h₂ := congrArg (take ps) hs'
    rw [take_append_of_le_length hlen, take_append_of_le_length (wf.ps_le hcd hcr)] at h₁
    rw [take_append_of_le_length hlen] at h₂
    exact h₁.symm.trans h₂

/-- The lookup stops at a node that has no child for the next page. -/
theorem IsLongest.of_child_none [LawfulPagedKey κ] (wf : WF ps t) (hl : t.Path n l)
    (h : units key ≠ [] → t.child n (childKey ps key) = none) :
    IsLongest ps t (t.labels l ++ units key) (t.labels l).length where
  dvd := wf.dvd_labels hl
  le := by simp
  present := ⟨n, l, hl, by simp⟩
  greatest j hj hle hpres := by
    by_contra hlt
    rw [not_le] at hlt
    rw [take_append, take_of_length_le hlt.le] at hpres
    have hpos : 0 < j - (t.labels l).length := by omega
    have hps : ps ≤ j - (t.labels l).length :=
      le_of_dvd hpos (dvd_sub hj (wf.dvd_labels hl))
    rw [length_append] at hle
    have hlen : ps ≤ ((units key).take (j - (t.labels l).length)).length := by
      rw [length_take]
      omega
    obtain ⟨c, -, -, -, hc, -⟩ := hpres.child wf hl hlen (List.take_prefix _ _)
    rw [h (by rintro he; rw [he] at hlen; simp at hlen; have := wf.ps_pos; omega)] at hc
    cases hc

/-- The lookup stops inside the label of a child that shares some but not all of its pages. -/
theorem IsLongest.of_partial [LawfulPagedKey κ] (wf : WF ps t) (hl : t.Path n l)
    (hc : t.child n (childKey ps key) = some c)
    (hm : IsPageMatch ps (t.label c) (units key) m) (hlt : m < (t.label c).length) :
    IsLongest ps t (t.labels l ++ units key) ((t.labels l).length + m) := by
  obtain ⟨pd, hpd⟩ := wf.node_of_path hl
  obtain ⟨cd, hcd, hcr, rfl, -⟩ := (wf.child_eq_some hpd).mp hc
  have hlc : t.Path c (l ++ [c]) := .snoc hcd hcr hl
  refine ⟨Nat.dvd_add (wf.dvd_labels hl) hm.dvd, ?_, ?_, ?_⟩
  · rw [length_append]
    have := hm.le_right
    omega
  · refine ⟨c, l ++ [c], hlc, ?_⟩
    rw [take_append, take_of_length_le (by omega), Nat.add_sub_cancel_left, ← hm.take_eq,
      labels_append, labels_cons, labels_nil, append_nil, prefix_append_right_inj]
    exact take_prefix _ _
  · intro j hj hle hpres
    by_contra hgt
    rw [not_le] at hgt
    rw [take_append, take_of_length_le (by omega)] at hpres
    rw [length_append] at hle
    have hjd : ps ∣ j - (t.labels l).length := dvd_sub hj (wf.dvd_labels hl)
    have hps : ps ≤ j - (t.labels l).length := le_of_dvd (by omega) hjd
    have hlen : ((units key).take (j - (t.labels l).length)).length = j - (t.labels l).length := by
      rw [length_take]
      omega
    obtain ⟨x, xd, -, r, hx, hxd, -, -, hus⟩ :=
      hpres.child wf hl (by rw [hlen]; exact hps) (List.take_prefix _ _)
    obtain rfl : c = x := Option.some.inj (hc.symm.trans hx)
    -- one page past the match both strings would still agree
    have hbound := hm.greatest (m + ps) (Nat.dvd_add hm.dvd dvd_rfl)
    have hstep : m + ps ≤ (t.label c).length := by
      have hd : ps ∣ (t.label c).length - m := by
        rw [label_eq hcd]
        exact dvd_sub (wf.key_dvd hcd hcr) hm.dvd
      have := le_of_dvd (by omega) hd
      omega
    have hstep' : m + ps ≤ j - (t.labels l).length := by
      have hd : ps ∣ j - (t.labels l).length - m := dvd_sub hjd hm.dvd
      have := le_of_dvd (by omega) hd
      omega
    have heq : (t.label c).take (m + ps) = (units key).take (m + ps) := by
      obtain ⟨s, hs⟩ := hus
      have := congrArg (take (m + ps)) hs
      rw [take_append_of_le_length (by rw [hlen]; exact hstep'), take_take,
        min_eq_left hstep', take_append_of_le_length hstep] at this
      exact this.symm
    have := hbound hstep (by omega) heq
    have := wf.ps_pos
    omega

/-- Behind the longest stored prefix no child has the next page. -/
theorem IsLongest.child_none [LawfulPagedKey κ] (wf : WF ps t) (hl : t.Path n l)
    (hlen : ps ≤ (units key).length) (h : IsLongest ps t (t.labels l ++ units key) (t.labels l).length) :
    t.child n (childKey ps key) = none := by
  by_contra hne
  obtain ⟨c, hc⟩ := Option.ne_none_iff_exists'.mp hne
  obtain ⟨pd, hpd⟩ := wf.node_of_path hl
  obtain ⟨cd, hcd, hcr, rfl, hck⟩ := (wf.child_eq_some hpd).mp hc
  have hpage := (childKey_inj wf.ps_pos (wf.ps_le hcd hcr) hlen).mp hck
  have hpres : t.Present ((t.labels l ++ units key).take ((t.labels l).length + ps)) := by
    refine ⟨c, l ++ [c], .snoc hcd hcr hl, ?_⟩
    rw [take_append, take_of_length_le (by omega), Nat.add_sub_cancel_left, ← hpage,
      labels_append, labels_cons, labels_nil, append_nil, label_eq hcd, prefix_append_right_inj]
    exact take_prefix _ _
  have hbound := h.greatest _ (Nat.dvd_add (wf.dvd_labels hl) dvd_rfl) (by rw [length_append]; omega) hpres
  have := wf.ps_pos
  omega

end PageTree

end SGLang.Lib
