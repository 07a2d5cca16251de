/-
# SGLang.Lib.PageTreeLocks — locks on paths, and the steps that only rearrange a tree.

A lock taken on a node protects the whole path up to the root. `holds t locks x` counts the
outstanding locks that protect `x`, as they stand in the current shape of the tree: a lock taken on
a node before it was split protects both halves afterwards. The lemmas say what each operation does
to these counts.

`Quiet` is the reflexive-transitive closure of the two steps a lookup may do: payload updates
nobody counts, and splits. `Quiet.invariant` is the invariant rule for it.
-/
import SGLang.Lib.PageTreeStore

namespace SGLang.Lib

open List

namespace PageTree

variable {κ υ χ π α : Type} [PagedKey κ υ χ] [DecidableEq χ]
variable {ps : ℕ} {t t' : PageTree κ χ π} {n m c p x y : ℕ} {l l' r : List ℕ} {locks : List ℕ}
variable {nd pd xd : Node κ χ π} {key : κ} {data : π} {g : π → π} {f : π → List α}

/-! ## Protected nodes -/

/-- Whether a lock on `n` protects `x`: `x` is `n` or above it. -/
def protects (t : PageTree κ χ π) (n x : ℕ) : Bool := x ∈ (t.up n).getD []

/-- How many of the outstanding locks protect `x`. -/
def holds (t : PageTree κ χ π) (locks : List ℕ) (x : ℕ) : ℕ := locks.countP fun n => t.protects n x

section

omit [PagedKey κ υ χ] [DecidableEq χ]

theorem holds_cons : t.holds (n :: locks) x = t.holds locks x + if t.protects n x then 1 else 0 := by
  simp [holds, countP_cons]

theorem holds_erase (h : n ∈ locks) :
    t.holds (locks.erase n) x + (if t.protects n x then 1 else 0) = t.holds locks x := by
  rw [← holds_cons]
  exact (perm_cons_erase h).symm.countP_eq _

/-- The parent of a node on a path is on the path, or the root. -/
theorem Path.parent_mem (h : t.Path n l) (hx : x ∈ l) (hxd : t.nodes x = some xd)
    (hne : xd.parent ≠ t.root) : xd.parent ∈ l := by
  obtain ⟨l₁, l₂, rfl⟩ := append_of_mem hx
  obtain ⟨hxr, -⟩ := h.node_of_mem hx
  obtain ⟨l₀, heq, hp⟩ := h.of_append.parent hxd hxr
  obtain rfl := (append_inj' heq rfl).1
  exact mem_append_left _ (hp.mem_self hne)

theorem holds_congr (h : ∀ n ∈ locks, t'.protects n y = t.protects n x) : t'.holds locks y = t.holds locks x :=
  countP_congr fun n hn => by rw [h n hn]

@[simp] theorem protects_modifyData : (t.modifyData m g).protects n x = t.protects n x := by
  simp [protects]

@[simp] theorem holds_modifyData : (t.modifyData m g).holds locks x = t.holds locks x := by
  simp [holds]

end

section

variable (wf : WF ps t)

include wf

theorem WF.protects_iff : t.protects n x = true ↔ ∃ l, t.Path n l ∧ x ∈ l := by
  simp only [protects, decide_eq_true_eq]
  constructor
  · intro h
    cases hu : t.up n with
    | none => simp [hu] at h
    | some r =>
      rw [hu, Option.getD_some] at h
      exact ⟨_, path_of_upAux hu, by simpa using h⟩
  · rintro ⟨l, hl, hx⟩
    rw [wf.up_eq hl]
    simpa using hx

theorem WF.protects_path (hl : t.Path n l) : t.protects n x = true ↔ x ∈ l := by
  rw [wf.protects_iff]
  exact ⟨fun ⟨l', hl', hx⟩ => hl.functional hl' ▸ hx, fun hx => ⟨l, hl, hx⟩⟩

theorem WF.protects_self (hn : t.nodes n = some nd) (hne : n ≠ t.root) : t.protects n n = true := by
  obtain ⟨l, hl⟩ := wf.path hn
  exact wf.protects_iff.mpr ⟨l, hl, hl.mem_self hne⟩

/-- What is protected is a node of the tree. -/
theorem WF.node_of_protects (h : t.protects n x = true) : ∃ xd, t.nodes x = some xd := by
  obtain ⟨l, hl, hx⟩ := wf.protects_iff.mp h
  exact (hl.node_of_mem hx).2

/-- A parent is protected by whatever protects its child. -/
theorem WF.protects_parent (hx : t.nodes x = some xd) (hne : xd.parent ≠ t.root)
    (h : t.protects n x = true) : t.protects n xd.parent = true := by
  obtain ⟨l, hl, hmem⟩ := wf.protects_iff.mp h
  exact wf.protects_iff.mpr ⟨l, hl, hl.parent_mem hmem hx hne⟩

theorem WF.holds_parent_le (hx : t.nodes x = some xd) (hne : xd.parent ≠ t.root) :
    t.holds locks x ≤ t.holds locks xd.parent :=
  countP_mono_left fun _ _ => wf.protects_parent hx hne

theorem WF.holds_pos_of_mem (hn : t.nodes n = some nd) (hne : n ≠ t.root)
    (h : n ∈ locks) : 0 < t.holds locks n :=
  countP_pos_iff.mpr ⟨n, h, wf.protects_self hn hne⟩

end

/-! ## Protection under the structural operations -/

section Split

variable {up down : π → π} (wf : WF ps t) (hc : t.nodes c = some nd) (hne : c ≠ t.root)
  (wf' : WF ps (splitAt ps t c m up down).1)

include wf hc hne wf'

/-- The fresh half is protected by exactly what protects the node that was split. -/
theorem protects_splitAt (hn : n ≠ t.next) : (splitAt ps t c m up down).1.protects n x = true ↔
    t.protects n x = true ∨ x = t.next ∧ t.protects n c = true := by
  simp only [wf'.protects_iff, wf.protects_iff]
  constructor
  · rintro ⟨l', hl', hxl'⟩
    obtain ⟨l, hl, rfl⟩ := path_of_splitAt wf hc hne hn hl'
    exact (mem_insertAbove.mp hxl').imp (fun h => ⟨l, hl, h⟩) fun h => ⟨h.1, l, hl, h.2⟩
  · rintro (⟨l, hl, hxl⟩ | ⟨hx, l, hl, hcl⟩)
    · exact ⟨_, path_splitAt wf hc hne hl, mem_insertAbove.mpr (.inl hxl)⟩
    · exact ⟨_, path_splitAt wf hc hne hl, mem_insertAbove.mpr (.inr ⟨hx, hcl⟩)⟩

theorem holds_splitAt (hlocks : ∀ n ∈ locks, n < t.next) (hx : x ≠ t.next) :
    (splitAt ps t c m up down).1.holds locks x = t.holds locks x :=
  holds_congr fun n hn => by
    rw [Bool.eq_iff_iff, protects_splitAt wf hc hne wf' (hlocks n hn).ne]
    simp [hx]

theorem holds_splitAt_upper (hlocks : ∀ n ∈ locks, n < t.next) :
    (splitAt ps t c m up down).1.holds locks t.next = t.holds locks c :=
  holds_congr fun n hn => by
    rw [Bool.eq_iff_iff, protects_splitAt wf hc hne wf' (hlocks n hn).ne]
    refine ⟨fun h => h.elim (fun h => ?_) And.right, fun h => .inr ⟨rfl, h⟩⟩
    obtain ⟨xd, hxd⟩ := wf.node_of_protects h
    cases wf.nodes_next.symm.trans hxd

end Split

section AddLeaf

variable (wf : WF ps t) (hp : t.nodes p = some pd) (wf' : WF ps (addLeaf ps t p key data).1)

include wf hp wf'

theorem protects_addLeaf (hn : n ≠ t.next) : (addLeaf ps t p key data).1.protects n x = t.protects n x := by
  rw [Bool.eq_iff_iff, wf'.protects_iff, wf.protects_iff]
  constructor
  · rintro ⟨l, hl, hxl⟩
    exact ⟨l, path_of_addLeaf wf hp hn hl, hxl⟩
  · rintro ⟨l, hl, hxl⟩
    exact ⟨l, path_addLeaf wf hp hl, hxl⟩

theorem holds_addLeaf (hlocks : ∀ n ∈ locks, n < t.next) :
    (addLeaf ps t p key data).1.holds locks x = t.holds locks x :=
  holds_congr fun n hn => protects_addLeaf wf hp wf' (hlocks n hn).ne

/-- Nobody protects a fresh node. -/
theorem holds_addLeaf_new (hlocks : ∀ n ∈ locks, n < t.next) :
    (addLeaf ps t p key data).1.holds locks t.next = 0 := by
  rw [holds_addLeaf wf hp wf' hlocks, holds, countP_eq_zero]
  intro n _ h
  obtain ⟨xd, hxd⟩ := wf.node_of_protects h
  rw [wf.nodes_next] at hxd
  cases hxd

end AddLeaf

section RemoveLeaf

variable (wf : WF ps t) (hc : t.nodes c = some nd) (hne : c ≠ t.root)
  (wf' : WF ps (removeLeaf ps t c))

include wf hc hne wf'

theorem protects_removeLeaf (hleaf : t.Leaf c) (hn : n ≠ c) :
    (removeLeaf ps t c).protects n x = t.protects n x := by
  rw [Bool.eq_iff_iff, wf'.protects_iff, wf.protects_iff]
  constructor
  · rintro ⟨l, hl, hxl⟩
    exact ⟨l, path_of_removeLeaf wf hc hne hl, hxl⟩
  · rintro ⟨l, hl, hxl⟩
    exact ⟨l, path_removeLeaf wf hc hne (hleaf.notMem hl hn) hl, hxl⟩

/-- Removing an unprotected leaf changes no count. -/
theorem holds_removeLeaf (hleaf : t.Leaf c) (hfree : t.holds locks c = 0) :
    (removeLeaf ps t c).holds locks x = t.holds locks x := by
  refine holds_congr fun n hn => protects_removeLeaf wf hc hne wf' hleaf ?_
  rintro rfl
  exact (wf.holds_pos_of_mem hc hne hn).ne' hfree

end RemoveLeaf

/-! ## Leaves -/

/-- A property that passes from parents to children holds of some leaf, if it holds at all: paths are not
longer than there are nodes. -/
theorem WF.exists_leaf {P : ℕ → Prop} (wf : WF ps t)
    (hdown : ∀ x xd, t.nodes x = some xd → x ≠ t.root → P xd.parent → P x) (hl : t.Path n l)
    (hP : P n) : ∃ m, P m ∧ t.Leaf m := by
  obtain ⟨k, hk⟩ : ∃ k, t.next ≤ l.length + k := ⟨t.next, Nat.le_add_left _ _⟩
  induction k generalizing n l with
  | zero =>
    refine ⟨n, hP, fun x xd hx hxr hparent => ?_⟩
    have := wf.path_length (.snoc hx hxr (hparent ▸ hl))
    rw [length_append, length_singleton] at this
    omega
  | succ k ih =>
    by_cases hleaf : t.Leaf n
    · exact ⟨n, hP, hleaf⟩
    · obtain ⟨x, xd, hx, hxr, rfl⟩ : ∃ x xd, t.nodes x = some xd ∧ x ≠ t.root ∧ xd.parent = n := by
        simpa [Leaf] using hleaf
      exact ih (.snoc hx hxr hl) (hdown x xd hx hxr hP) (by rw [length_append, length_singleton]; omega)

omit [PagedKey κ υ χ] [DecidableEq χ] in
theorem leaf_modifyData : (t.modifyData m g).Leaf c ↔ t.Leaf c := by
  constructor
  · intro h x xd hxd hxr hpar
    exact h x _ (nodes_modifyData_of_some hxd) hxr hpar
  · intro h x xd hxd hxr
    obtain ⟨xd₀, h₀, rfl⟩ := nodes_modifyData_some hxd
    exact h x xd₀ h₀ hxr

theorem leaf_splitAt (up down : π → π) (wf : WF ps t) (hc : t.nodes c = some nd)
    (hne : c ≠ t.root) (hx : x ≠ t.next) :
    (splitAt ps t c m up down).1.Leaf x ↔ t.Leaf x := by
  constructor
  · intro h y yd hyd hyr hpar
    rcases eq_or_ne y c with rfl | hyc
    · -- the old parent of the split node is now the parent of the fresh one
      rw [hc] at hyd
      cases hyd
      exact h t.next _ (nodes_splitAt_upper wf hc hne) (by rw [splitAt_root]; exact wf.root_lt.ne') hpar
    · obtain ⟨yd', hyd', heq⟩ : ∃ yd', (splitAt ps t c m up down).1.nodes y = some yd' ∧ _ :=
        core_some (core_splitAt wf hc hne (wf.lt_next hyd).ne hyc).symm hyd
      have hpar' : yd'.parent = yd.parent := congrArg Prod.fst heq
      exact h y yd' hyd' (by rwa [splitAt_root]) (hpar'.trans hpar)
  · intro h y yd hyd hyr hpar
    rw [splitAt_root] at hyr
    rcases nodes_splitAt_cases wf hc hne hyd with ⟨rfl, rfl⟩ | ⟨rfl, rfl⟩ | ⟨-, -, yd₀, h₀, hcore⟩
    · exact h c nd hc hne hpar
    · exact hx hpar.symm
    · exact h y yd₀ h₀ hyr ((congrArg Prod.fst hcore).trans hpar)

theorem not_leaf_splitAt_upper (up down : π → π) (wf : WF ps t) (hc : t.nodes c = some nd)
    (hne : c ≠ t.root) : ¬ (splitAt ps t c m up down).1.Leaf t.next := fun h =>
  h c _ (nodes_splitAt_lower wf hc hne) (by rwa [splitAt_root]) rfl

theorem leaf_addLeaf (wf : WF ps t) (hp : t.nodes p = some pd) :
    (addLeaf ps t p key data).1.Leaf x ↔ x ≠ p ∧ t.Leaf x := by
  constructor
  · intro h
    refine ⟨?_, ?_⟩
    · rintro rfl
      exact h t.next _ (nodes_addLeaf_new wf hp) wf.root_lt.ne' rfl
    · intro y yd hyd hyr hpar
      obtain ⟨yd', hyd', heq⟩ :=
        core_some (core_addLeaf wf hp (wf.lt_next hyd).ne).symm hyd
      exact h y yd' hyd' hyr ((congrArg Prod.fst heq).trans hpar)
  · rintro ⟨hxp, h⟩ y yd hyd hyr hpar
    rcases nodes_addLeaf_cases wf hp hyd with ⟨rfl, rfl⟩ | ⟨-, yd₀, h₀, hcore⟩
    · exact hxp hpar.symm
    · exact h y yd₀ h₀ hyr ((congrArg Prod.fst hcore).trans hpar)

theorem leaf_removeLeaf (wf : WF ps t) (hc : t.nodes c = some nd) (hne : c ≠ t.root)
    (hx : x ≠ nd.parent) : (removeLeaf ps t c).Leaf x ↔ t.Leaf x := by
  constructor
  · intro h y yd hyd hyr hpar
    rcases eq_or_ne y c with rfl | hyc
    · rw [hc] at hyd
      cases hyd
      exact hx hpar.symm
    · obtain ⟨yd', hyd', heq⟩ := core_some (core_removeLeaf wf hc hne hyc).symm hyd
      exact h y yd' hyd' (by rwa [removeLeaf_root]) ((congrArg Prod.fst heq).trans hpar)
  · intro h y yd hyd hyr hpar
    obtain ⟨-, yd₀, h₀, hcore⟩ := nodes_removeLeaf_cases wf hc hne hyd
    exact h y yd₀ h₀ (by simpa using hyr) ((congrArg Prod.fst hcore).trans hpar)

/-! ## Quiet steps -/

/-- Trees reachable by payload updates from `inert` and by splits whose payload halves are related
by `halving`. -/
inductive Quiet (ps : ℕ) (inert : (π → π) → Prop) (halving : ℕ → (π → π) → (π → π) → Prop) :
    PageTree κ χ π → PageTree κ χ π → Prop
  | refl (t : PageTree κ χ π) : Quiet ps inert halving t t
  | touch {t t' : PageTree κ χ π} (n : ℕ) {g : π → π} : Quiet ps inert halving t t' → inert g →
      Quiet ps inert halving t (t'.modifyData n g)
  | split {t t' : PageTree κ χ π} {c m : ℕ} {nd : Node κ χ π} {up down : π → π} :
      Quiet ps inert halving t t' → t'.nodes c = some nd → c ≠ t'.root → 0 < m →
      m < (PagedKey.units nd.key).length → ps ∣ m → halving m up down →
      Quiet ps inert halving t (splitAt ps t' c m up down).1

section Quiet

variable {inert : (π → π) → Prop} {halving : ℕ → (π → π) → (π → π) → Prop}

theorem Quiet.trans {t₁ t₂ t₃ : PageTree κ χ π} (h : Quiet ps inert halving t₁ t₂)
    (h' : Quiet ps inert halving t₂ t₃) : Quiet ps inert halving t₁ t₃ := by
  induction h' with
  | refl => exact h
  | touch n _ hg ih => exact .touch n ih hg
  | split _ hc hne hm₀ hm hd hh ih => exact .split ih hc hne hm₀ hm hd hh

theorem Quiet.mono {inert' : (π → π) → Prop} {halving' : ℕ → (π → π) → (π → π) → Prop}
    (h : Quiet ps inert halving t t') (hinert : ∀ g, inert g → inert' g)
    (hhalf : ∀ m up down, halving m up down → halving' m up down) : Quiet ps inert' halving' t t' := by
  induction h with
  | refl => exact .refl _
  | touch n _ hg ih => exact .touch n ih (hinert _ hg)
  | split _ hc hne hm₀ hm hd hh ih => exact .split ih hc hne hm₀ hm hd (hhalf _ _ _ hh)

theorem Quiet.modifyAll (hg : inert g) (l : List ℕ) : Quiet ps inert halving t (t.modifyAll l g) := by
  induction l generalizing t with
  | nil => exact .refl t
  | cons n l ih => exact (Quiet.touch n (.refl t) hg).trans ih

/-- **The invariant rule.** What both kinds of steps preserve, a quiet run preserves. -/
theorem Quiet.invariant {P : PageTree κ χ π → Prop} (h : Quiet ps inert halving t t')
    (htouch : ∀ t n g, inert g → P t → P (t.modifyData n g))
    (hsplit : ∀ t c m nd up down, t.nodes c = some nd → c ≠ t.root → 0 < m →
      m < (PagedKey.units nd.key).length → ps ∣ m → halving m up down → P t →
      P (splitAt ps t c m up down).1) (ht : P t) : P t' := by
  induction h with
  | refl => exact ht
  | touch n _ hg ih => exact htouch _ n _ hg ih
  | split _ hc hne hm₀ hm hd hh ih => exact hsplit _ _ _ _ _ _ hc hne hm₀ hm hd hh ih

theorem Quiet.wf [LawfulPagedKey κ] (h : Quiet ps inert halving t t') (wf : WF ps t) : WF ps t' :=
  h.invariant (fun _ _ _ _ wf => wf.modifyData)
    (fun _ _ _ _ _ _ hc hne hm₀ hm hd _ wf => wf.splitAt hc hne hm₀ hm hd) wf

/-- A quiet run keeps what is stored, if the halves of a split share out the values. -/
theorem Quiet.stores [LawfulPagedKey κ] (h : Quiet ps inert halving t t')
    (hinert : ∀ g, inert g → ∀ d, f (g d) = f d)
    (hhalf : ∀ m up down, halving m up down → ∀ d, f (up d) = (f d).take m ∧ f (down d) = (f d).drop m)
    (wf : WF ps t) (hf : t.Fits f) : WF ps t' ∧ t'.Fits f ∧ ∀ us vs, t'.Stores f us vs ↔ t.Stores f us vs := by
  refine h.invariant (P := fun u => WF ps u ∧ u.Fits f ∧ ∀ us vs, u.Stores f us vs ↔ t.Stores f us vs)
    ?_ ?_ ⟨wf, hf, fun _ _ => Iff.rfl⟩
  · rintro u n g hg ⟨wf, hf, hs⟩
    refine ⟨wf.modifyData, fits_modifyData (hinert g hg) hf, fun us vs => ?_⟩
    rw [stores_modifyData (hinert g hg), hs]
  · rintro u c m nd up down hc hne hm₀ hm hd hh ⟨wf, hf, hs⟩
    obtain ⟨hup, hdown⟩ := hhalf m up down hh nd.data
    refine ⟨wf.splitAt hc hne hm₀ hm hd, fits_splitAt wf hc hne hup hdown hf, fun us vs => ?_⟩
    rw [stores_splitAt wf hc hne hup hdown hf hm.le, hs]

omit [DecidableEq χ] in
theorem present_congr {us : List υ} (hs : ∀ us vs, t'.Stores f us vs ↔ t.Stores f us vs) :
    t'.Present us ↔ t.Present us := by
  constructor
  · intro hp
    obtain ⟨vs, hvs⟩ := hp.stores (f := f)
    exact ((hs us vs).mp hvs).present
  · intro hp
    obtain ⟨vs, hvs⟩ := hp.stores (f := f)
    exact ((hs us vs).mpr hvs).present

omit [DecidableEq χ] in
/-- The longest stored prefix depends on what is stored only. -/
theorem isLongest_congr {us : List υ} {L : ℕ} (hs : ∀ us vs, t'.Stores f us vs ↔ t.Stores f us vs) :
    IsLongest ps t' us L ↔ IsLongest ps t us L := by
  constructor
  · rintro ⟨hd, hle, hpres, hmax⟩
    exact ⟨hd, hle, (present_congr hs).mp hpres, fun j hj hjle hjp =>
      hmax j hj hjle ((present_congr hs).mpr hjp)⟩
  · rintro ⟨hd, hle, hpres, hmax⟩
    exact ⟨hd, hle, (present_congr hs).mpr hpres, fun j hj hjle hjp =>
      hmax j hj hjle ((present_congr hs).mp hjp)⟩

end Quiet

end PageTree

end SGLang.Lib
