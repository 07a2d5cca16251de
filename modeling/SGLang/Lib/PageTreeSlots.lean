/-
# SGLang.Lib.PageTreeSlots — trees whose nodes hold whole pages of slots.

`Spells f t n us vs` says that the path to node `n` carries the units `us` and the slots `vs`: what a
client that keeps the address `n` knows about it. Splits elsewhere and on the path keep it, and so
does every operation on other nodes. `HoldsPages` says that every node holds whole pages, and
`slotPages` collects them.
-/
import SGLang.Lib.PageTreeLocks
import SGLang.Lib.Paging

namespace SGLang.Lib

namespace PageTree

variable {κ υ χ π : Type} [PagedKey κ υ χ] [DecidableEq χ]
variable {ps : ℕ} {t t' : PageTree κ χ π} {n m c p : ℕ} {l : List ℕ} {nd pd : Node κ χ π}
variable {key : κ} {data : π} {up down g : π → π} {f : π → List ℕ} {us : List υ} {vs : List ℕ}

/-! ## What a node spells -/

/-- The path to `n` carries the units `us` and the slots `vs`. -/
def Spells (f : π → List ℕ) (t : PageTree κ χ π) (n : ℕ) (us : List υ) (vs : List ℕ) : Prop :=
  ∃ l, t.Path n l ∧ t.labels l = us ∧ t.along f l = vs

section

omit [DecidableEq χ]

theorem Spells.stores (h : t.Spells f n us vs) (hf : t.Fits f) : t.Stores f us vs := by
  obtain ⟨l, hl, rfl, rfl⟩ := h
  refine ⟨n, l, hl, List.prefix_rfl, ?_⟩
  rw [← hf.length_along hl, List.take_length]

theorem Spells.length_eq (h : t.Spells f n us vs) (hf : t.Fits f) : vs.length = us.length := by
  obtain ⟨l, hl, rfl, rfl⟩ := h
  exact hf.length_along hl

end

theorem Spells.splitAt [LawfulPagedKey κ] (wf : WF ps t)
    (hc : t.nodes c = some nd) (hne : c ≠ t.root) (hup : f (up nd.data) = (f nd.data).take m)
    (hdown : f (down nd.data) = (f nd.data).drop m) (h : t.Spells f n us vs) :
    (splitAt ps t c m up down).1.Spells f n us vs := by
  obtain ⟨l, hl, rfl, rfl⟩ := h
  have hnext := wf.next_notMem hl
  exact ⟨_, path_splitAt wf hc hne hl, labels_splitAt wf hc hne hnext,
    along_splitAt wf hc hne hup hdown hnext⟩

theorem Spells.addLeaf (wf : WF ps t) (hp : t.nodes p = some pd) (h : t.Spells f n us vs) :
    (addLeaf ps t p key data).1.Spells f n us vs := by
  obtain ⟨l, hl, rfl, rfl⟩ := h
  have hcore : ∀ x ∈ l, ((PageTree.addLeaf ps t p key data).1.nodes x).map Node.core =
      (t.nodes x).map Node.core := fun x hx => core_addLeaf wf hp (wf.path_lt hl hx).ne
  exact ⟨l, path_addLeaf wf hp hl, labels_congr hcore, along_congr hcore⟩

theorem Spells.removeLeaf (wf : WF ps t) (hc : t.nodes c = some nd) (hne : c ≠ t.root)
    (hleaf : t.Leaf c) (hnc : n ≠ c) (h : t.Spells f n us vs) :
    (removeLeaf ps t c).Spells f n us vs := by
  obtain ⟨l, hl, rfl, rfl⟩ := h
  have hcl : c ∉ l := hleaf.notMem hl hnc
  have hcore : ∀ x ∈ l, ((PageTree.removeLeaf ps t c).nodes x).map Node.core =
      (t.nodes x).map Node.core := fun x hx => core_removeLeaf wf hc hne fun he => hcl (he ▸ hx)
  exact ⟨l, path_removeLeaf wf hc hne hcl hl, labels_congr hcore, along_congr hcore⟩

/-! ## Whole pages -/

/-- Every node but the root holds whole pages. -/
def HoldsPages (ps : ℕ) (f : π → List ℕ) (t : PageTree κ χ π) : Prop :=
  ∀ n nd, t.nodes n = some nd → n ≠ t.root → ∃ P, f nd.data = expand ps P

/-- The pages in the tree, each as often as it occurs. -/
def slotPages (ps : ℕ) (f : π → List ℕ) (t : PageTree κ χ π) : Multiset ℕ :=
  t.sum fun _ d => (pagesOf ps (f d) : Multiset ℕ)

section

omit [DecidableEq χ]

/-- The slots along a path are whole pages. -/
theorem HoldsPages.along (h : t.HoldsPages ps f) (hl : t.Path n l) : ∃ P, t.along f l = expand ps P := by
  induction hl with
  | root => exact ⟨[], rfl⟩
  | snoc hx hxr _ ih =>
    obtain ⟨P, hP⟩ := ih
    obtain ⟨Q, hQ⟩ := h _ _ hx hxr
    refine ⟨P ++ Q, ?_⟩
    rw [along_append, hP, along_cons, along_nil, List.append_nil, held_eq hx, hQ, expand_append]

end

/-- A split at a page boundary deals out the pages of the node. -/
theorem HoldsPages.splitAt (wf : WF ps t) (hc : t.nodes c = some nd)
    (hne : c ≠ t.root) (hd : ps ∣ m) (hup : f (up nd.data) = (f nd.data).take m)
    (hdown : f (down nd.data) = (f nd.data).drop m) (h : t.HoldsPages ps f) :
    (splitAt ps t c m up down).1.HoldsPages ps f ∧
      (splitAt ps t c m up down).1.slotPages ps f = t.slotPages ps f := by
  obtain ⟨P, hP⟩ := h c nd hc hne
  obtain ⟨k, rfl⟩ := hd
  have hup' : f (up nd.data) = expand ps (P.take k) := by rw [hup, hP, mul_comm, take_expand]
  have hdown' : f (down nd.data) = expand ps (P.drop k) := by rw [hdown, hP, mul_comm, drop_expand]
  refine ⟨Each.split (P := fun _ d => ∃ P, f d = expand ps P) h wf hc hne (fun _ => ⟨_, hup'⟩)
    (fun _ => ⟨_, hdown'⟩), ?_⟩
  have hsum := sum_splitAt (fun _ d => (pagesOf ps (f d) : Multiset ℕ)) (ps * k) up down wf hc hne
  rw [hup', hdown', hP, pagesOf_expand wf.ps_pos, pagesOf_expand wf.ps_pos,
    pagesOf_expand wf.ps_pos, add_assoc, Multiset.coe_add, List.take_append_drop] at hsum
  exact add_right_cancel hsum

theorem HoldsPages.addLeaf {P : List ℕ} (wf : WF ps t) (hp : t.nodes p = some pd)
    (hdata : f data = expand ps P) (h : t.HoldsPages ps f) :
    (addLeaf ps t p key data).1.HoldsPages ps f ∧
      (addLeaf ps t p key data).1.slotPages ps f = t.slotPages ps f + P := by
  refine ⟨Each.add (P := fun _ d => ∃ P, f d = expand ps P) h wf hp ⟨P, hdata⟩, ?_⟩
  rw [slotPages, sum_addLeaf _ wf hp, hdata, pagesOf_expand wf.ps_pos]
  rfl

theorem HoldsPages.removeLeaf (wf : WF ps t) (hc : t.nodes c = some nd) (hne : c ≠ t.root)
    (h : t.HoldsPages ps f) : (removeLeaf ps t c).HoldsPages ps f ∧
      (removeLeaf ps t c).slotPages ps f + pagesOf ps (f nd.data) = t.slotPages ps f := by
  exact ⟨Each.remove (P := fun _ d => ∃ P, f d = expand ps P) h wf hc hne, sum_removeLeaf _ wf hc hne⟩

/-! ## Changes that keep the pages -/

/-- What a change that stores nothing and removes nothing keeps: the pages of the tree, and what its nodes
spell. -/
structure KeepsPages (ps : ℕ) (f : π → List ℕ) (t t' : PageTree κ χ π) : Prop where
  pages : t.HoldsPages ps f → t'.HoldsPages ps f ∧ t'.slotPages ps f = t.slotPages ps f
  spells : ∀ n us vs, t.Spells f n us vs → t'.Spells f n us vs

section

omit [DecidableEq χ]

theorem KeepsPages.trans {t₁ : PageTree κ χ π} (h : KeepsPages ps f t t₁) (h' : KeepsPages ps f t₁ t') :
    KeepsPages ps f t t' where
  pages hp := by
    obtain ⟨hp₁, hs₁⟩ := h.pages hp
    exact (h'.pages hp₁).imp_right (·.trans hs₁)
  spells n us vs hs := h'.spells n us vs (h.spells n us vs hs)

theorem keepsPages_modifyData (hg : ∀ d, f (g d) = f d) : KeepsPages ps f t (t.modifyData c g) where
  pages hp := by
    refine ⟨Each.map (P := fun _ d => ∃ P, f d = expand ps P) hp ?_, sum_modifyData_congr _
      fun _ d => by rw [hg]⟩
    rintro k d ⟨P, hP⟩
    exact ⟨P, (hg d).trans hP⟩
  spells n us vs := by
    rintro ⟨l, hl, rfl, rfl⟩
    exact ⟨l, path_modifyData.mpr hl, labels_modifyData, along_modifyData hg⟩

theorem keepsPages_modifyAll (hg : ∀ d, f (g d) = f d) : KeepsPages ps f t (t.modifyAll l g) :=
  modifyAll_rule (fun _ _ h => h.trans (keepsPages_modifyData hg)) ⟨fun hp => ⟨hp, rfl⟩, fun _ _ _ hs => hs⟩

end

/-- A quiet run keeps the pages. -/
theorem Quiet.keepsPages [LawfulPagedKey κ] {inert : (π → π) → Prop} {halving : ℕ → (π → π) → (π → π) → Prop}
    (hq : Quiet ps inert halving t t') (hinert : ∀ g, inert g → ∀ d, f (g d) = f d)
    (hhalf : ∀ m up down, halving m up down → ∀ d, f (up d) = (f d).take m ∧ f (down d) = (f d).drop m)
    (wf : WF ps t) : KeepsPages ps f t t' := by
  refine (hq.invariant (P := fun u => WF ps u ∧ KeepsPages ps f t u) ?_ ?_
    ⟨wf, fun hp => ⟨hp, rfl⟩, fun _ _ _ hs => hs⟩).2
  · rintro u x g hg ⟨wf, h⟩
    exact ⟨wf.modifyData, h.trans (keepsPages_modifyData (hinert g hg))⟩
  · rintro u x m xd up down hx hxr hm₀ hm hd hh ⟨wf, h⟩
    obtain ⟨hup, hdown⟩ := hhalf m up down hh xd.data
    exact ⟨wf.splitAt hx hxr hm₀ hm hd, h.trans ⟨(·.splitAt wf hx hxr hd hup hdown),
      fun _ _ _ => (·.splitAt wf hx hxr hup hdown)⟩⟩

end PageTree

end SGLang.Lib
