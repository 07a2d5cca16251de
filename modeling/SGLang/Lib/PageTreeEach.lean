/-
# SGLang.Lib.PageTreeEach — what holds of every node of a page tree.

`Each P t` says that every node of the tree but the root satisfies `P`, which may read the node's key and
payload, and `AtRoot P t` that the root does. Each operation of the tree asks for `P` only at the nodes it makes
or rewrites.
-/
import SGLang.Lib.PageTreeOps

namespace SGLang.Lib.PageTree

variable {κ υ χ π : Type} [PagedKey κ υ χ] [DecidableEq χ]
variable {ps : ℕ} {t : PageTree κ χ π} {n m c p : ℕ} {nd pd : Node κ χ π}
variable {key : κ} {data : π} {up down g : π → π} {P : κ → π → Prop}

section

omit [PagedKey κ υ χ] [DecidableEq χ]

theorem of_core {xd : Node κ χ π} (h : nd.core = xd.core) (hP : P nd.key nd.data) : P xd.key xd.data := by
  rwa [← (core_eq h).1, ← (core_eq h).2]

/-- Every node but the root satisfies `P`. -/
def Each (P : κ → π → Prop) (t : PageTree κ χ π) : Prop :=
  ∀ n nd, t.nodes n = some nd → n ≠ t.root → P nd.key nd.data

theorem Each.modifyData (h : t.Each P)
    (hc : ∀ nd, t.nodes c = some nd → c ≠ t.root → P nd.key nd.data → P nd.key (g nd.data)) :
    (t.modifyData c g).Each P := by
  intro n nd hn hne
  rcases nodes_modifyData_some hn with ⟨nd₀, hn₀, rfl⟩
  have hP := h n nd₀ hn₀ hne
  split
  · next heq =>
    subst heq
    exact hc nd₀ hn₀ hne hP
  · exact hP

theorem Each.map (h : t.Each P) (hg : ∀ k d, P k d → P k (g d)) : (t.modifyData c g).Each P :=
  h.modifyData fun nd _ _ hP => hg nd.key nd.data hP

theorem each_single {root : ℕ} : (single root key data : PageTree κ χ π).Each P := by
  intro n nd hn hne
  exact absurd (nodes_single hn).1 hne

end

theorem Each.split (h : t.Each P) (wf : WF ps t) (hc : t.nodes c = some nd) (hne : c ≠ t.root)
    (hup : P nd.key nd.data → P (PagedKey.take nd.key m) (up nd.data))
    (hdown : P nd.key nd.data → P (PagedKey.drop nd.key m) (down nd.data)) :
    (splitAt ps t c m up down).1.Each P := by
  intro n xd hn hnr
  rw [splitAt_root] at hnr
  have hP := h c nd hc hne
  rcases nodes_splitAt_cases wf hc hne hn with
    ⟨rfl, rfl⟩ | ⟨rfl, rfl⟩ | ⟨-, -, xd₀, hn₀, hcore⟩
  · exact hup hP
  · exact hdown hP
  · exact of_core hcore (h n xd₀ hn₀ hnr)

theorem Each.add (h : t.Each P) (wf : WF ps t) (hp : t.nodes p = some pd) (hnew : P key data) :
    (addLeaf ps t p key data).1.Each P := by
  intro n xd hn hnr
  rcases nodes_addLeaf_cases wf hp hn with ⟨-, rfl⟩ | ⟨-, xd₀, hn₀, hcore⟩
  · exact hnew
  · exact of_core hcore (h n xd₀ hn₀ hnr)

theorem Each.remove (h : t.Each P) (wf : WF ps t) (hc : t.nodes c = some nd) (hne : c ≠ t.root) :
    (removeLeaf ps t c).Each P := by
  intro n xd hn hnr
  rw [removeLeaf_root] at hnr
  rcases nodes_removeLeaf_cases wf hc hne hn with ⟨-, xd₀, hn₀, hcore⟩
  exact of_core hcore (h n xd₀ hn₀ hnr)

/-! ## The root -/

/-- The root satisfies `P`. -/
def AtRoot (P : κ → π → Prop) (t : PageTree κ χ π) : Prop := ∀ nd, t.nodes t.root = some nd → P nd.key nd.data

omit [PagedKey κ υ χ] [DecidableEq χ] in
theorem AtRoot.modifyData (h : t.AtRoot P) (hg : c = t.root → ∀ k d, P k d → P k (g d)) :
    (t.modifyData c g).AtRoot P := by
  intro nd hnd
  rcases nodes_modifyData_some hnd with ⟨nd₀, hnd₀, rfl⟩
  split
  · next heq => exact hg heq.symm _ _ (h nd₀ hnd₀)
  · exact h nd₀ hnd₀

theorem AtRoot.split (h : t.AtRoot P) (wf : WF ps t) (hc : t.nodes c = some nd) (hne : c ≠ t.root) :
    (splitAt ps t c m up down).1.AtRoot P := by
  intro xd hx
  rw [splitAt_root] at hx
  rcases nodes_splitAt_cases wf hc hne hx with ⟨heq, -⟩ | ⟨heq, -⟩ | ⟨-, -, xd₀, hx₀, hcore⟩
  · exact absurd heq wf.root_lt.ne
  · exact absurd heq.symm hne
  · exact of_core hcore (h xd₀ hx₀)

theorem AtRoot.add (h : t.AtRoot P) (wf : WF ps t) (hp : t.nodes p = some pd) :
    (addLeaf ps t p key data).1.AtRoot P := by
  intro xd hx
  rcases nodes_addLeaf_cases wf hp hx with ⟨heq, -⟩ | ⟨-, xd₀, hx₀, hcore⟩
  · exact absurd heq wf.root_lt.ne
  · exact of_core hcore (h xd₀ hx₀)

theorem AtRoot.remove (h : t.AtRoot P) (wf : WF ps t) (hc : t.nodes c = some nd) (hne : c ≠ t.root) :
    (removeLeaf ps t c).AtRoot P := by
  intro xd hx
  rw [removeLeaf_root] at hx
  rcases nodes_removeLeaf_cases wf hc hne hx with ⟨-, xd₀, hx₀, hcore⟩
  exact of_core hcore (h xd₀ hx₀)

end SGLang.Lib.PageTree
