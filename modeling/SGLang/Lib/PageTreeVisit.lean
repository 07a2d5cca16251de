/-
# SGLang.Lib.PageTreeVisit — walking a page tree with a stack.

`visit` is the loop that takes a node off a stack, puts its children on it and goes on until the stack is
empty. In a well-formed tree it ends within as many rounds as there are addresses, and it meets every node
exactly once.
-/
import SGLang.Lib.PageTreeOps

namespace SGLang.Lib.PageTree

open List

variable {κ υ χ π : Type} [PagedKey κ υ χ] [DecidableEq χ] {t : PageTree κ χ π} {ps n c : ℕ}
  {nd cd : Node κ χ π}

/-- The children of a node, in the order of its dictionary; none for a dead address. -/
def childIds (t : PageTree κ χ π) (n : ℕ) : List ℕ :=
  ((t.nodes n).map fun nd => nd.children.entries.map Sigma.snd).getD []

/-- The loop: `visited` has been met, `stack` is still to be met. -/
def visitLoop (t : PageTree κ χ π) : ℕ → List ℕ → List ℕ → Option (List ℕ)
  | _, [], visited => some visited
  | 0, _ :: _, _ => none
  | fuel + 1, n :: stack, visited =>
    visitLoop t fuel ((t.childIds n).reverse ++ stack) (visited ++ [n])

/-- Every node of the tree, from the root. -/
def visit (t : PageTree κ χ π) : Option (List ℕ) := visitLoop t (t.next + 1) [t.root] []

omit [PagedKey κ υ χ] [DecidableEq χ] in
theorem childIds_eq (h : t.nodes n = some nd) : t.childIds n = nd.children.entries.map Sigma.snd := by
  unfold childIds
  rw [h, Option.map_some, Option.getD_some]

theorem WF.mem_childIds (wf : WF ps t) (hn : t.nodes n = some nd) :
    c ∈ t.childIds n ↔ ∃ cd, t.nodes c = some cd ∧ c ≠ t.root ∧ cd.parent = n := by
  rw [childIds_eq hn, mem_map]
  constructor
  · rintro ⟨⟨ck, c⟩, hmem, rfl⟩
    obtain ⟨cd, hc, hne, hp, _⟩ := (wf.child_iff hn ck c).mp (AList.mem_lookup_iff.mpr hmem)
    exact ⟨cd, hc, hne, hp⟩
  · rintro ⟨cd, hc, hne, hp⟩
    have hlook := (wf.child_iff hn (PagedKey.childKey ps cd.key) c).mpr ⟨cd, hc, hne, hp, rfl⟩
    exact ⟨⟨_, c⟩, AList.mem_lookup_iff.mp hlook, rfl⟩

/-- A node is the child of its parent under one key only. -/
theorem WF.nodup_childIds (wf : WF ps t) (hn : t.nodes n = some nd) : (t.childIds n).Nodup := by
  rw [childIds_eq hn]
  apply Nodup.map_on _ (NodupKeys.nodup nd.children.nodupKeys)
  rintro ⟨ck, c⟩ h ⟨ck', c'⟩ h' heq
  cases heq
  obtain ⟨cd, hc, _, _, hk⟩ := (wf.child_iff hn ck c).mp (AList.mem_lookup_iff.mpr h)
  obtain ⟨cd', hc', _, _, hk'⟩ := (wf.child_iff hn ck' c).mp (AList.mem_lookup_iff.mpr h')
  rw [hc] at hc'
  cases hc'
  rw [← hk, ← hk']

/-- Where the loop stands: what it met and what it still has to meet are different nodes; they are closed
under parents among those met, and the children of a node met are met or on the stack. -/
structure Visiting (t : PageTree κ χ π) (stack visited : List ℕ) : Prop where
  nodup : (visited ++ stack).Nodup
  alive : ∀ n ∈ visited ++ stack, ∃ nd, t.nodes n = some nd
  root_mem : t.root ∈ visited ++ stack
  parent_mem : ∀ n ∈ visited ++ stack, n ≠ t.root → ∀ nd, t.nodes n = some nd → nd.parent ∈ visited
  child_mem : ∀ n ∈ visited, ∀ c ∈ t.childIds n, c ∈ visited ++ stack

theorem Visiting.start (wf : WF ps t) : Visiting t [t.root] [] := by
  refine ⟨nodup_singleton _, ?_, mem_singleton_self _, ?_, ?_⟩
  · intro n hn
    rw [nil_append, mem_singleton] at hn
    subst hn
    exact wf.root_node
  · intro n hn hne
    rw [nil_append, mem_singleton] at hn
    exact absurd hn hne
  · intro n hn
    cases hn

theorem Visiting.step (wf : WF ps t) {stack visited : List ℕ} (v : Visiting t (n :: stack) visited) :
    Visiting t ((t.childIds n).reverse ++ stack) (visited ++ [n]) := by
  obtain ⟨nd, hn⟩ := v.alive n (mem_append_right _ mem_cons_self)
  have hassoc : ∀ l : List ℕ, visited ++ [n] ++ ((t.childIds n).reverse ++ l) =
      visited ++ n :: ((t.childIds n).reverse ++ l) := fun l => by simp
  have hmem : ∀ x, x ∈ visited ++ [n] ++ ((t.childIds n).reverse ++ stack) ↔
      x ∈ visited ++ n :: stack ∨ x ∈ t.childIds n := by
    intro x
    simp only [mem_append, mem_cons, mem_reverse, not_mem_nil, or_false]
    tauto
  have hnew : ∀ c ∈ t.childIds n, c ∉ visited ++ n :: stack := by
    intro c hc hold
    obtain ⟨cd, hcd, hne, hp⟩ := (wf.mem_childIds hn).mp hc
    -- its parent would have been met already, but that is the node on top of the stack
    have hpar := v.parent_mem c hold hne cd hcd
    rw [hp] at hpar
    exact (nodup_append.mp v.nodup).2.2 n hpar n mem_cons_self rfl
  refine ⟨?_, ?_, ?_, ?_, ?_⟩
  · have hperm : (visited ++ [n] ++ ((t.childIds n).reverse ++ stack)).Perm
        (t.childIds n ++ (visited ++ n :: stack)) := by
      rw [hassoc]
      have h1 : (n :: ((t.childIds n).reverse ++ stack)).Perm (t.childIds n ++ n :: stack) :=
        ((perm_append_right_iff stack).mpr (reverse_perm _)).cons n |>.trans perm_middle.symm
      have h2 := h1.append_left visited
      apply h2.trans
      rw [← append_assoc, ← append_assoc]
      exact perm_append_comm.append_right _
    apply hperm.nodup_iff.mpr
    apply nodup_append.mpr
    refine ⟨wf.nodup_childIds hn, v.nodup, ?_⟩
    intro c hc x hx hcx
    subst hcx
    exact hnew c hc hx
  · intro x hx
    rcases (hmem x).mp hx with hx | hx
    · exact v.alive x hx
    · obtain ⟨cd, hcd, _⟩ := (wf.mem_childIds hn).mp hx
      exact ⟨cd, hcd⟩
  · exact (hmem t.root).mpr (.inl v.root_mem)
  · intro x hx hne xd hxd
    rcases (hmem x).mp hx with hx | hx
    · exact mem_append_left _ (v.parent_mem x hx hne xd hxd)
    · obtain ⟨cd, hcd, _, hp⟩ := (wf.mem_childIds hn).mp hx
      rw [hxd] at hcd
      cases hcd
      rw [hp]
      exact mem_append_right _ (mem_singleton_self n)
  · intro x hx c hc
    rcases mem_append.mp hx with hx | hx
    · exact (hmem c).mpr (.inl (v.child_mem x hx c hc))
    · rw [mem_singleton] at hx
      subst hx
      exact (hmem c).mpr (.inr hc)

/-- The loop ends before it has met more nodes than there are addresses. -/
theorem visitLoop_spec (wf : WF ps t) (fuel : ℕ) {stack visited : List ℕ} (v : Visiting t stack visited)
    (hf : t.next < fuel + visited.length) :
    ∃ l, visitLoop t fuel stack visited = some l ∧ Visiting t [] l := by
  induction fuel generalizing stack visited with
  | zero =>
    cases stack with
    | nil => exact ⟨visited, by unfold visitLoop; rfl, v⟩
    | cons n stack =>
      have hnodup := (nodup_append.mp v.nodup).1
      have hsub : visited ⊆ range t.next := by
        intro x hx
        obtain ⟨xd, hxd⟩ := v.alive x (mem_append_left _ hx)
        exact mem_range.mpr (wf.lt_next hxd)
      have hlen := (subperm_of_subset hnodup hsub).length_le
      rw [length_range] at hlen
      omega
  | succ fuel ih =>
    cases stack with
    | nil => exact ⟨visited, by unfold visitLoop; rfl, v⟩
    | cons n stack =>
      apply ih (v.step wf)
      rw [length_append, length_singleton]
      omega

/-- The walk ends and meets every node once. -/
theorem WF.visit (wf : WF ps t) : ∃ l, t.visit = some l ∧ l.Nodup ∧ ∀ n, n ∈ l ↔ ∃ nd, t.nodes n = some nd := by
  obtain ⟨l, hl, v⟩ := visitLoop_spec wf (t.next + 1) (Visiting.start wf) (by simp)
  have hnil : l ++ [] = l := append_nil l
  refine ⟨l, hl, ?_, ?_⟩
  · have h := v.nodup
    rwa [hnil] at h
  · intro n
    constructor
    · intro hn
      exact v.alive n (mem_append_left _ hn)
    · rintro ⟨nd, hn⟩
      obtain ⟨path, hpath⟩ := wf.path hn
      clear hn
      induction hpath with
      | root =>
        have h := v.root_mem
        rwa [hnil] at h
      | snoc hc hne hp ih =>
        rename_i c path nd'
        obtain ⟨pd, hpd⟩ := wf.node_of_path hp
        have h := v.child_mem _ ih c ((wf.mem_childIds hpd).mpr ⟨nd', hc, hne, rfl⟩)
        rwa [hnil] at h

/-- Below a node with a property there is a lowest one with it. -/
theorem WF.exists_lowest (wf : WF ps t) (P : ℕ → Node κ χ π → Prop) (hn : t.nodes n = some nd)
    (hP : P n nd) : ∃ m md, t.nodes m = some md ∧ P m md ∧
      ∀ c cd, t.nodes c = some cd → c ≠ t.root → cd.parent = m → ¬ P c cd := by
  obtain ⟨path, hpath⟩ := wf.path hn
  -- paths are at most as long as there are addresses, so going down must end
  induction hk : t.next - path.length generalizing n nd path with
  | zero =>
    refine ⟨n, nd, hn, hP, ?_⟩
    intro c cd hc hne hp _
    have hlong := wf.path_length (.snoc hc hne (hp ▸ hpath))
    rw [length_append, length_singleton] at hlong
    omega
  | succ k ih =>
    by_cases hlow : ∀ c cd, t.nodes c = some cd → c ≠ t.root → cd.parent = n → ¬ P c cd
    · exact ⟨n, nd, hn, hP, hlow⟩
    push Not at hlow
    obtain ⟨c, cd, hc, hne, hp, hPc⟩ := hlow
    apply ih hc hPc (path ++ [c]) (.snoc hc hne (hp ▸ hpath))
    rw [length_append, length_singleton]
    omega

end SGLang.Lib.PageTree
