/-
# SGLang.Lib.PageTree — radix trees on a heap, with edges cut at page boundaries.

A page tree is a heap of nodes that point at each other: every node knows its parent, and keeps its
children in a dictionary indexed by the first page of the child's label. The only structural
operations are

* `splitAt` — put a fresh node above an existing one and move a prefix of its label there,
* `addLeaf` — hang a fresh node below an existing one,
* `removeLeaf` — unlink and forget a node without children, and
* `modifyData` — change the payload of a node.

`WF` is the well-formedness the four operations preserve. A node is addressed in two ways: by its
identity (a heap address that is never reused), and by its `Path`, the list of identities from the
root down to it. Labels along paths decide everything else: `WF.ids_prefix` says that a node whose
spelled-out label is a prefix of another one's is an ancestor of it, which is what makes the tree a
function of the strings it stores.
-/
import Mathlib

namespace SGLang.Lib

open List

/-! ## Keys -/

/-- Sequences of logical units that can be cut, and whose first page is hashable. -/
class PagedKey (κ : Type) (υ χ : outParam Type) where
  units : κ → List υ
  take : κ → ℕ → κ
  drop : κ → ℕ → κ
  childKey : ℕ → κ → χ

/-- Cutting a key cuts its units, and the child key of a page size identifies the first page. -/
class LawfulPagedKey (κ : Type) {υ χ : outParam Type} [PagedKey κ υ χ] : Prop where
  units_take : ∀ (k : κ) (n : ℕ), PagedKey.units (PagedKey.take k n) = (PagedKey.units k).take n
  units_drop : ∀ (k : κ) (n : ℕ), PagedKey.units (PagedKey.drop k n) = (PagedKey.units k).drop n
  childKey_inj : ∀ {ps : ℕ} {k k' : κ}, 0 < ps → ps ≤ (PagedKey.units k).length →
    ps ≤ (PagedKey.units k').length →
    (PagedKey.childKey ps k = PagedKey.childKey ps k' ↔
      (PagedKey.units k).take ps = (PagedKey.units k').take ps)

export LawfulPagedKey (units_take units_drop)

/-! ## The heap -/

/-- One heap cell: the links, the label of the edge from the parent, and the payload. -/
structure Node (κ χ π : Type) where
  parent : ℕ
  children : AList (fun _ : χ => ℕ)
  key : κ
  data : π

/-- A heap of nodes with a distinguished root. Addresses from `next` on have never been used. -/
structure PageTree (κ χ π : Type) where
  nodes : ℕ → Option (Node κ χ π)
  root : ℕ
  next : ℕ

namespace PageTree

open PagedKey (units childKey)

variable {κ υ χ π : Type} [PagedKey κ υ χ] [DecidableEq χ]

variable (t : PageTree κ χ π)

/-- The child of `n` under a dictionary key. -/
def child (n : ℕ) (ck : χ) : Option ℕ :=
  (t.nodes n).bind fun nd => nd.children.lookup ck

/-- The units on the edge into `n`; nothing for a dead address. -/
def label (n : ℕ) : List υ :=
  ((t.nodes n).map fun nd => units nd.key).getD []

/-- The units spelled out along a list of nodes. -/
def labels (l : List ℕ) : List υ := l.flatMap t.label

/-- Change one node in place. -/
def modify (n : ℕ) (f : Node κ χ π → Node κ χ π) : PageTree κ χ π :=
  { t with nodes := Function.update t.nodes n ((t.nodes n).map f) }

/-- Change the payload of one node. -/
def modifyData (n : ℕ) (g : π → π) : PageTree κ χ π :=
  t.modify n fun nd => { nd with data := g nd.data }

/-- A tree that is only a root. -/
def single (root : ℕ) (key : κ) (data : π) : PageTree κ χ π where
  nodes := fun n => if n = root then some ⟨root, ∅, key, data⟩ else none
  root := root
  next := root + 1

/-- Put a fresh node between `c` and its parent. The fresh node takes the first `m` units of the
label and the payload `up`; `c` keeps its identity, the rest of the label and the payload `down`. -/
def splitAt (ps : ℕ) (t : PageTree κ χ π) (c m : ℕ) (up down : π → π) : PageTree κ χ π × ℕ :=
  match t.nodes c with
  | none => (t, c)
  | some nd =>
    let w := t.next
    let lower := PagedKey.drop nd.key m
    let upper : Node κ χ π :=
      ⟨nd.parent, AList.singleton (childKey ps lower) c, PagedKey.take nd.key m, up nd.data⟩
    let nodes := Function.update t.nodes w (some upper)
    let nodes := Function.update nodes c (some { nd with parent := w, key := lower, data := down nd.data })
    let nodes := Function.update nodes nd.parent ((nodes nd.parent).map fun pd =>
      { pd with children := pd.children.insert (childKey ps nd.key) w })
    ({ t with nodes := nodes, next := w + 1 }, w)

/-- Hang a fresh node with label `key` below `p`. -/
def addLeaf (ps : ℕ) (t : PageTree κ χ π) (p : ℕ) (key : κ) (data : π) : PageTree κ χ π × ℕ :=
  let w := t.next
  let nodes := Function.update t.nodes w (some ⟨p, ∅, key, data⟩)
  let nodes := Function.update nodes p ((nodes p).map fun pd =>
    { pd with children := pd.children.insert (childKey ps key) w })
  ({ t with nodes := nodes, next := w + 1 }, w)

/-- Unlink a node from its parent and forget it. -/
def removeLeaf (ps : ℕ) (t : PageTree κ χ π) (c : ℕ) : PageTree κ χ π :=
  match t.nodes c with
  | none => t
  | some nd =>
    let nodes := Function.update t.nodes nd.parent ((t.nodes nd.parent).map fun pd =>
      { pd with children := pd.children.erase (childKey ps nd.key) })
    { t with nodes := Function.update nodes c none }

/-! ## Paths -/

/-- `Path t n l`: following parent links from `n` reaches the root, and `l` lists the nodes passed,
in the order root to `n`, the root excluded. -/
inductive Path (t : PageTree κ χ π) : ℕ → List ℕ → Prop
  | root : Path t t.root []
  | snoc {c : ℕ} {l : List ℕ} {nd : Node κ χ π} :
      t.nodes c = some nd → c ≠ t.root → Path t nd.parent l → Path t c (l ++ [c])

/-- Follow parent links for at most `fuel` steps; `none` when the walk leaves the tree. -/
def upAux (t : PageTree κ χ π) : ℕ → ℕ → Option (List ℕ)
  | 0, n => if n = t.root then some [] else none
  | fuel + 1, n =>
    if n = t.root then some []
    else match t.nodes n with
      | none => none
      | some nd => (upAux t fuel nd.parent).map (n :: ·)

/-- The nodes from `n` up to the root, the root excluded: what a loop
`while n != root: ...; n = n.parent` visits. -/
def up (t : PageTree κ χ π) (n : ℕ) : Option (List ℕ) := t.upAux t.next n

section Paths

variable {t : PageTree κ χ π} {n m c : ℕ} {l l' l₁ l₂ : List ℕ} {nd : Node κ χ π}

omit [PagedKey κ υ χ] [DecidableEq χ]

theorem Path.of_append (h : t.Path n (l₁ ++ c :: l₂)) : t.Path c (l₁ ++ [c]) := by
  generalize hl : l₁ ++ c :: l₂ = l at h
  induction h generalizing l₂ with
  | root => simp at hl
  | @snoc d l₀ _ hd hne hp ih =>
    rcases eq_nil_or_concat l₂ with rfl | ⟨r, b, rfl⟩
    · obtain ⟨rfl, hcd⟩ := append_inj' hl rfl
      obtain rfl : c = d := by simpa using hcd
      exact .snoc hd hne hp
    · have hsplit : (l₁ ++ c :: r) ++ [b] = l₀ ++ [d] := by simpa using hl
      exact ih (append_inj' hsplit rfl).1

section

variable (h : t.Path n l)

include h

theorem Path.functional (h' : t.Path n l') : l = l' := by
  induction h generalizing l' with
  | root =>
    cases h' with
    | root => rfl
    | snoc _ hne _ => exact absurd rfl hne
  | snoc hn hne _ ih =>
    cases h' with
    | root => exact absurd rfl hne
    | snoc hn' _ hp =>
      rw [hn] at hn'
      cases hn'
      rw [ih hp]

/-- The list of nodes determines where the path ends. -/
theorem Path.end_unique (h' : t.Path m l) : n = m := by
  cases h with
  | root =>
    generalize hl : ([] : List ℕ) = l at h'
    cases h' with
    | root => rfl
    | snoc => simp at hl
  | @snoc _ l₀ _ _ _ _ =>
    generalize hl : l₀ ++ [n] = l at h'
    cases h' with
    | root => simp at hl
    | snoc => simpa using (append_inj' hl rfl).2

theorem Path.node_of_mem (hc : c ∈ l) : c ≠ t.root ∧ ∃ nd, t.nodes c = some nd := by
  obtain ⟨l₁, l₂, rfl⟩ := append_of_mem hc
  have hp := h.of_append
  generalize hl : l₁ ++ [c] = l at hp
  cases hp with
  | root => simp at hl
  | snoc hd hne _ => exact ⟨hne, _, hd⟩

theorem Path.nodup : l.Nodup := by
  induction h with
  | root => simp
  | @snoc d l₀ _ hd hne hp ih =>
    refine Nodup.append ih (by simp) ?_
    rw [disjoint_singleton]
    intro hmem
    -- a node on its own path would have two paths of different length
    obtain ⟨l₁, l₂, rfl⟩ := append_of_mem hmem
    have hshort := hp.of_append
    have hlong : t.Path d ((l₁ ++ d :: l₂) ++ [d]) := .snoc hd hne hp
    have hlen := congrArg length (hshort.functional hlong)
    simp at hlen

theorem Path.last : (n = t.root ∧ l = []) ∨ (n ≠ t.root ∧ ∃ l₀, l = l₀ ++ [n]) := by
  cases h with
  | root => exact .inl ⟨rfl, rfl⟩
  | snoc _ hne _ => exact .inr ⟨hne, _, rfl⟩

theorem Path.mem_self (hne : n ≠ t.root) : n ∈ l := by
  rcases h.last with ⟨he, _⟩ | ⟨_, l₀, rfl⟩
  · exact absurd he hne
  · simp

/-- The step above the end of a path. -/
theorem Path.parent (hn : t.nodes n = some nd) (hne : n ≠ t.root) :
    ∃ l₀, l = l₀ ++ [n] ∧ t.Path nd.parent l₀ := by
  cases h with
  | root => exact absurd rfl hne
  | snoc hd _ hp =>
    rw [hn] at hd
    cases hd
    exact ⟨_, rfl, hp⟩

theorem upAux_of_path {fuel : ℕ} (hf : l.length ≤ fuel) : t.upAux fuel n = some l.reverse := by
  induction h generalizing fuel with
  | root => cases fuel <;> simp [upAux]
  | @snoc _ l₀ _ hd hne _ ih =>
    cases fuel with
    | zero => simp at hf
    | succ fuel =>
      have hlen : l₀.length ≤ fuel := by simpa using hf
      simp [upAux, hne, hd, ih hlen]

end

theorem Path.end_notMem (h : t.Path c (l ++ [c])) : c ∉ l := by
  intro hmem
  have hnodup := h.nodup
  rw [nodup_append] at hnodup
  exact hnodup.2.2 c hmem c (by simp) rfl

theorem path_of_upAux {fuel : ℕ} {r : List ℕ} (h : t.upAux fuel n = some r) : t.Path n r.reverse := by
  induction fuel generalizing n r with
  | zero =>
    simp only [upAux] at h
    split at h
    · next hr => cases h; subst hr; exact .root
    · cases h
  | succ fuel ih =>
    simp only [upAux] at h
    split at h
    · next hr => cases h; subst hr; exact .root
    · next hr =>
      split at h
      · cases h
      · next nd hd =>
        rw [Option.map_eq_some_iff] at h
        obtain ⟨r', hr', rfl⟩ := h
        simpa using Path.snoc hd hr (ih hr')

end Paths

/-! ## Well-formedness -/

/-- What every operation keeps: the root is there, addresses are below `next`, every node hangs on a
path from the root, a dictionary entry is there exactly for the child it names, and the label of a
node other than the root is a positive number of whole pages. -/
structure WF (ps : ℕ) (t : PageTree κ χ π) : Prop where
  ps_pos : 0 < ps
  root_node : ∃ nd, t.nodes t.root = some nd
  lt_next : ∀ {n nd}, t.nodes n = some nd → n < t.next
  path : ∀ {n nd}, t.nodes n = some nd → ∃ l, t.Path n l
  child_iff : ∀ {p pd}, t.nodes p = some pd → ∀ ck c, pd.children.lookup ck = some c ↔
    ∃ nd, t.nodes c = some nd ∧ c ≠ t.root ∧ nd.parent = p ∧ childKey ps nd.key = ck
  key_ne : ∀ {n nd}, t.nodes n = some nd → n ≠ t.root → units nd.key ≠ []
  key_dvd : ∀ {n nd}, t.nodes n = some nd → n ≠ t.root → ps ∣ (units nd.key).length

section WellFormed

variable {ps : ℕ} {t : PageTree κ χ π} {n m c p : ℕ} {l l' : List ℕ} {nd pd : Node κ χ π}

section

variable (wf : WF ps t)
include wf

theorem WF.root_lt : t.root < t.next := by
  obtain ⟨nd, h⟩ := wf.root_node
  exact wf.lt_next h

theorem WF.nodes_next : t.nodes t.next = none := by
  cases h : t.nodes t.next with
  | none => rfl
  | some nd => exact absurd (wf.lt_next h) (lt_irrefl _)

theorem WF.node_of_path (h : t.Path n l) : ∃ nd, t.nodes n = some nd := by
  cases h with
  | root => exact wf.root_node
  | snoc hd _ _ => exact ⟨_, hd⟩

theorem WF.parent_node (hc : t.nodes c = some nd) (hne : c ≠ t.root) : ∃ pd, t.nodes nd.parent = some pd := by
  obtain ⟨l, hl⟩ := wf.path hc
  obtain ⟨l₀, -, hp⟩ := hl.parent hc hne
  exact wf.node_of_path hp

theorem WF.parent_ne (hc : t.nodes c = some nd) (hne : c ≠ t.root) : nd.parent ≠ c := by
  intro he
  obtain ⟨l, hl⟩ := wf.path hc
  obtain ⟨l₀, rfl, hp⟩ := hl.parent hc hne
  rw [he] at hp
  have := congrArg length (hp.functional hl)
  simp at this

theorem WF.ps_le (hc : t.nodes c = some nd) (hne : c ≠ t.root) : ps ≤ (units nd.key).length :=
  Nat.le_of_dvd (length_pos_of_ne_nil (wf.key_ne hc hne)) (wf.key_dvd hc hne)

/-- Two children of one node with the same child key are one node. -/
theorem WF.child_unique {nd' : Node κ χ π} (hn : t.nodes n = some nd)
    (hm : t.nodes m = some nd') (hnr : n ≠ t.root) (hmr : m ≠ t.root) (hp : nd.parent = nd'.parent)
    (hk : childKey ps nd.key = childKey ps nd'.key) : n = m := by
  obtain ⟨pd, hpd⟩ := wf.parent_node hn hnr
  have h₁ := (wf.child_iff hpd _ n).mpr ⟨nd, hn, hnr, rfl, rfl⟩
  have h₂ := (wf.child_iff hpd (childKey ps nd.key) m).mpr ⟨nd', hm, hmr, hp.symm, hk.symm⟩
  rw [h₁] at h₂
  exact Option.some.inj h₂

theorem WF.path_lt (h : t.Path n l) (hc : c ∈ l) : c < t.next := by
  obtain ⟨-, nd, hd⟩ := h.node_of_mem hc
  exact wf.lt_next hd

theorem WF.next_notMem (h : t.Path n l) : t.next ∉ l := fun hmem => lt_irrefl _ (wf.path_lt h hmem)

theorem WF.next_notMem_left (h : t.Path n (l ++ l')) : t.next ∉ l :=
  fun hmem => wf.next_notMem h (mem_append_left _ hmem)

theorem WF.path_length (h : t.Path n l) : l.length ≤ t.next := by
  have hsub : l ⊆ range t.next := fun c hc => mem_range.mpr (wf.path_lt h hc)
  simpa using (h.nodup.subperm hsub).length_le

theorem WF.up_eq (h : t.Path n l) : t.up n = some l.reverse :=
  upAux_of_path h (wf.path_length h)

theorem WF.child_eq_some (hp : t.nodes p = some pd) {ck : χ} :
    t.child p ck = some c ↔ ∃ nd, t.nodes c = some nd ∧ c ≠ t.root ∧ nd.parent = p ∧
      childKey ps nd.key = ck := by
  simp only [child, hp, Option.bind_some]
  exact wf.child_iff hp ck c

end

section

omit [DecidableEq χ]

theorem label_eq (h : t.nodes n = some nd) : t.label n = units nd.key := by
  simp [label, h]

@[simp] theorem labels_nil : t.labels [] = [] := rfl

@[simp] theorem labels_append (l l' : List ℕ) : t.labels (l ++ l') = t.labels l ++ t.labels l' := by
  simp [labels]

@[simp] theorem labels_cons (c : ℕ) (l : List ℕ) : t.labels (c :: l) = t.label c ++ t.labels l := by
  simp [labels]

end

/-- **A node is above every node that spells out an extension of its label.** Induction on the
shorter path: the two next nodes agree on their first page, so their parent has one entry for both. -/
theorem WF.ids_prefix [LawfulPagedKey κ] (wf : WF ps t) (hn : t.Path n l) (hm : t.Path m l')
    (hpre : t.labels l <+: t.labels l') : l <+: l' := by
  induction hn with
  | root => exact nil_prefix
  | @snoc d l₀ dd hd hne hp ih =>
    have hl₀ : l₀ <+: l' := ih ((prefix_append _ _).trans (by simpa using hpre))
    obtain ⟨r, rfl⟩ := hl₀
    have hpre' : t.label d <+: t.labels r := by
      simpa [prefix_append_right_inj] using hpre
    have hdne : t.label d ≠ [] := by rw [label_eq hd]; exact wf.key_ne hd hne
    cases r with
    | nil => exact absurd (prefix_nil.mp (by simpa using hpre')) hdne
    | cons x r =>
      have hx := hm.of_append
      obtain ⟨hxr, xd, hxd⟩ := hm.node_of_mem (c := x) (by simp)
      obtain ⟨l₁, heq, hxp⟩ := hx.parent hxd hxr
      obtain rfl : l₀ = l₁ := (append_inj' heq rfl).1
      have hpar : dd.parent = xd.parent := hp.end_unique hxp
      have hkey : childKey ps dd.key = childKey ps xd.key := by
        rw [LawfulPagedKey.childKey_inj wf.ps_pos (wf.ps_le hd hne) (wf.ps_le hxd hxr)]
        obtain ⟨s, hs⟩ := hpre'
        rw [labels_cons, label_eq hd, label_eq hxd] at hs
        have htake := congrArg (take ps) hs
        rwa [take_append_of_le_length (wf.ps_le hd hne), take_append_of_le_length (wf.ps_le hxd hxr)] at htake
      obtain rfl := wf.child_unique hd hxd hne hxr hpar hkey
      simp

end WellFormed

end PageTree

end SGLang.Lib
