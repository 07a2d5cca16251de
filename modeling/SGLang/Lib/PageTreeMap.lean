/-
# SGLang.Lib.PageTreeMap — page trees with part of their payload forgotten.

`mapData` applies a function to the payload of every node. Links, labels and paths do not depend on
payloads, and every operation commutes with `mapData` as long as it does the same to what is kept; so a
tree with a richer payload simulates the tree without it.
-/
import SGLang.Lib.PageTreeLocks

namespace SGLang.Lib

variable {κ υ χ π ρ : Type}

/-- The same cell with another payload. -/
def Node.mapData (f : π → ρ) (nd : Node κ χ π) : Node κ χ ρ := ⟨nd.parent, nd.children, nd.key, f nd.data⟩

namespace PageTree

/-- The same tree with other payloads. -/
def mapData (f : π → ρ) (t : PageTree κ χ π) : PageTree κ χ ρ :=
  ⟨fun n => (t.nodes n).map (Node.mapData f), t.root, t.next⟩

variable {f : π → ρ} {t : PageTree κ χ π} {ps n c m p : ℕ} {nd : Node κ χ π}
variable {g up down : π → π} {g' up' down' : ρ → ρ} {key : κ} {data : π}

@[simp] theorem mapData_parent : (nd.mapData f).parent = nd.parent := rfl

@[simp] theorem mapData_key : (nd.mapData f).key = nd.key := rfl

@[simp] theorem mapData_root : (t.mapData f).root = t.root := rfl

theorem nodes_mapData : (t.mapData f).nodes n = (t.nodes n).map (Node.mapData f) := rfl

theorem nodes_mapData_of_some (h : t.nodes n = some nd) : (t.mapData f).nodes n = some (nd.mapData f) := by
  rw [nodes_mapData, h, Option.map_some]

theorem nodes_of_mapData {rd : Node κ χ ρ} (h : (t.mapData f).nodes n = some rd) :
    ∃ nd, t.nodes n = some nd ∧ nd.mapData f = rd :=
  Option.map_eq_some_iff.mp h

theorem leaf_mapData : (t.mapData f).Leaf c ↔ t.Leaf c := by
  constructor
  · intro h x xd hx hne
    exact h x _ (nodes_mapData_of_some hx) hne
  · intro h x rd hx hne
    rcases nodes_of_mapData hx with ⟨xd, hxd, rfl⟩
    exact h x xd hxd hne

/-! ## Operations -/

theorem mapData_modify {e : Node κ χ π → Node κ χ π} {e' : Node κ χ ρ → Node κ χ ρ}
    (h : ∀ nd, (e nd).mapData f = e' (nd.mapData f)) :
      (t.modify c e).mapData f = (t.mapData f).modify c e' := by
  unfold mapData modify
  congr 1
  funext x
  by_cases hx : x = c
  · subst hx
    simp only [Function.update_self, Option.map_map]
    exact congrArg (fun k => (t.nodes x).map k) (funext h)
  · simp only [Function.update_of_ne hx]

theorem mapData_modifyData (h : ∀ d, f (g d) = g' (f d)) :
    (t.modifyData c g).mapData f = (t.mapData f).modifyData c g' :=
  mapData_modify fun nd => by simp only [Node.mapData, h]

/-- An update of what the map drops is invisible. -/
theorem mapData_modifyData_eq (h : ∀ d, f (g d) = f d) : (t.modifyData c g).mapData f = t.mapData f := by
  have hnodes : ∀ x, ((t.modifyData c g).mapData f).nodes x = (t.mapData f).nodes x := by
    intro x
    rw [nodes_mapData, nodes_mapData, nodes_modifyData, Option.map_map]
    apply Option.map_congr
    intro nd _
    simp only [Function.comp_apply, Node.mapData]
    split
    · rw [h]
    · rfl
  exact congrArg (fun N => (⟨N, t.root, t.next⟩ : PageTree κ χ ρ)) (funext hnodes)

/-- Writing a cell and forgetting, in either order. -/
theorem map_update {N : ℕ → Option (Node κ χ π)} {v : Option (Node κ χ π)} :
    (fun x => (Function.update N c v x).map (Node.mapData f)) =
      Function.update (fun x => (N x).map (Node.mapData f)) c (v.map (Node.mapData f)) :=
  Function.comp_update (Option.map (Node.mapData f)) N c v

/-- A change of the dictionary does not touch the payload. -/
theorem map_children {o : Option (Node κ χ π)} {h : AList (fun _ : χ => ℕ) → AList fun _ : χ => ℕ} :
    (o.map fun pd => { pd with children := h pd.children }).map (Node.mapData f) =
      (o.map (Node.mapData f)).map fun pd => { pd with children := h pd.children } := by
  rw [Option.map_map, Option.map_map]
  rfl

variable [DecidableEq χ]

@[simp] theorem child_mapData {ck : χ} : (t.mapData f).child n ck = t.child n ck := by
  unfold child
  rw [nodes_mapData]
  cases t.nodes n <;> rfl

variable [PagedKey κ υ χ]

theorem mapData_splitAt (hup : ∀ d, f (up d) = up' (f d)) (hdown : ∀ d, f (down d) = down' (f d)) :
    (splitAt ps t c m up down).1.mapData f = (splitAt ps (t.mapData f) c m up' down').1 ∧
      (splitAt ps t c m up down).2 = (splitAt ps (t.mapData f) c m up' down').2 := by
  unfold splitAt
  rw [nodes_mapData]
  cases hc : t.nodes c with
  | none => exact ⟨rfl, rfl⟩
  | some nd =>
    refine ⟨?_, rfl⟩
    unfold mapData
    congr 1
    rw [map_update, map_children, map_update, map_update]
    have hcell := congrFun (map_update (f := f) (c := c) (N := Function.update t.nodes t.next (some
      ⟨nd.parent, AList.singleton (PagedKey.childKey ps (PagedKey.drop nd.key m)) c,
        PagedKey.take nd.key m, up nd.data⟩))
      (v := some { nd with parent := t.next, key := PagedKey.drop nd.key m, data := down nd.data }))
      nd.parent
    rw [map_update] at hcell
    rw [hcell]
    simp only [Option.map_some, Node.mapData, hup, hdown]

theorem mapData_addLeaf : (addLeaf ps t p key data).1.mapData f =
    (addLeaf ps (t.mapData f) p key (f data)).1 := by
  unfold addLeaf mapData
  congr 1
  have hcell := congrFun (map_update (f := f) (c := t.next) (N := t.nodes) (v := some ⟨p, ∅, key, data⟩)) p
  rw [map_update, map_children, map_update, hcell]
  rfl

theorem mapData_removeLeaf : (removeLeaf ps t c).mapData f = removeLeaf ps (t.mapData f) c := by
  unfold removeLeaf
  rw [nodes_mapData]
  cases hc : t.nodes c with
  | none => rfl
  | some nd =>
    unfold mapData
    congr 1
    rw [map_update, map_update, map_children]
    rfl

end PageTree

end SGLang.Lib
