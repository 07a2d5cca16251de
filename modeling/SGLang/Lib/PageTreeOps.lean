/-
# SGLang.Lib.PageTreeOps — what the operations on a page tree do to cells, paths and labels.

Each operation is described cell by cell through `Node.core` (everything but the dictionary of
children), because paths and labels depend on cores only. From the cell lemmas follow, for each
operation, the new paths, the spelled-out labels along them, and `WF`.
-/
import SGLang.Lib.Dict
import SGLang.Lib.PageTree

namespace SGLang.Lib

open Node PagedKey Option Finset
open Function (comp_def update_apply)

/-- A cell without its dictionary: the parent link, the label and the payload. -/
def Node.core {κ χ π : Type} (nd : Node κ χ π) : ℕ × κ × π := (nd.parent, nd.key, nd.data)

namespace PageTree

open PagedKey (units childKey)

variable {κ υ χ π : Type} [PagedKey κ υ χ] [DecidableEq χ]
variable {ps : ℕ} {t t' : PageTree κ χ π} {n m c p x : ℕ} {l l' : List ℕ} {nd pd xd : Node κ χ π}
variable {key : κ} {data : π} {up down g : π → π} {ck : χ} {w : ℕ}

/-! ## Dictionaries and the child relation -/

/-- `x` is a node whose parent is `p` and whose label starts with the page `ck`. -/
def IsChild (ps : ℕ) (t : PageTree κ χ π) (p : ℕ) (ck : χ) (x : ℕ) : Prop :=
  ∃ nd, t.nodes x = some nd ∧ x ≠ t.root ∧ nd.parent = p ∧ childKey ps nd.key = ck

section

omit [DecidableEq χ]

/-- What a node has is read off its core. -/
theorem map_congr_core {β : Type*} (F : κ → π → β) (h : (t'.nodes x).map core = (t.nodes x).map core) :
    ((t'.nodes x).map fun nd => F nd.key nd.data) = (t.nodes x).map fun nd => F nd.key nd.data := by
  simpa only [Option.map_map] using! congrArg (Option.map fun q : ℕ × κ × π => F q.2.1 q.2.2) h

theorem isChild_congr (hroot : t'.root = t.root) (h : (t'.nodes x).map core = (t.nodes x).map core) :
    IsChild ps t' p ck x ↔ IsChild ps t p ck x := by
  have key : ∀ {a b : PageTree κ χ π}, b.root = a.root → (b.nodes x).map core = (a.nodes x).map core →
      IsChild ps b p ck x → IsChild ps a p ck x := by
    rintro a b hr hcore ⟨nd, hnd, hne, hpar, hck⟩
    rw [hnd, map_some] at hcore
    obtain ⟨nd₀, h₀, hc₀⟩ := map_eq_some_iff.mp hcore.symm
    simp only [core, Prod.mk.injEq] at hc₀
    exact ⟨nd₀, h₀, hr ▸ hne, hc₀.1.trans hpar, by rw [hc₀.2.1]; exact hck⟩
  exact ⟨key hroot h, key hroot.symm h.symm⟩

theorem IsChild.ne (h : IsChild ps t p ck x) (hc : t.nodes c = some nd) (hp : nd.parent ≠ p) : x ≠ c := by
  rintro rfl
  obtain ⟨xd, hxd, -, hpar, -⟩ := h
  rw [hc] at hxd
  cases hxd
  exact hp hpar

theorem label_congr (h : (t'.nodes x).map core = (t.nodes x).map core) : t'.label x = t.label x := by
  rw [label, label, map_congr_core (fun k _ => units k) h]

theorem labels_congr (h : ∀ x ∈ l, (t'.nodes x).map core = (t.nodes x).map core) :
    t'.labels l = t.labels l := by
  simp only [labels, List.flatMap_def]
  congr 1
  exact List.map_congr_left fun x hx => label_congr (h x hx)

end

/-- Below one parent, the child key tells the children apart. -/
theorem IsChild.key_ne_iff (h : IsChild ps t nd.parent ck x) (wf : WF ps t) (hc : t.nodes c = some nd)
    (hne : c ≠ t.root) : ck ≠ childKey ps nd.key ↔ x ≠ c := by
  obtain ⟨xd, hxd, hxr, hpar, hck⟩ := h
  refine not_congr ⟨fun hk => wf.child_unique hxd hc hxr hne hpar (hck.trans hk), ?_⟩
  rintro rfl
  rw [hc] at hxd
  cases hxd
  exact hck.symm

theorem WF.no_child_next (wf : WF ps t) : ¬ IsChild ps t t.next ck x := by
  rintro ⟨xd, hx, hxr, hpar, -⟩
  obtain ⟨qd, hq⟩ := wf.parent_node hx hxr
  rw [hpar, wf.nodes_next] at hq
  cases hq

/-! ## Paths only look at parents -/

section Payload

omit [PagedKey κ υ χ] [DecidableEq χ]

theorem Path.transfer (hroot : t'.root = t.root) (h : t.Path n l)
    (hcore : ∀ x ∈ l, (t'.nodes x).map core = (t.nodes x).map core) : t'.Path n l := by
  induction h with
  | root => exact hroot ▸ Path.root
  | @snoc d l₀ dd hd hne hp ih =>
    have hd' := hcore d (by simp)
    rw [hd, map_some, map_eq_some_iff] at hd'
    obtain ⟨dd', hdd', hcore'⟩ := hd'
    have hpar : dd'.parent = dd.parent := congrArg Prod.fst hcore'
    refine .snoc hdd' (hroot ▸ hne) ?_
    rw [hpar]
    exact ih fun y hy => hcore y (by simp [hy])

theorem core_eq {xd' : Node κ χ π} (h : xd.core = xd'.core) : xd.key = xd'.key ∧ xd.data = xd'.data :=
  Prod.mk.inj (Prod.mk.inj h).2

theorem core_some (h : (t'.nodes x).map core = (t.nodes x).map core)
    (hx : t'.nodes x = some xd) : ∃ xd₀, t.nodes x = some xd₀ ∧ xd₀.core = xd.core := by
  rw [hx, map_some] at h
  simpa using map_eq_some_iff.mp h.symm

/-! ## Changing a payload -/

@[simp] theorem modifyData_root : (t.modifyData n g).root = t.root := rfl

@[simp] theorem modifyData_next : (t.modifyData n g).next = t.next := rfl

theorem nodes_modifyData : (t.modifyData n g).nodes x =
    (t.nodes x).map fun nd => { nd with data := if x = n then g nd.data else nd.data } := by
  by_cases h : x = n
  · subst h
    simp [modifyData, modify]
  · simp [modifyData, modify, h]

@[simp] theorem nodes_modifyData_ne (h : x ≠ n) : (t.modifyData n g).nodes x = t.nodes x := by
  simp [nodes_modifyData, h]

theorem nodes_modifyData_of_some (h : t.nodes x = some xd) : (t.modifyData n g).nodes x =
    some { xd with data := if x = n then g xd.data else xd.data } := by
  simp [nodes_modifyData, h]

theorem nodes_modifyData_self (h : t.nodes n = some nd) :
    (t.modifyData n g).nodes n = some { nd with data := g nd.data } := by
  simp [nodes_modifyData, h]

/-- The links and the label of a cell survive, whatever happens to payloads. -/
theorem nodes_modifyData_some (h : (t.modifyData n g).nodes x = some xd) : ∃ xd₀,
    t.nodes x = some xd₀ ∧ xd = { xd₀ with data := if x = n then g xd₀.data else xd₀.data } := by
  rw [nodes_modifyData, map_eq_some_iff] at h
  obtain ⟨xd₀, h₀, rfl⟩ := h
  exact ⟨xd₀, h₀, rfl⟩

theorem path_modifyData : (t.modifyData n g).Path m l ↔ t.Path m l := by
  constructor
  · intro h
    induction h with
    | root => exact .root
    | snoc hd hne _ ih =>
      obtain ⟨xd₀, h₀, rfl⟩ := nodes_modifyData_some hd
      exact .snoc h₀ hne ih
  · intro h
    induction h with
    | root => exact .root
    | snoc hd hne _ ih => exact .snoc (nodes_modifyData_of_some hd) hne ih

theorem upAux_modifyData (fuel : ℕ) : (t.modifyData n g).upAux fuel m = t.upAux fuel m := by
  induction fuel generalizing m with
  | zero => rfl
  | succ fuel ih =>
    simp only [upAux, modifyData_root, nodes_modifyData, ih]
    cases t.nodes m <;> rfl

@[simp] theorem up_modifyData : (t.modifyData n g).up m = t.up m := upAux_modifyData _

end Payload

omit [DecidableEq χ] in
@[simp] theorem label_modifyData : (t.modifyData n g).label x = t.label x := by
  simp only [label, nodes_modifyData]
  cases t.nodes x <;> rfl

omit [DecidableEq χ] in
@[simp] theorem labels_modifyData : (t.modifyData n g).labels l = t.labels l := by
  induction l with
  | nil => rfl
  | cons a l ih => simp [ih]

/-- A tree is well formed if its nodes are and the dictionaries agree with the parent links. -/
theorem WF.of_nodes (hps : 0 < ps) (hroot : ∃ rd, t.nodes t.root = some rd)
    (h : ∀ n nd, t.nodes n = some nd → n < t.next ∧ (∃ l, t.Path n l) ∧
      (n ≠ t.root → units nd.key ≠ [] ∧ ps ∣ (units nd.key).length))
    (hchild : ∀ p pd, t.nodes p = some pd → ∀ ck c, pd.children.lookup ck = some c ↔ IsChild ps t p ck c) :
      WF ps t :=
  ⟨hps, hroot, fun hn => (h _ _ hn).1, fun hn => (h _ _ hn).2.1, fun hp => hchild _ _ hp,
    fun hn hne => ((h _ _ hn).2.2 hne).1, fun hn hne => ((h _ _ hn).2.2 hne).2⟩

theorem WF.modifyData (wf : WF ps t) : WF ps (t.modifyData n g) where
  ps_pos := wf.ps_pos
  root_node := by
    obtain ⟨rd, hr⟩ := wf.root_node
    exact ⟨_, nodes_modifyData_of_some hr⟩
  lt_next h := by
    obtain ⟨xd₀, h₀, -⟩ := nodes_modifyData_some h
    exact wf.lt_next h₀
  path h := by
    obtain ⟨xd₀, h₀, -⟩ := nodes_modifyData_some h
    obtain ⟨l, hl⟩ := wf.path h₀
    exact ⟨l, path_modifyData.mpr hl⟩
  child_iff hp ck c := by
    obtain ⟨pd₀, hp₀, rfl⟩ := nodes_modifyData_some hp
    rw [wf.child_iff hp₀]
    constructor
    · rintro ⟨nd, hnd, hr, hpar, hck⟩
      exact ⟨_, nodes_modifyData_of_some hnd, hr, hpar, hck⟩
    · rintro ⟨nd, hnd, hr, hpar, hck⟩
      obtain ⟨nd₀, h₀, rfl⟩ := nodes_modifyData_some hnd
      exact ⟨nd₀, h₀, hr, hpar, hck⟩
  key_ne h hne := by
    obtain ⟨xd₀, h₀, rfl⟩ := nodes_modifyData_some h
    have := wf.key_ne h₀ hne
    exact this
  key_dvd h hne := by
    obtain ⟨xd₀, h₀, rfl⟩ := nodes_modifyData_some h
    have := wf.key_dvd h₀ hne
    exact this

/-- Change the payloads of all nodes of a list. -/
def modifyAll (t : PageTree κ χ π) (l : List ℕ) (g : π → π) : PageTree κ χ π :=
  l.foldl (fun t n => t.modifyData n g) t

section ModifyAll

omit [PagedKey κ υ χ] [DecidableEq χ]

@[simp] theorem modifyAll_nil : t.modifyAll [] g = t := rfl

@[simp] theorem modifyAll_cons : t.modifyAll (c :: l) g = (t.modifyData c g).modifyAll l g := rfl

/-- What the change of one payload preserves. -/
theorem modifyAll_rule {P : PageTree κ χ π → Prop} (h : ∀ t n, P t → P (t.modifyData n g)) (ht : P t) :
    P (t.modifyAll l g) := by
  induction l generalizing t with
  | nil => exact ht
  | cons a l ih => exact ih (h t a ht)

@[simp] theorem modifyAll_root : (t.modifyAll l g).root = t.root :=
  modifyAll_rule (P := fun u => u.root = t.root) (fun _ _ h => h) rfl

@[simp] theorem modifyAll_next : (t.modifyAll l g).next = t.next :=
  modifyAll_rule (P := fun u => u.next = t.next) (fun _ _ h => h) rfl

theorem nodes_modifyAll (hl : l.Nodup) : (t.modifyAll l g).nodes x =
    (t.nodes x).map fun nd => { nd with data := if x ∈ l then g nd.data else nd.data } := by
  induction l generalizing t with
  | nil => simp
  | cons a l ih =>
    rw [List.nodup_cons] at hl
    rw [modifyAll_cons, ih hl.2, nodes_modifyData, Option.map_map]
    congr 1
    funext nd
    by_cases hxa : x = a
    · subst hxa
      simp [hl.1]
    · simp [hxa]

/-- A change that is taken back leaves the tree as it was. -/
theorem modifyAll_cancel {g' : π → π} (hl : l.Nodup) (hg : ∀ d, g' (g d) = d) :
    (t.modifyAll l g).modifyAll l g' = t := by
  have hnodes : ((t.modifyAll l g).modifyAll l g').nodes = t.nodes := by
    funext x
    rw [nodes_modifyAll hl, nodes_modifyAll hl]
    cases t.nodes x with
    | none => rfl
    | some nd => by_cases hx : x ∈ l <;> simp [hx, hg]
  cases t with
  | mk nodes root next =>
    have hroot : ((PageTree.mk nodes root next).modifyAll l g |>.modifyAll l g').root = root := by simp
    have hnext : ((PageTree.mk nodes root next).modifyAll l g |>.modifyAll l g').next = next := by simp
    exact (PageTree.mk.injEq ..).mpr ⟨hnodes, hroot, hnext⟩

theorem path_modifyAll : (t.modifyAll l' g).Path m l ↔ t.Path m l :=
  modifyAll_rule (P := fun u => u.Path m l ↔ t.Path m l) (fun _ _ => path_modifyData.trans) .rfl

@[simp] theorem up_modifyAll : (t.modifyAll l g).up m = t.up m :=
  modifyAll_rule (P := fun u => u.up m = t.up m) (fun _ _ => up_modifyData.trans) rfl

end ModifyAll

/-! ## Splitting a node -/

/-- A list of nodes with `w` put right above `c`. -/
def insertAbove (c w : ℕ) (l : List ℕ) : List ℕ := l.flatMap fun x => if x = c then [w, c] else [x]

@[simp] theorem insertAbove_nil (c w : ℕ) : insertAbove c w [] = [] := rfl

@[simp] theorem insertAbove_append (c w : ℕ) (l l' : List ℕ) :
    insertAbove c w (l ++ l') = insertAbove c w l ++ insertAbove c w l' := by
  simp [insertAbove]

theorem insertAbove_of_notMem (h : c ∉ l) : insertAbove c w l = l := by
  induction l with
  | nil => rfl
  | cons a l ih =>
    have ha : a ≠ c := fun he => h (by simp [he])
    have hl : c ∉ l := fun hm => h (by simp [hm])
    have := ih hl
    simp only [insertAbove] at this
    simp [insertAbove, ha, this]

theorem mem_insertAbove : x ∈ insertAbove c w l ↔ x ∈ l ∨ (x = w ∧ c ∈ l) := by
  simp only [insertAbove, List.mem_flatMap]
  constructor
  · rintro ⟨a, ha, hx⟩
    split at hx
    · next hac =>
      subst hac
      rcases List.mem_cons.mp hx with rfl | hx
      · exact .inr ⟨rfl, ha⟩
      · exact .inl (by simpa using (List.mem_singleton.mp hx) ▸ ha)
    · exact .inl ((List.mem_singleton.mp hx) ▸ ha)
  · rintro (hx | ⟨rfl, hc⟩)
    · refine ⟨x, hx, ?_⟩
      split <;> simp_all
    · exact ⟨c, hc, by simp⟩

/-- What is read along a list with `w` put above `c`, if both together hold what `c` held. -/
theorem flatMap_insertAbove {β : Type*} {F G : ℕ → List β} (hl : w ∉ l) (hc : G w ++ G c = F c)
    (hother : ∀ x, x ≠ w → x ≠ c → G x = F x) : (insertAbove c w l).flatMap G = l.flatMap F := by
  rw [insertAbove, List.flatMap_assoc]
  refine List.flatMap_congr fun x hx => ?_
  split
  · next hxc => simp [hxc, hc]
  · next hxc => simp [hother x (fun hxw => hl (hxw ▸ hx)) hxc]

section Split

variable (wf : WF ps t) (hc : t.nodes c = some nd) (hne : c ≠ t.root)

theorem splitAt_snd (hc : t.nodes c = some nd) : (splitAt ps t c m up down).2 = t.next := by
  simp [splitAt, hc]

@[simp] theorem splitAt_root : (splitAt ps t c m up down).1.root = t.root := by
  simp only [splitAt]
  split <;> rfl

theorem splitAt_next (hc : t.nodes c = some nd) : (splitAt ps t c m up down).1.next = t.next + 1 := by
  simp [splitAt, hc]

include wf hc hne

theorem nodes_splitAt_upper : (splitAt ps t c m up down).1.nodes t.next =
    some ⟨nd.parent, AList.singleton (childKey ps (drop nd.key m)) c, take nd.key m, up nd.data⟩ := by
  obtain ⟨pd, hpd⟩ := wf.parent_node hc hne
  have h₁ : t.next ≠ nd.parent := (wf.lt_next hpd).ne'
  have h₂ : t.next ≠ c := (wf.lt_next hc).ne'
  simp [splitAt, hc, update_apply, h₁, h₂]

theorem nodes_splitAt_lower : (splitAt ps t c m up down).1.nodes c =
    some { nd with parent := t.next, key := drop nd.key m, data := down nd.data } := by
  simp [splitAt, hc, update_apply, (wf.parent_ne hc hne).symm]

theorem nodes_splitAt_parent (hp : t.nodes nd.parent = some pd) :
    (splitAt ps t c m up down).1.nodes nd.parent =
      some { pd with children := pd.children.insert (childKey ps nd.key) t.next } := by
  simp [splitAt, hc, wf.parent_ne hc hne, (wf.lt_next hp).ne, hp]

omit wf hne in
theorem nodes_splitAt_other (h₁ : x ≠ t.next) (h₂ : x ≠ c) (h₃ : x ≠ nd.parent) :
    (splitAt ps t c m up down).1.nodes x = t.nodes x := by
  simp [splitAt, hc, update_apply, h₁, h₂, h₃]

/-- A split leaves every cell but the two halves alone, up to the dictionary of the parent. -/
theorem core_splitAt (h₁ : x ≠ t.next) (h₂ : x ≠ c) :
    ((splitAt ps t c m up down).1.nodes x).map core = (t.nodes x).map core := by
  by_cases h₃ : x = nd.parent
  · obtain ⟨pd, hpd⟩ := wf.parent_node hc hne
    subst h₃
    simp [nodes_splitAt_parent wf hc hne hpd, hpd, core]
  · rw [nodes_splitAt_other hc h₁ h₂ h₃]

theorem label_splitAt_upper [LawfulPagedKey κ] :
    (splitAt ps t c m up down).1.label t.next = (t.label c).take m := by
  rw [label_eq (nodes_splitAt_upper wf hc hne), label_eq hc, units_take]

theorem label_splitAt_lower [LawfulPagedKey κ] : (splitAt ps t c m up down).1.label c = (t.label c).drop m := by
  rw [label_eq (nodes_splitAt_lower wf hc hne), label_eq hc]
  exact units_drop _ _

theorem path_splitAt (h : t.Path n l) : (splitAt ps t c m up down).1.Path n (insertAbove c t.next l) := by
  induction h with
  | root =>
    have hroot : (splitAt ps t c m up down).1.root = t.root := splitAt_root
    simpa only [hroot, insertAbove_nil] using Path.root (t := (splitAt ps t c m up down).1)
  | @snoc d l₀ dd hd hdr hp ih =>
    have hroot : d ≠ (splitAt ps t c m up down).1.root := by simpa using hdr
    by_cases hdc : d = c
    · subst hdc
      rw [hc] at hd
      cases hd
      have hw : t.next ≠ (splitAt ps t d m up down).1.root := by simpa using wf.root_lt.ne'
      have hupper := Path.snoc (nodes_splitAt_upper wf hc hne) hw ih
      have hlower := Path.snoc (nodes_splitAt_lower wf hc hne) hroot hupper
      simpa [insertAbove] using hlower
    · have hdw : d ≠ t.next := (wf.lt_next hd).ne
      obtain ⟨dd', hdd', hcore'⟩ : ∃ dd', (splitAt ps t c m up down).1.nodes d = some dd' ∧ _ :=
        core_some (core_splitAt wf hc hne hdw hdc).symm hd
      have hpar : dd'.parent = dd.parent := congrArg Prod.fst hcore'
      have := Path.snoc hdd' hroot (hpar ▸ ih)
      simpa [insertAbove, hdc] using this

/-- The fresh node sits where the split node was. -/
theorem path_splitAt_upper (h : t.Path c (l ++ [c])) :
    (splitAt ps t c m up down).1.Path t.next (l ++ [t.next]) := by
  have h' : (splitAt ps t c m up down).1.Path c _ := path_splitAt wf hc hne h
  have hlist : insertAbove c t.next (l ++ [c]) = l ++ t.next :: [c] := by
    rw [insertAbove_append, insertAbove_of_notMem h.end_notMem]
    simp [insertAbove]
  exact (hlist ▸ h').of_append

/-- A cell of the heap after a split is one of the two halves or has the core of an old cell. -/
theorem nodes_splitAt_cases (hx : (splitAt ps t c m up down).1.nodes x = some xd) :
    (x = t.next ∧ xd = ⟨nd.parent, AList.singleton (childKey ps (drop nd.key m)) c, take nd.key m,
      up nd.data⟩) ∨
    (x = c ∧ xd = { nd with
      parent := t.next, key := drop nd.key m, data := down nd.data }) ∨
    (x ≠ t.next ∧ x ≠ c ∧ ∃ xd₀, t.nodes x = some xd₀ ∧ xd₀.core = xd.core) := by
  by_cases hxw : x = t.next
  · subst hxw
    rw [nodes_splitAt_upper wf hc hne] at hx
    exact .inl ⟨rfl, (some.inj hx).symm⟩
  · by_cases hxc : x = c
    · subst hxc
      rw [nodes_splitAt_lower wf hc hne] at hx
      exact .inr (.inl ⟨rfl, (some.inj hx).symm⟩)
    · exact .inr (.inr ⟨hxw, hxc, core_some (core_splitAt wf hc hne hxw hxc) hx⟩)

/-- The other nodes were there before. -/
theorem path_of_splitAt (hn : n ≠ t.next) (h : (splitAt ps t c m up down).1.Path n l') :
    ∃ l, t.Path n l ∧ l' = insertAbove c t.next l := by
  have hold : ∃ xd, t.nodes n = some xd := by
    rcases h.last with ⟨rfl, -⟩ | ⟨hnr, -⟩
    · rw [splitAt_root]
      exact wf.root_node
    · obtain ⟨-, xd, hxd⟩ := h.node_of_mem (h.mem_self hnr)
      rcases nodes_splitAt_cases wf hc hne hxd with ⟨rfl, -⟩ | ⟨rfl, -⟩ | ⟨-, -, xd₀, h₀, -⟩
      · exact absurd rfl hn
      · exact ⟨_, hc⟩
      · exact ⟨_, h₀⟩
  obtain ⟨xd, hxd⟩ := hold
  obtain ⟨l, hl⟩ := wf.path hxd
  exact ⟨l, hl, h.functional (path_splitAt wf hc hne hl)⟩

theorem labels_splitAt [LawfulPagedKey κ] (hl : t.next ∉ l) :
    (splitAt ps t c m up down).1.labels (insertAbove c t.next l) = t.labels l := by
  refine flatMap_insertAbove hl ?_ fun x hxw hxc => label_congr (core_splitAt wf hc hne hxw hxc)
  rw [label_splitAt_upper wf hc hne, label_splitAt_lower wf hc hne, List.take_append_drop]

/-- The new path spells what the old one did above the split node, and the upper half of its label. -/
theorem labels_splitAt_upper [LawfulPagedKey κ] (h : t.Path c (l ++ [c])) :
    (splitAt ps t c m up down).1.labels (l ++ [t.next]) = t.labels l ++ (units nd.key).take m := by
  have hlab : (splitAt ps t c m up down).1.labels _ = _ := labels_splitAt wf hc hne (wf.next_notMem_left h)
  rw [insertAbove_of_notMem h.end_notMem] at hlab
  rw [labels_append, labels_cons, labels_nil, List.append_nil, hlab, label_splitAt_upper wf hc hne, label_eq hc]

theorem isChild_splitAt [LawfulPagedKey κ] (hps : ps ≤ m) (hm : m ≤ (units nd.key).length) :
    IsChild ps (splitAt ps t c m up down).1 p ck x ↔ (nd.parent = p ∧ ck = childKey ps nd.key ∧ x = t.next) ∨
      (t.next = p ∧ ck = childKey ps (drop nd.key m) ∧ x = c) ∨
      (x ≠ c ∧ IsChild ps t p ck x) := by
  have hcw : c ≠ t.next := (wf.lt_next hc).ne
  by_cases hxw : x = t.next
  · subst hxw
    have hkey : childKey ps (take nd.key m) = childKey ps nd.key := by
      rw [LawfulPagedKey.childKey_inj wf.ps_pos (by rw [units_take, List.length_take]; omega)
        (wf.ps_le hc hne), units_take, List.take_take, min_eq_left hps]
    simp [IsChild, nodes_splitAt_upper wf hc hne, wf.nodes_next, hkey, hcw.symm, wf.root_lt.ne',
      eq_comm (a := ck)]
  · by_cases hxc : x = c
    · subst hxc
      simp [IsChild, nodes_splitAt_lower wf hc hne, hxw, hne, eq_comm (a := ck)]
    · rw [isChild_congr (splitAt_root) (core_splitAt wf hc hne hxw hxc)]
      simp [hxw, hxc]

/-- The dictionaries agree with the parent links after a split. -/
theorem lookup_splitAt [LawfulPagedKey κ] (hps : ps ≤ m) (hm : m ≤ (units nd.key).length)
    (hp : (splitAt ps t c m up down).1.nodes p = some pd) (ck : χ) :
    pd.children.lookup ck = some x ↔ IsChild ps (splitAt ps t c m up down).1 p ck x := by
  have hcw : c ≠ t.next := (wf.lt_next hc).ne
  rw [isChild_splitAt wf hc hne hps hm]
  by_cases hpw : p = t.next
  · subst hpw
    rw [nodes_splitAt_upper wf hc hne] at hp
    cases hp
    obtain ⟨pd, hpd⟩ := wf.parent_node hc hne
    have hpn : nd.parent ≠ t.next := (wf.lt_next hpd).ne
    rw [← AList.insert_empty, Dict.lookup_insert_iff]
    simp [wf.no_child_next, hpn]
  · by_cases hpc : p = c
    · subst hpc
      rw [nodes_splitAt_lower wf hc hne] at hp
      cases hp
      have hno : ¬ IsChild ps t p ck p := by
        rintro ⟨xd, hx, hxr, hpar, -⟩
        exact wf.parent_ne hx hxr hpar
      rw [wf.child_iff hc]
      simp only [wf.parent_ne hc hne, hcw.symm, false_and, false_or]
      exact ⟨fun h => ⟨fun he => hno (he ▸ h), h⟩, And.right⟩
    · obtain ⟨pd₀, hp₀⟩ : ∃ pd₀, t.nodes p = some pd₀ := by
        obtain ⟨pd₀, h₀, -⟩ := core_some (core_splitAt wf hc hne hpw hpc) hp
        exact ⟨pd₀, h₀⟩
      by_cases hpp : nd.parent = p
      · subst hpp
        rw [nodes_splitAt_parent wf hc hne hp₀] at hp
        cases hp
        rw [Dict.lookup_insert_iff, wf.child_iff hp₀]
        change _ ∨ _ ∧ IsChild ps t _ ck x ↔ _
        simp only [Ne.symm hpw, true_and, false_and, false_or]
        exact or_congr_right (and_congr_left fun hx => hx.key_ne_iff wf hc hne)
      · rw [nodes_splitAt_other hc hpw hpc (Ne.symm hpp)] at hp
        rw [wf.child_iff hp]
        change IsChild ps t p ck x ↔ _
        simp only [hpp, Ne.symm hpw, false_and, false_or]
        exact ⟨fun h => ⟨h.ne hc hpp, h⟩, And.right⟩

theorem WF.splitAt [LawfulPagedKey κ] (hm₀ : 0 < m) (hm : m < (units nd.key).length)
    (hdvd : ps ∣ m) : WF ps (splitAt ps t c m up down).1 := by
  have hps : ps ≤ m := Nat.le_of_dvd hm₀ hdvd
  refine .of_nodes wf.ps_pos ?_ ?_ ?_
  · obtain ⟨rd, hr⟩ := wf.root_node
    rw [splitAt_root]
    exact (core_some (core_splitAt wf hc hne wf.root_lt.ne hne.symm).symm hr).imp fun _ => And.left
  · intro x xd hx
    rw [splitAt_next hc, splitAt_root]
    rcases nodes_splitAt_cases wf hc hne hx with ⟨rfl, rfl⟩ | ⟨rfl, rfl⟩ | ⟨-, -, xd₀, h₀, hcore⟩
    · refine ⟨Nat.lt_succ_self _, ?_, fun _ => ?_⟩
      · obtain ⟨l, hl⟩ := wf.path hc
        obtain ⟨l₀, rfl, -⟩ := hl.parent hc hne
        exact ⟨_, path_splitAt_upper wf hc hne hl⟩
      · simp only [units_take, ne_eq, ← List.length_eq_zero_iff, List.length_take, min_eq_left hm.le]
        exact ⟨hm₀.ne', hdvd⟩
    · obtain ⟨l, hl⟩ := wf.path hc
      refine ⟨(wf.lt_next hc).trans (Nat.lt_succ_self _), ⟨_, path_splitAt wf hc hne hl⟩, fun _ => ?_⟩
      simp only [units_drop, ne_eq, ← List.length_eq_zero_iff, List.length_drop]
      exact ⟨by omega, Nat.dvd_sub (wf.key_dvd hc hne) hdvd⟩
    · obtain ⟨l, hl⟩ := wf.path h₀
      refine ⟨(wf.lt_next h₀).trans (Nat.lt_succ_self _), ⟨_, path_splitAt wf hc hne hl⟩, fun hxr => ?_⟩
      rw [← (core_eq hcore).1]
      exact ⟨wf.key_ne h₀ hxr, wf.key_dvd h₀ hxr⟩
  · intro p pd hp ck x
    exact lookup_splitAt wf hc hne hps hm.le hp ck

end Split

/-! ## Hanging a leaf -/

section AddLeaf

@[simp] theorem addLeaf_root : (addLeaf ps t p key data).1.root = t.root := rfl

@[simp] theorem addLeaf_next : (addLeaf ps t p key data).1.next = t.next + 1 := rfl

variable (wf : WF ps t) (hp : t.nodes p = some pd)

include wf hp

theorem nodes_addLeaf_new : (addLeaf ps t p key data).1.nodes t.next = some ⟨p, ∅, key, data⟩ := by
  simp [addLeaf, update_apply, (wf.lt_next hp).ne']

theorem nodes_addLeaf_parent : (addLeaf ps t p key data).1.nodes p =
    some { pd with children := pd.children.insert (childKey ps key) t.next } := by
  simp [addLeaf, (wf.lt_next hp).ne, hp]

omit wf hp in
theorem nodes_addLeaf_other (h₁ : x ≠ t.next) (h₂ : x ≠ p) :
    (addLeaf ps t p key data).1.nodes x = t.nodes x := by
  simp [addLeaf, h₁, h₂]

theorem core_addLeaf (h₁ : x ≠ t.next) :
    ((addLeaf ps t p key data).1.nodes x).map core = (t.nodes x).map core := by
  by_cases h₂ : x = p
  · subst h₂
    simp [nodes_addLeaf_parent wf hp, hp, core]
  · rw [nodes_addLeaf_other h₁ h₂]

theorem modifyData_addLeaf (g : π → π) : (addLeaf ps t p key data).1.modifyData t.next g =
    (addLeaf ps t p key (g data)).1 := by
  have hpw : p ≠ t.next := (wf.lt_next hp).ne
  unfold addLeaf modifyData modify
  congr 1
  funext x
  by_cases hx : x = t.next
  · subst hx
    simp [hpw.symm]
  · by_cases hxp : x = p <;> simp [hx, hxp, hpw]

theorem path_addLeaf (h : t.Path n l) : (addLeaf ps t p key data).1.Path n l :=
  h.transfer addLeaf_root fun _ hx => core_addLeaf wf hp (wf.path_lt h hx).ne

theorem path_addLeaf_new (h : t.Path p l) : (addLeaf ps t p key data).1.Path t.next (l ++ [t.next]) :=
  .snoc (nodes_addLeaf_new wf hp) wf.root_lt.ne' (path_addLeaf wf hp h)

theorem label_addLeaf_new : (addLeaf ps t p key data).1.label t.next = units key :=
  label_eq (nodes_addLeaf_new wf hp)

theorem labels_addLeaf (hl : t.next ∉ l) : (addLeaf ps t p key data).1.labels l = t.labels l :=
  labels_congr fun _ hx => core_addLeaf wf hp fun he => hl (he ▸ hx)

theorem nodes_addLeaf_cases (hx : (addLeaf ps t p key data).1.nodes x = some xd) :
    (x = t.next ∧ xd = ⟨p, ∅, key, data⟩) ∨
    (x ≠ t.next ∧ ∃ xd₀, t.nodes x = some xd₀ ∧ xd₀.core = xd.core) := by
  by_cases hxw : x = t.next
  · subst hxw
    rw [nodes_addLeaf_new wf hp] at hx
    exact .inl ⟨rfl, (some.inj hx).symm⟩
  · exact .inr ⟨hxw, core_some (core_addLeaf wf hp hxw) hx⟩

/-- The other nodes were there before. -/
theorem path_of_addLeaf (hn : n ≠ t.next) (h : (addLeaf ps t p key data).1.Path n l) : t.Path n l := by
  rcases h.last with ⟨rfl, rfl⟩ | ⟨hnr, -⟩
  · exact .root
  · obtain ⟨-, xd, hxd⟩ := h.node_of_mem (h.mem_self hnr)
    rcases nodes_addLeaf_cases wf hp hxd with ⟨rfl, -⟩ | ⟨-, xd₀, h₀, -⟩
    · exact absurd rfl hn
    · obtain ⟨l₁, hl₁⟩ := wf.path h₀
      rwa [h.functional (path_addLeaf wf hp hl₁)]

theorem isChild_addLeaf {q : ℕ} : IsChild ps (addLeaf ps t p key data).1 q ck x ↔
    (p = q ∧ ck = childKey ps key ∧ x = t.next) ∨ IsChild ps t q ck x := by
  by_cases hxw : x = t.next
  · subst hxw
    simp [IsChild, nodes_addLeaf_new wf hp, wf.nodes_next, wf.root_lt.ne', eq_comm (a := ck)]
  · rw [isChild_congr addLeaf_root (core_addLeaf wf hp hxw)]
    simp [hxw]

theorem lookup_addLeaf (hck : t.child p (childKey ps key) = none) {q : ℕ}
    {qd : Node κ χ π} (hq : (addLeaf ps t p key data).1.nodes q = some qd) (ck : χ) :
    qd.children.lookup ck = some x ↔ IsChild ps (addLeaf ps t p key data).1 q ck x := by
  rw [isChild_addLeaf wf hp]
  rcases eq_or_ne q t.next with rfl | hqw
  · rw [nodes_addLeaf_new wf hp] at hq
    cases hq
    simp [wf.no_child_next, (wf.lt_next hp).ne]
  · rcases eq_or_ne q p with rfl | hqp
    · rw [nodes_addLeaf_parent wf hp] at hq
      cases hq
      rw [Dict.lookup_insert_iff, wf.child_iff hp]
      simp only [true_and]
      refine or_congr_right ⟨And.right, fun h => ⟨?_, h⟩⟩
      rintro rfl
      rw [(wf.child_eq_some hp).mpr h] at hck
      cases hck
    · rw [nodes_addLeaf_other hqw hqp] at hq
      rw [wf.child_iff hq]
      simp [hqp.symm, IsChild]

theorem WF.addLeaf (hck : t.child p (childKey ps key) = none)
    (hkey : units key ≠ []) (hdvd : ps ∣ (units key).length) :
    WF ps (addLeaf ps t p key data).1 := by
  refine .of_nodes wf.ps_pos ?_ ?_ ?_
  · obtain ⟨rd, hr⟩ := wf.root_node
    exact (core_some (core_addLeaf wf hp wf.root_lt.ne).symm hr).imp fun _ => And.left
  · intro x xd hx
    rcases nodes_addLeaf_cases wf hp hx with ⟨rfl, rfl⟩ | ⟨-, xd₀, h₀, hcore⟩
    · obtain ⟨l, hl⟩ := wf.path hp
      exact ⟨Nat.lt_succ_self _, ⟨_, path_addLeaf_new wf hp hl⟩, fun _ => ⟨hkey, hdvd⟩⟩
    · obtain ⟨l, hl⟩ := wf.path h₀
      refine ⟨(wf.lt_next h₀).trans (Nat.lt_succ_self _), ⟨l, path_addLeaf wf hp hl⟩, fun hxr => ?_⟩
      rw [← (core_eq hcore).1]
      exact ⟨wf.key_ne h₀ hxr, wf.key_dvd h₀ hxr⟩
  · intro q qd hq ck x
    exact lookup_addLeaf wf hp hck hq ck

end AddLeaf

/-! ## Removing a leaf -/

section RemoveLeaf

/-- `c` has no children. -/
def Leaf (t : PageTree κ χ π) (c : ℕ) : Prop :=
  ∀ x xd, t.nodes x = some xd → x ≠ t.root → xd.parent ≠ c

/-- The dictionary of a node is empty exactly when it has no children. -/
theorem WF.leaf_iff (wf : WF ps t) (hc : t.nodes c = some nd) : t.Leaf c ↔ nd.children.entries = [] := by
  constructor
  · intro h
    by_contra hne
    obtain ⟨⟨ck, x⟩, hmem⟩ := List.exists_mem_of_ne_nil _ hne
    have hlook : nd.children.lookup ck = some x := AList.mem_lookup_iff.mpr hmem
    obtain ⟨xd, hxd, hxr, hpar, -⟩ := (wf.child_iff hc ck x).mp hlook
    exact h x xd hxd hxr hpar
  · intro h x xd hxd hxr hpar
    have hlook := (wf.child_iff hc (childKey ps xd.key) x).mpr ⟨xd, hxd, hxr, hpar, rfl⟩
    have hmem := AList.mem_lookup_iff.mp hlook
    rw [h] at hmem
    cases hmem

@[simp] theorem removeLeaf_root : (removeLeaf ps t c).root = t.root := by
  simp only [removeLeaf]
  split <;> rfl

@[simp] theorem removeLeaf_next : (removeLeaf ps t c).next = t.next := by
  simp only [removeLeaf]
  split <;> rfl

variable (wf : WF ps t) (hc : t.nodes c = some nd) (hne : c ≠ t.root)

include hc in
@[simp] theorem nodes_removeLeaf_self : (removeLeaf ps t c).nodes c = none := by
  simp [removeLeaf, hc]

include wf hc hne

theorem nodes_removeLeaf_parent (hp : t.nodes nd.parent = some pd) : (removeLeaf ps t c).nodes nd.parent =
      some { pd with children := pd.children.erase (childKey ps nd.key) } := by
  simp [removeLeaf, hc, hp, wf.parent_ne hc hne]

omit wf hne in
theorem nodes_removeLeaf_other (h₁ : x ≠ c) (h₂ : x ≠ nd.parent) : (removeLeaf ps t c).nodes x = t.nodes x := by
  simp [removeLeaf, hc, h₁, h₂]

theorem core_removeLeaf (h₁ : x ≠ c) : ((removeLeaf ps t c).nodes x).map core = (t.nodes x).map core := by
  by_cases h₂ : x = nd.parent
  · obtain ⟨pd, hpd⟩ := wf.parent_node hc hne
    subst h₂
    simp [nodes_removeLeaf_parent wf hc hne hpd, hpd, core]
  · rw [nodes_removeLeaf_other hc h₁ h₂]

theorem path_removeLeaf (hl : c ∉ l) (h : t.Path n l) : (removeLeaf ps t c).Path n l :=
  h.transfer removeLeaf_root fun _ hx => core_removeLeaf wf hc hne fun he => hl (he ▸ hx)

theorem path_of_removeLeaf (h : (removeLeaf ps t c).Path n l) : t.Path n l := by
  refine h.transfer removeLeaf_root.symm fun x hx => ?_
  obtain ⟨-, xd, hxd⟩ := h.node_of_mem hx
  refine (core_removeLeaf wf hc hne ?_).symm
  rintro rfl
  rw [nodes_removeLeaf_self hc] at hxd
  cases hxd

theorem labels_removeLeaf (hl : c ∉ l) : (removeLeaf ps t c).labels l = t.labels l :=
  labels_congr fun _ hx => core_removeLeaf wf hc hne fun he => hl (he ▸ hx)

theorem nodes_removeLeaf_cases (hx : (removeLeaf ps t c).nodes x = some xd) :
    x ≠ c ∧ ∃ xd₀, t.nodes x = some xd₀ ∧ xd₀.core = xd.core := by
  have hxc : x ≠ c := by
    rintro rfl
    rw [nodes_removeLeaf_self hc] at hx
    cases hx
  exact ⟨hxc, core_some (core_removeLeaf wf hc hne hxc) hx⟩

omit wf hc hne [PagedKey κ υ χ] [DecidableEq χ] in
/-- A childless node is on no path but its own. -/
theorem Leaf.notMem (hleaf : t.Leaf c) (h : t.Path n l) (hnc : n ≠ c) : c ∉ l := by
  intro hmem
  obtain ⟨l₁, l₂, rfl⟩ := List.append_of_mem hmem
  cases l₂ with
  | nil =>
    rcases h.last with ⟨-, hl⟩ | ⟨-, l₀, hl⟩
    · simp at hl
    · exact hnc (by simpa using (List.append_inj' hl rfl).2.symm)
  | cons x l₂ =>
    have hx : t.Path x ((l₁ ++ [c]) ++ [x]) := by
      have : l₁ ++ c :: x :: l₂ = (l₁ ++ [c]) ++ x :: l₂ := by simp
      exact (this ▸ h).of_append
    obtain ⟨hxr, xd, hxd⟩ := h.node_of_mem (c := x) (by simp)
    obtain ⟨l₀, heq, hp⟩ := hx.parent hxd hxr
    obtain rfl := (List.append_inj' heq rfl).1
    have hpc : xd.parent = c := hp.end_unique h.of_append
    exact hleaf x xd hxd hxr hpc

theorem isChild_removeLeaf {q : ℕ} : IsChild ps (removeLeaf ps t c) q ck x ↔ x ≠ c ∧ IsChild ps t q ck x := by
  rcases eq_or_ne x c with rfl | hxc
  · simp [IsChild, nodes_removeLeaf_self hc]
  · rw [isChild_congr removeLeaf_root (core_removeLeaf wf hc hne hxc)]
    simp [hxc]

theorem lookup_removeLeaf {q : ℕ} {qd : Node κ χ π} (hq : (removeLeaf ps t c).nodes q = some qd) (ck : χ) :
    qd.children.lookup ck = some x ↔ IsChild ps (removeLeaf ps t c) q ck x := by
  rw [isChild_removeLeaf wf hc hne]
  obtain ⟨hqc, qd₀, hq₀, -⟩ := nodes_removeLeaf_cases wf hc hne hq
  rcases eq_or_ne q nd.parent with rfl | hqp
  · rw [nodes_removeLeaf_parent wf hc hne hq₀] at hq
    cases hq
    rw [Dict.lookup_erase_iff, wf.child_iff hq₀]
    exact and_congr_left fun hx => IsChild.key_ne_iff hx wf hc hne
  · rw [nodes_removeLeaf_other hc hqc hqp] at hq
    rw [wf.child_iff hq]
    exact ⟨fun h => ⟨IsChild.ne h hc (Ne.symm hqp), h⟩, And.right⟩

theorem WF.removeLeaf (hleaf : t.Leaf c) : WF ps (removeLeaf ps t c) := by
  refine .of_nodes wf.ps_pos ?_ ?_ ?_
  · obtain ⟨rd, hr⟩ := wf.root_node
    obtain ⟨rd', hr', -⟩ := core_some (core_removeLeaf wf hc hne hne.symm).symm hr
    exact ⟨rd', by rw [removeLeaf_root]; exact hr'⟩
  · intro x xd hx
    obtain ⟨hxc, xd₀, h₀, hcore⟩ := nodes_removeLeaf_cases wf hc hne hx
    obtain ⟨l, hl⟩ := wf.path h₀
    rw [removeLeaf_next, removeLeaf_root, ← (core_eq hcore).1]
    exact ⟨wf.lt_next h₀, ⟨l, path_removeLeaf wf hc hne (hleaf.notMem hl hxc) hl⟩, fun hxr =>
      ⟨wf.key_ne h₀ hxr, wf.key_dvd h₀ hxr⟩⟩
  · intro q qd hq ck x
    exact lookup_removeLeaf wf hc hne hq ck

end RemoveLeaf

/-! ## A tree that is only a root -/

omit [PagedKey κ υ χ] [DecidableEq χ] in
theorem nodes_single {root : ℕ} (h : (single root key data : PageTree κ χ π).nodes n = some nd) :
    n = root ∧ nd = ⟨root, ∅, key, data⟩ := by
  simpa [single, eq_comm] using h

theorem WF.single {root : ℕ} (hps : 0 < ps) : WF ps (single root key data : PageTree κ χ π) := by
  refine .of_nodes hps ⟨_, if_pos rfl⟩ (fun n nd h => ?_) fun p pd hp ck c => ?_
  · obtain ⟨rfl, rfl⟩ := nodes_single h
    exact ⟨Nat.lt_succ_self _, ⟨[], .root⟩, fun hne => absurd rfl hne⟩
  · obtain ⟨rfl, rfl⟩ := nodes_single hp
    simp +contextual [PageTree.single, IsChild]

/-! ## Sums over the nodes below the root -/

section Sums

variable {M : Type*} [AddCommMonoid M] (f : κ → π → M)

/-- What one address contributes to a sum over the tree. -/
def contrib (t : PageTree κ χ π) (n : ℕ) : M :=
  if n = t.root then 0 else ((t.nodes n).map fun nd => f nd.key nd.data).getD 0

/-- The sum of `f` over all nodes but the root. -/
def sum (t : PageTree κ χ π) : M := ∑ n ∈ Finset.range t.next, t.contrib f n

section

omit [PagedKey κ υ χ] [DecidableEq χ]

theorem contrib_eq (hc : t.nodes c = some nd) (hne : c ≠ t.root) : t.contrib f c = f nd.key nd.data := by
  simp [contrib, hne, hc]

theorem contrib_congr (hroot : t'.root = t.root) (h : (t'.nodes x).map core = (t.nodes x).map core) :
    t'.contrib f x = t.contrib f x := by
  rw [contrib, contrib, hroot, map_congr_core f h]

theorem sum_modifyData_root : (t.modifyData t.root g).sum f = t.sum f := by
  refine sum_congr rfl fun x _ => ?_
  by_cases hx : x = t.root
  · simp [contrib, hx]
  · exact contrib_congr f modifyData_root (by rw [nodes_modifyData_ne hx])

/-- A payload change that `f` cannot see. -/
theorem sum_modifyData_congr (h : ∀ k d, f k (g d) = f k d) : (t.modifyData c g).sum f = t.sum f := by
  refine sum_congr rfl fun x _ => ?_
  simp only [contrib, modifyData_root, nodes_modifyData]
  cases t.nodes x with
  | none => rfl
  | some xd => by_cases hx : x = c <;> simp [hx, h]

/-- A property of sums that every node has. -/
theorem sum_induction {P : M → Prop} (hadd : ∀ x y, P x → P y → P (x + y)) (hzero : P 0)
    (h : ∀ n nd, t.nodes n = some nd → n ≠ t.root → P (f nd.key nd.data)) : P (t.sum f) := by
  refine Finset.sum_induction _ P hadd hzero fun x _ => ?_
  unfold contrib
  split
  · exact hzero
  · next hne =>
    cases hx : t.nodes x with
    | none => exact hzero
    | some nd => exact h x nd hx hne

theorem sum_zero (h : ∀ n nd, t.nodes n = some nd → n ≠ t.root → f nd.key nd.data = 0) : t.sum f = 0 :=
  sum_induction (P := (· = 0)) f (fun _ _ hx hy => by rw [hx, hy, add_zero]) rfl h

@[simp] theorem sum_single {root : ℕ} : (single root key data : PageTree κ χ π).sum f = 0 :=
  sum_zero f fun _ _ hn hne => absurd (nodes_single hn).1 hne

end

theorem sum_add_of_agree {F G : ℕ → M} {s : Finset ℕ} (hc : c ∈ s)
    (h : ∀ x ∈ s, x ≠ c → F x = G x) : ∑ x ∈ s, F x + G c = ∑ x ∈ s, G x + F c := by
  rw [← add_sum_erase s F hc, ← add_sum_erase s G hc,
    sum_congr rfl fun x hx => h x (mem_of_mem_erase hx) (ne_of_mem_erase hx)]
  abel

theorem sum_modifyData (wf : WF ps t) (hc : t.nodes c = some nd) (hne : c ≠ t.root) :
    (t.modifyData c g).sum f + f nd.key nd.data = t.sum f + f nd.key (g nd.data) := by
  have h₁ : (t.modifyData c g).contrib f c = f nd.key (g nd.data) :=
    contrib_eq f (nodes_modifyData_self hc) hne
  rw [← contrib_eq f hc hne, ← h₁]
  refine sum_add_of_agree (mem_range.mpr (wf.lt_next hc)) fun x _ hx => ?_
  exact contrib_congr f modifyData_root (by rw [nodes_modifyData_ne hx])

theorem sum_splitAt (m : ℕ) (up down : π → π) (wf : WF ps t) (hc : t.nodes c = some nd)
    (hne : c ≠ t.root) : (splitAt ps t c m up down).1.sum f + f nd.key nd.data =
      t.sum f + f (take nd.key m) (up nd.data) + f (drop nd.key m) (down nd.data) := by
  have hroot : (splitAt ps t c m up down).1.root = t.root := splitAt_root
  have hup := contrib_eq f (nodes_splitAt_upper wf hc hne) (by rw [hroot]; exact wf.root_lt.ne')
  have hdown := contrib_eq f (nodes_splitAt_lower wf hc hne) (by rw [hroot]; exact hne)
  simp only at hup hdown
  rw [sum, splitAt_next hc, sum_range_succ, hup, ← contrib_eq f hc hne, ← hdown,
    add_right_comm, sum_add_of_agree (mem_range.mpr (wf.lt_next hc)) fun x hx hxc =>
      contrib_congr f hroot (core_splitAt wf hc hne (mem_range.mp hx).ne hxc)]
  rw [sum]
  abel

theorem sum_addLeaf (wf : WF ps t) (hp : t.nodes p = some pd) :
    (addLeaf ps t p key data).1.sum f = t.sum f + f key data := by
  rw [sum, addLeaf_next, sum_range_succ, contrib_eq f (nodes_addLeaf_new wf hp) wf.root_lt.ne']
  congr 1
  exact sum_congr rfl fun x hx =>
    contrib_congr f addLeaf_root (core_addLeaf wf hp (mem_range.mp hx).ne)

theorem sum_removeLeaf (wf : WF ps t) (hc : t.nodes c = some nd) (hne : c ≠ t.root) :
    (removeLeaf ps t c).sum f + f nd.key nd.data = t.sum f := by
  have hzero : (removeLeaf ps t c).contrib f c = 0 := by
    simp [contrib, nodes_removeLeaf_self hc]
  rw [← contrib_eq f hc hne, ← add_zero (t.sum f), ← hzero, sum, removeLeaf_next]
  exact sum_add_of_agree (mem_range.mpr (wf.lt_next hc)) fun x _ hx =>
    contrib_congr f removeLeaf_root (core_removeLeaf wf hc hne hx)

end Sums

end PageTree

end SGLang.Lib
