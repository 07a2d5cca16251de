/-
# SGLang.Lib.PageTreeHashes — page trees whose nodes carry the hashes of their pages.

Nodes of a page tree may carry a list of hashes, one per page of their label. `Chained` says that a list
that is there is the right one: the hashes of the node's pages, chained from the root over the node's whole
path. Splits share out a list, a new node continues the chain of its parent, and nothing else touches a
list; so the property survives every operation of the tree.
-/
import SGLang.Lib.HashChain
import SGLang.Lib.PageTreeSlots

namespace SGLang.Lib.PageTree

open List

variable {κ υ χ π D : Type} [PagedKey κ υ χ] [DecidableEq χ]
/-! ## What lies above a node -/

/-- The units spelled out above the node `n`. -/
def Above (t : PageTree κ χ π) (n : ℕ) (us : List υ) : Prop :=
  ∃ l, t.Path n (l ++ [n]) ∧ t.labels l = us

section Above

variable {ps : ℕ} {t : PageTree κ χ π} {n c m p : ℕ} {nd pd : Node κ χ π} {up down g : π → π}
variable {key : κ} {data : π} {us us' : List υ} {l : List ℕ}

omit [DecidableEq χ] in
theorem Above.functional (h : t.Above n us) (h' : t.Above n us') : us = us' := by
  rcases h with ⟨l, hl, rfl⟩
  rcases h' with ⟨l', hl', rfl⟩
  rw [append_cancel_right (hl.functional hl')]

theorem WF.above (wf : WF ps t) (hn : t.nodes n = some nd) (hne : n ≠ t.root) :
    ∃ us, t.Above n us ∧ ps ∣ us.length := by
  rcases wf.path hn with ⟨l, hl⟩
  rcases hl.parent hn hne with ⟨l₀, rfl, hp⟩
  exact ⟨_, ⟨l₀, hl, rfl⟩, wf.dvd_labels hp⟩

omit [DecidableEq χ] in
theorem Above.ne_root (h : t.Above n us) : n ≠ t.root := by
  rcases h with ⟨l, hl, -⟩
  rcases hl.last with ⟨-, hnil⟩ | ⟨hne, -⟩
  · simp at hnil
  · exact hne

omit [DecidableEq χ] in
theorem above_modifyData : (t.modifyData c g).Above n us ↔ t.Above n us := by
  simp [Above, path_modifyData]

section Split

variable (wf : WF ps t) (hc : t.nodes c = some nd) (hne : c ≠ t.root)
include wf hc hne

theorem above_splitAt_upper [LawfulPagedKey κ] (h : t.Above c us) :
    (splitAt ps t c m up down).1.Above t.next us := by
  rcases h with ⟨l, hl, rfl⟩
  have hlabels : (splitAt ps t c m up down).1.labels _ = _ := labels_splitAt wf hc hne (wf.next_notMem_left hl)
  rw [insertAbove_of_notMem hl.end_notMem] at hlabels
  exact ⟨l, path_splitAt_upper wf hc hne hl, hlabels⟩

theorem above_splitAt_lower [LawfulPagedKey κ] (h : t.Above c us) :
    (splitAt ps t c m up down).1.Above c (us ++ (PagedKey.units nd.key).take m) := by
  obtain ⟨l, hl, rfl⟩ : (splitAt ps t c m up down).1.Above t.next us := above_splitAt_upper wf hc hne h
  have hcr : c ≠ (splitAt ps t c m up down).1.root := by rwa [splitAt_root]
  refine ⟨l ++ [t.next], .snoc (nodes_splitAt_lower wf hc hne) hcr hl, ?_⟩
  rw [labels_append, labels_cons, labels_nil, append_nil, label_splitAt_upper wf hc hne, label_eq hc]

theorem above_splitAt_other [LawfulPagedKey κ] (hnc : n ≠ c) (h : t.Above n us) :
    (splitAt ps t c m up down).1.Above n us := by
  rcases h with ⟨l, hl, rfl⟩
  have hpath : (splitAt ps t c m up down).1.Path n _ := path_splitAt wf hc hne hl
  have hone : insertAbove c t.next [n] = [n] := insertAbove_of_notMem (by simpa using Ne.symm hnc)
  rw [insertAbove_append, hone] at hpath
  refine ⟨_, hpath, labels_splitAt wf hc hne ?_⟩
  exact wf.next_notMem_left hl

end Split

theorem above_addLeaf (wf : WF ps t) (hp : t.nodes p = some pd) (h : t.Above n us) :
    (addLeaf ps t p key data).1.Above n us := by
  rcases h with ⟨l, hl, rfl⟩
  refine ⟨l, path_addLeaf wf hp hl, labels_addLeaf wf hp ?_⟩
  exact wf.next_notMem_left hl

theorem above_addLeaf_new (wf : WF ps t) (hp : t.nodes p = some pd) (hl : t.Path p l) :
    (addLeaf ps t p key data).1.Above t.next (t.labels l) := by
  refine ⟨l, path_addLeaf_new wf hp hl, labels_addLeaf wf hp ?_⟩
  exact wf.next_notMem hl

end Above

/-! ## Hashes -/

variable (hash : Option D → List υ → D) (ps : ℕ) (f : π → Option (List D))

/-- The hashes of the pages of `us`, which follow the units `above`. -/
def hashesBelow (above us : List υ) : List D :=
  chain hash (pageHashes hash ps above).getLast? (pages ps us)

/-- A list of hashes that is there is the right one. -/
def Chained (t : PageTree κ χ π) : Prop :=
  ∀ n nd above hs, t.nodes n = some nd → t.Above n above → f nd.data = some hs →
    hs = hashesBelow hash ps above (PagedKey.units nd.key)

/-- Every node other than the root has its list of hashes. -/
def AllHashed (t : PageTree κ χ π) : Prop := t.Each fun _ d => ∃ hs, f d = some hs

variable {hash ps f} {t : PageTree κ χ π} {n c m p : ℕ} {l : List ℕ} {nd pd : Node κ χ π}
variable {g up down : π → π} {key : κ} {data : π} {us vs : List υ}

theorem pageHashes_below (hps : 0 < ps) (hd : ps ∣ us.length) :
    pageHashes hash ps (us ++ vs) = pageHashes hash ps us ++ hashesBelow hash ps us vs :=
  pageHashes_append hps hd

theorem hashesBelow_take (hps : 0 < ps) (hm : m ≤ vs.length) (hdm : ps ∣ m) :
    (hashesBelow hash ps us vs).take (m / ps) = hashesBelow hash ps us (vs.take m) := by
  rcases hdm with ⟨k, rfl⟩
  rw [Nat.mul_comm ps k] at hm ⊢
  rw [Nat.mul_div_cancel _ hps, hashesBelow, chain_take, hashesBelow, pages_take hps hm]

theorem hashesBelow_drop (hps : 0 < ps) (hus : ps ∣ us.length) (hm : m ≤ vs.length) (hdm : ps ∣ m) :
    (hashesBelow hash ps us vs).drop (m / ps) = hashesBelow hash ps (us ++ vs.take m) (vs.drop m) := by
  rcases hdm with ⟨k, rfl⟩
  rw [Nat.mul_comm ps k] at hm ⊢
  rw [Nat.mul_div_cancel _ hps, hashesBelow, chain_drop, hashesBelow, pages_drop hps hm, ← pages_take hps hm]
  congr 1
  rw [← lastHash_pages, ← lastHash_pages, pages_append hps hus, lastHash_append]

section

variable (h : t.Chained hash ps f)
include h

omit [DecidableEq χ] in
theorem Chained.modifyData (hg : ∀ d, f (g d) = f d) : (t.modifyData c g).Chained hash ps f := by
  intro n nd above hs hn habove hf
  rw [above_modifyData] at habove
  rcases nodes_modifyData_some hn with ⟨nd₀, hn₀, rfl⟩
  refine h n nd₀ above hs hn₀ habove ?_
  rw [← hf]
  split
  · exact (hg nd₀.data).symm
  · rfl

/-- The two halves of a split share out the hashes. -/
theorem Chained.split [LawfulPagedKey κ] (wf : WF ps t)
    (hc : t.nodes c = some nd) (hne : c ≠ t.root) (hm : m ≤ (PagedKey.units nd.key).length)
    (hdm : ps ∣ m) (hup : f (up nd.data) = (f nd.data).map (take (m / ps)))
    (hdown : f (down nd.data) = (f nd.data).map (drop (m / ps))) :
    (splitAt ps t c m up down).1.Chained hash ps f := by
  rcases wf.above hc hne with ⟨us, hus, hd⟩
  have hwhole := fun hs => h c nd us hs hc hus
  intro n xd above hs hn habove hf
  rcases nodes_splitAt_cases wf hc hne hn with
    ⟨rfl, rfl⟩ | ⟨rfl, rfl⟩ | ⟨hnw, hnc, xd₀, hn₀, hcore⟩
  · -- the upper half keeps the first pages
    rw [hup, Option.map_eq_some_iff] at hf
    rcases hf with ⟨hs₀, hhs₀, rfl⟩
    rw [habove.functional (above_splitAt_upper wf hc hne hus), hwhole hs₀ hhs₀,
      hashesBelow_take wf.ps_pos hm hdm]
    exact congrArg _ (units_take nd.key m).symm
  · -- the lower half continues the chain of the upper one
    rw [hdown, Option.map_eq_some_iff] at hf
    rcases hf with ⟨hs₀, hhs₀, rfl⟩
    rw [habove.functional (above_splitAt_lower wf hc hne hus), hwhole hs₀ hhs₀,
      hashesBelow_drop wf.ps_pos hd hm hdm]
    exact congrArg _ (units_drop nd.key m).symm
  · have hnr := habove.ne_root
    rw [splitAt_root] at hnr
    rcases wf.above hn₀ hnr with ⟨us', hus', -⟩
    rw [habove.functional (above_splitAt_other wf hc hne hnc hus')]
    rcases core_eq hcore with ⟨hkey, hdata⟩
    rw [← hkey]
    rw [← hdata] at hf
    exact h n xd₀ us' hs hn₀ hus' hf

/-- A new node has no hashes or continues the chain of its parent. -/
theorem Chained.add (wf : WF ps t) (hp : t.nodes p = some pd)
    (hl : t.Path p l) (hdata : ∀ hs, f data = some hs →
      hs = hashesBelow hash ps (t.labels l) (PagedKey.units key)) :
    (addLeaf ps t p key data).1.Chained hash ps f := by
  intro n xd above hs hn habove hf
  rcases nodes_addLeaf_cases wf hp hn with ⟨rfl, rfl⟩ | ⟨hnw, xd₀, hn₀, hcore⟩
  · rw [habove.functional (above_addLeaf_new wf hp hl)]
    exact hdata hs hf
  · rcases wf.above hn₀ habove.ne_root with ⟨us', hus', -⟩
    rw [habove.functional (above_addLeaf wf hp hus')]
    rcases core_eq hcore with ⟨hkey, hdata'⟩
    rw [← hkey]
    rw [← hdata'] at hf
    exact h n xd₀ us' hs hn₀ hus' hf

theorem Chained.remove (wf : WF ps t) (hc : t.nodes c = some nd)
    (hne : c ≠ t.root) : (removeLeaf ps t c).Chained hash ps f := by
  intro n xd above hs hn habove hf
  rcases nodes_removeLeaf_cases wf hc hne hn with ⟨hnc, xd₀, hn₀, hcore⟩
  rcases core_eq hcore with ⟨hkey, hdata⟩
  rw [← hkey]
  rw [← hdata] at hf
  refine h n xd₀ above hs hn₀ ?_ hf
  rcases habove with ⟨l, hl, rfl⟩
  have hcl : c ∉ l := by
    intro hmem
    rcases hl.node_of_mem (mem_append_left _ hmem) with ⟨-, cd, hcd⟩
    rw [nodes_removeLeaf_self hc] at hcd
    cases hcd
  exact ⟨l, path_of_removeLeaf wf hc hne hl, (labels_removeLeaf wf hc hne hcl).symm⟩

omit h in
/-- A quiet run that shares out the hashes of split nodes keeps both properties. -/
theorem Quiet.hashed [LawfulPagedKey κ] {inert : (π → π) → Prop}
    {halving : ℕ → (π → π) → (π → π) → Prop} {t' : PageTree κ χ π} (h : Quiet ps inert halving t t')
    (hinert : ∀ g, inert g → ∀ d, f (g d) = f d)
    (hhalf : ∀ m up down, halving m up down → ∀ d, f (up d) = (f d).map (take (m / ps)) ∧
      f (down d) = (f d).map (drop (m / ps))) (wf : WF ps t) (hch : t.Chained hash ps f)
      (hall : t.AllHashed f) :
    t'.Chained hash ps f ∧ t'.AllHashed f := by
  have hkeep : WF ps t' ∧ t'.Chained hash ps f ∧ t'.AllHashed f := by
    apply h.invariant (P := fun t => WF ps t ∧ t.Chained hash ps f ∧ t.AllHashed f)
    · rintro t n g hg ⟨wf, hch, hall⟩
      refine ⟨wf.modifyData, hch.modifyData (hinert g hg), Each.map hall ?_⟩
      intro _ d hd
      rwa [hinert g hg d]
    · rintro t c m nd up down hc hne hm₀ hm hd hh ⟨wf, hch, hall⟩
      rcases hhalf m up down hh nd.data with ⟨hup, hdown⟩
      refine ⟨wf.splitAt hc hne hm₀ hm hd, hch.split wf hc hne hm.le hd hup hdown,
        Each.split hall wf hc hne ?_ ?_⟩
      · rintro ⟨hs, hhs⟩
        exact ⟨_, by rw [hup, hhs, Option.map_some]⟩
      · rintro ⟨hs, hhs⟩
        exact ⟨_, by rw [hdown, hhs, Option.map_some]⟩
    · exact ⟨wf, hch, hall⟩
  exact hkeep.2

/-! ## Along a path -/

/-- The hashes of a node, if it has any. -/
def hashes (f : π → Option (List D)) (d : π) : List D := (f d).getD []

/-- The hashes along a path are those of the units it spells out. -/
theorem Chained.along_eq (wf : WF ps t) (hl : t.Path n l)
    (hall : ∀ x ∈ l, ∀ xd, t.nodes x = some xd → ∃ hs, f xd.data = some hs) :
    t.along (hashes f) l = pageHashes hash ps (t.labels l) := by
  induction hl with
  | root => simp [wf.ps_pos]
  | @snoc c l nd hc hne hp ih =>
    rcases hall c (by simp) nd hc with ⟨hs, hhs⟩
    have habove : t.Above c (t.labels l) := ⟨l, .snoc hc hne hp, rfl⟩
    rw [along_append, labels_append, ih fun x hx => hall x (mem_append_left _ hx),
      along_cons, along_nil, append_nil, labels_cons, labels_nil, append_nil,
      held_eq hc, label_eq hc, pageHashes_below wf.ps_pos (wf.dvd_labels hp), hashes, hhs,
      Option.getD_some, h c nd _ hs hc habove hhs]

/-- The last hash of a hashed node is the last hash of the units down to it. -/
theorem Chained.getLast (wf : WF ps t) (hc : t.nodes c = some nd)
    (hne : c ≠ t.root) (hl : t.Path c l) {hs : List D} (hhs : f nd.data = some hs) :
    hs.getLast? = (pageHashes hash ps (t.labels l)).getLast? ∧ hs ≠ [] := by
  rcases hl.parent hc hne with ⟨l₀, rfl, hp⟩
  have heq := h c nd _ hs hc ⟨l₀, hl, rfl⟩ hhs
  have hpos : 0 < hs.length := by
    rw [heq, hashesBelow, length_chain, length_pages, lt_pageCount_iff wf.ps_pos, Nat.zero_mul]
    exact length_pos_of_ne_nil (wf.key_ne hc hne)
  have hnil := ne_nil_of_length_pos hpos
  refine ⟨?_, hnil⟩
  rw [labels_append, labels_cons, labels_nil, append_nil, label_eq hc,
    pageHashes_below wf.ps_pos (wf.dvd_labels hp), ← heq, getLast?_append_of_ne_nil _ hnil]

end

end SGLang.Lib.PageTree
