/-
# SGLang.MemCache.RadixCacheCpp — the radix cache over the C++ tree, and its namespaces.

`RadixCacheCpp` takes the same namespaced keys as `RadixCache`, but it hands the tree their token ids only: the
tree walks token vectors, page by page, splits the last node it reaches, and hangs what is left of an inserted
key below it.

A slot that the tree holds carries a record, which the code does not have, of the `extra_key` of the request
that inserted it. `namespaces_isolated` says when a lookup returns slots of its own namespace only: as long as
nobody inserts a key whose first page is in the tree for another namespace, those lookups do whose first page is
not there for another one.
-/
import SGLang.Lib.PageTreeLocks
import SGLang.Lib.PageTreeVisit
import SGLang.MemCache.RadixKey

namespace SGLang.MemCache.Cpp

open SGLang.Lib SGLang.Lib.PageTree RadixKey List

/-- Token vectors as labels of a page tree; `get_key` takes the first page. -/
instance : PagedKey (List ℕ) ℕ (List ℕ) where
  units key := key
  take key n := key.take n
  drop key n := key.drop n
  childKey ps key := key.take ps

instance : LawfulPagedKey (List ℕ) where
  units_take _ _ := rfl
  units_drop _ _ := rfl
  childKey_inj _ _ _ := Iff.rfl

/-- An index of the KV pool, with a record of the namespace of the request that inserted it. -/
structure Slot where
  index : ℕ
  insertedBy : Option String
  deriving DecidableEq, Repr

/-- `TreeNode`, without its links and its tokens. Without host memory no node is ever under IO. -/
structure NodeData where
  deviceIndices : List Slot
  refCount : ℕ
  hitCount : ℕ
  lastAccessTime : ℤ
  deriving DecidableEq, Repr

namespace NodeData

/-- `access`. -/
def access (now : ℤ) (d : NodeData) : NodeData := { d with lastAccessTime := now }

/-- What `split_prefix` gives the new node, which is made now. -/
def upper (now : ℤ) (prefixLength : ℕ) (d : NodeData) : NodeData :=
  ⟨d.deviceIndices.take prefixLength, d.refCount, d.hitCount, now⟩

/-- What `split_prefix` leaves the old node. -/
def lower (prefixLength : ℕ) (d : NodeData) : NodeData :=
  { d with deviceIndices := d.deviceIndices.drop prefixLength }

def addHit (d : NodeData) : NodeData := { d with hitCount := d.hitCount + 1 }

def addRef (d : NodeData) : NodeData := { d with refCount := d.refCount + 1 }

def dropRef (d : NodeData) : NodeData := { d with refCount := d.refCount - 1 }

end NodeData

open Cpp.NodeData

abbrev Tree := PageTree (List ℕ) (List ℕ) NodeData

/-- `RadixTree::Impl`. -/
structure RadixTree where
  tree : Tree
  evictableSize : ℤ
  protectedSize : ℤ

structure Config where
  disabled : Bool
  pageSize : ℕ
  deriving DecidableEq, Repr

/-- The node behind a pointer or a handle. -/
def getNode (t : Tree) (n : ℕ) : Except Error (Node (List ℕ) (List ℕ) NodeData) :=
  match t.nodes n with
  | some nd => .ok nd
  | none => .error (.runtimeError "Node not found in the map")

/-- `_assert`. -/
def assert (condition : Prop) [Decidable condition] (message : String) : Except Error Unit :=
  if condition then .ok () else .error (.runtimeError message)

/-! ## `RadixTree::Impl` -/

namespace RadixTree

def rootData (now : ℤ) : NodeData := ⟨[], 1, 0, now⟩

/-- A new tree, and the tree after `reset`. -/
def init (now : ℤ) : RadixTree := ⟨.single 0 [] (rootData now), 0, 0⟩

/-- `align`. -/
def align (ps size : ℕ) : ℕ := size / ps * ps

/-- `diff_key`. -/
def diffKey (tokens key : List ℕ) (offset : ℕ) : ℕ := zipMatch (key.drop offset) (tokens.drop offset)

/-- `split_node`. -/
def splitNode (ps : ℕ) (now : ℤ) (t : Tree) (n prefixLength : ℕ) : Tree × ℕ :=
  t.splitAt ps n prefixLength (upper now prefixLength) (lower prefixLength)

/-- The loop of `tree_walk`: the tree, the last node, and the length that is matched. -/
def walkLoop (ps : ℕ) (now : ℤ) : ℕ → Tree → ℕ → List ℕ → ℕ → Except Error (Tree × ℕ × ℕ)
  | 0, _, _, _, _ => .error .outOfFuel
  | fuel + 1, t, node, key, total =>
    if 0 < key.length then
      match t.child node (key.take ps) with
      | none => .ok (t, node, total)
      | some child => do
          let cd ← getNode t child
          let prefixLength := align ps (diffKey cd.key key ps + ps)
          if prefixLength < cd.key.length then
            let (t, newNode) := splitNode ps now t child prefixLength
            .ok (t, newNode, total + prefixLength)
          else
            walkLoop ps now fuel (t.modifyData child (access now)) child (key.drop prefixLength)
              (total + prefixLength)
    else .ok (t, node, total)

/-- `tree_walk`. Every round consumes a page. -/
def treeWalk (ps : ℕ) (now : ℤ) (t : Tree) (key : List ℕ) : Except Error (Tree × ℕ × ℕ) := do
  assert (key.length % ps = 0) "Key should be page-aligned"
  walkLoop ps now (key.length + 1) t t.root key 0

/-- The path that `walk_to_root` takes. -/
def walkToRoot (t : Tree) (n : ℕ) : Except Error (List ℕ) :=
  match t.up n with
  | some path => .ok path
  | none => .error (.runtimeError "Node not found in the map")

/-! ## `RadixTree` -/

/-- `match_prefix`: the device indices and the node; host indices there are none. -/
def matchPrefix (cfg : Config) (now : ℤ) (c : RadixTree) (key : List ℕ) :
    Except Error (RadixTree × List Slot × ℕ) :=
  if cfg.disabled then .ok (c, [], 0)
  else do
    let (t, node, _) ← treeWalk cfg.pageSize now c.tree (key.take (align cfg.pageSize key.length))
    let path ← walkToRoot t node
    .ok ({ c with tree := t }, t.along deviceIndices path.reverse, node)

/-- `create_device_node`. -/
def createDeviceNode (ps : ℕ) (now : ℤ) (c : RadixTree) (parent : ℕ) (tokens : List ℕ) (indices : List Slot) :
    RadixTree :=
  { c with
    tree := (c.tree.addLeaf ps parent tokens ⟨indices, 0, 0, now⟩).1
    evictableSize := c.evictableSize + tokens.length }

/-- `writing_through`, for a request of the namespace `extraKey`; returns the length that was there. -/
def writingThrough (cfg : Config) (now : ℤ) (c : RadixTree) (extraKey : Option String) (key value : List ℕ) :
    Except Error (RadixTree × ℕ) :=
  if cfg.disabled then .ok (c, 0)
  else do
    assert (key.length = value.length) "Key and value must have the same size"
    let key := key.take (align cfg.pageSize key.length)
    let (t, hostNode, hostPrefixLength) ← treeWalk cfg.pageSize now c.tree key
    let c : RadixTree := { c with tree := t }
    let c := if hostPrefixLength ≠ key.length then
        c.createDeviceNode cfg.pageSize now hostNode (key.drop hostPrefixLength)
          (((value.take key.length).drop hostPrefixLength).map (⟨·, extraKey⟩))
      else c
    let path ← walkToRoot c.tree hostNode
    .ok ({ c with tree := c.tree.modifyAll path addHit }, hostPrefixLength)

/-- One node of `lock_ref` with `increment`. -/
def incRef (c : RadixTree) (n : ℕ) : RadixTree :=
  match c.tree.nodes n with
  | none => c
  | some nd =>
    let moved : ℤ := if nd.data.refCount = 0 then nd.key.length else 0
    ⟨c.tree.modifyData n addRef, c.evictableSize - moved, c.protectedSize + moved⟩

/-- One node of `lock_ref` without `increment`. -/
def decRef (c : RadixTree) (n : ℕ) : Except Error RadixTree := do
  let nd ← getNode c.tree n
  assert (nd.data.refCount ≠ 0) "Cannot decrement reference count = zero"
  let moved : ℤ := if nd.data.refCount = 1 then nd.key.length else 0
  .ok ⟨c.tree.modifyData n dropRef, c.evictableSize + moved, c.protectedSize - moved⟩

/-- `lock_ref`; every node but the root is on the device. -/
def lockRef (cfg : Config) (c : RadixTree) (n : ℕ) (increment : Bool) : Except Error RadixTree :=
  if cfg.disabled then .ok c
  else do
    let path ← walkToRoot c.tree n
    if increment then .ok (path.foldl incRef c) else path.foldlM decRef c

/-- Whether a node has no children and is not locked. -/
def freeLeaf (t : Tree) (n : ℕ) : Bool :=
  match t.nodes n with
  | none => false
  | some nd => decide (nd.children.entries = [] ∧ nd.data.refCount = 0)

/-- `collect_leaves`. -/
def collectLeaves (t : Tree) : List ℕ := (t.visit.getD []).filter fun n => n ≠ t.root && freeLeaf t n

def timeOf (t : Tree) (n : ℕ) : ℤ := ((t.nodes n).map fun nd => nd.data.lastAccessTime).getD 0

/-- The top of the heap: some node of least time; `tie` says which. -/
def popOldest (t : Tree) (tie : ℕ) (heap : List ℕ) : Option (ℕ × List ℕ) :=
  let oldest := heap.filter fun n => heap.all fun m => timeOf t n ≤ timeOf t m
  (oldest[tie % oldest.length]?).map fun n => (n, heap.erase n)

/-- `remove_device_node`; the root is not on the device. -/
def removeDeviceNode (ps : ℕ) (c : RadixTree) (n : ℕ) : Except Error RadixTree := do
  let nd ← getNode c.tree n
  assert (n ≠ c.tree.root ∧ nd.data.refCount = 0) "Assertion failed"
  .ok { c with tree := c.tree.removeLeaf ps n, evictableSize := c.evictableSize - nd.key.length }

/-- The loop of `evict`. -/
def evictLoop (ps numTokens : ℕ) (ties : ℕ → ℕ) : ℕ → RadixTree → List ℕ → ℕ → List (List Slot) →
    Except Error (RadixTree × List (List Slot))
  | 0, _, _, _, _ => .error .outOfFuel
  | fuel + 1, c, heap, numEvict, evicted =>
    if numEvict < numTokens then
      match popOldest c.tree (ties fuel) heap with
      | none => .ok (c, evicted)
      | some (n, heap) => do
          let nd ← getNode c.tree n
          let c ← c.removeDeviceNode ps n
          let heap := if freeLeaf c.tree nd.parent then heap ++ [nd.parent] else heap
          evictLoop ps numTokens ties fuel c heap (numEvict + nd.key.length) (evicted ++
            [nd.data.deviceIndices])
    else .ok (c, evicted)

/-- `evict`. Every round evicts a token. -/
def evict (cfg : Config) (ties : ℕ → ℕ) (c : RadixTree) (numTokens : ℕ) :
    Except Error (RadixTree × List (List Slot)) :=
  if cfg.disabled ∨ numTokens = 0 then .ok (c, [])
  else evictLoop cfg.pageSize numTokens ties (numTokens + 1) c (collectLeaves c.tree) 0 []

end RadixTree

/-! ## `RadixCacheCpp` -/

/-- A request, as far as the cache reads it; `reqToToken` is its row. -/
structure Req where
  extraKey : Option String
  originInputIds : List ℕ
  outputIds : List ℕ
  fillIds : List ℕ
  kvCommittedLen : ℕ
  reqToToken : List ℕ
  prefixIndices : List ℕ
  lastNode : ℕ
  deriving DecidableEq, Repr

namespace Req

/-- The key with which `cache_finished_req` inserts. -/
def finishedKey (req : Req) : RadixKey :=
  ⟨(req.originInputIds ++ req.outputIds).take req.kvCommittedLen, req.extraKey, false⟩

/-- The key with which `cache_unfinished_req` inserts and looks up. -/
def unfinishedKey (req : Req) : RadixKey := ⟨req.fillIds, req.extraKey, false⟩

end Req

namespace RadixCacheCpp

/-- `match_prefix`. -/
def matchPrefix (cfg : Config) (now : ℤ) (c : RadixTree) (key : RadixKey) :
    Except Error (RadixTree × List Slot × ℕ) :=
  c.matchPrefix cfg now key.tokenIds

variable (cfg : Config)

/-- `_insert`. -/
def insert (now : ℤ) (c : RadixTree) (key : RadixKey) (value : List ℕ) : Except Error (RadixTree × ℕ) :=
  c.writingThrough cfg now key.extraKey key.tokenIds value

/-- The part of `cache_finished_req` before the lock is released: the tree and the indices that are freed. -/
def insertFinished (now : ℤ) (c : RadixTree) (req : Req) (isInsert : Bool) :
    Except Error (RadixTree × List ℕ) :=
  let kvIndices := req.reqToToken.take req.kvCommittedLen
  let oldPrefixLen := req.prefixIndices.length / cfg.pageSize * cfg.pageSize
  let pageAlignedOverallLen := req.kvCommittedLen / cfg.pageSize * cfg.pageSize
  if isInsert then do
    let (c, newPrefixLen) ← insert cfg now c req.finishedKey kvIndices
    if oldPrefixLen ≤ newPrefixLen then .ok (c, (kvIndices.take newPrefixLen).drop oldPrefixLen)
    else .error (.assertion "Wrong prefix indices")
  else .ok (c, (kvIndices.take pageAlignedOverallLen).drop oldPrefixLen)

/-- `cache_finished_req`: the tree and the indices that are freed. -/
def cacheFinishedReq (now : ℤ) (c : RadixTree) (req : Req) (isInsert : Bool) :
    Except Error (RadixTree × List ℕ) := do
  let pageAlignedOverallLen := req.kvCommittedLen / cfg.pageSize * cfg.pageSize
  let (c, freed) ← insertFinished cfg now c req isInsert
  let c ← c.lockRef cfg req.lastNode false
  .ok (c, freed ++ (req.reqToToken.take req.kvCommittedLen).drop pageAlignedOverallLen)

/-- `if req.last_node != new_last_node`. -/
def moveLock (c : RadixTree) (lastNode newLastNode : ℕ) : Except Error RadixTree :=
  if lastNode ≠ newLastNode then do
    let c ← c.lockRef cfg lastNode false
    c.lockRef cfg newLastNode true
  else .ok c

/-- `cache_unfinished_req`: the tree, the request, and the indices that are freed. -/
def cacheUnfinishedReq (now : ℤ) (c : RadixTree) (req : Req) : Except Error (RadixTree × Req × List ℕ) := do
  let prefillLen := req.fillIds.length
  let kvIndices := req.reqToToken.take prefillLen
  let oldPrefixLen := req.prefixIndices.length / cfg.pageSize * cfg.pageSize
  let (c, newPrefixLen) ← insert cfg now c req.unfinishedKey kvIndices
  if oldPrefixLen ≤ newPrefixLen then
    let (c, newSlots, newLastNode) ← matchPrefix cfg now c req.unfinishedKey
    let newIndices := newSlots.map Slot.index
    if newPrefixLen ≤ newIndices.length then
      let reused := (newIndices.take newPrefixLen).drop oldPrefixLen
      let row := if oldPrefixLen < newPrefixLen then
          req.reqToToken.take oldPrefixLen ++ reused ++ req.reqToToken.drop newPrefixLen
        else req.reqToToken
      let c ← moveLock cfg c req.lastNode newLastNode
      if newIndices.length ≤ prefillLen ∧ prefillLen < newIndices.length + cfg.pageSize then
        let prefixIndices := if cfg.pageSize ≠ 1 ∧ newIndices.length < prefillLen then
            newIndices ++ kvIndices.drop newIndices.length
          else newIndices
        .ok (c, { req with reqToToken := row, prefixIndices := prefixIndices, lastNode := newLastNode },
          (kvIndices.take newPrefixLen).drop oldPrefixLen)
      else .error (.assertion "len(new_indices) <= prefill_len < len(new_indices) + self.page_size")
    else .error (.assertion "new_prefix_len <= len(new_indices)")
  else .error (.assertion "Wrong prefix indices")

end RadixCacheCpp

/-! ## What a walk finds -/

namespace RadixTree

variable {ps fuel n m total : ℕ} {now : ℤ} {t t' : Tree} {l : List ℕ} {key : List ℕ}

/-- Payload updates that touch neither the slots nor the locks. -/
def Inert (g : NodeData → NodeData) : Prop :=
  ∀ d, (g d).deviceIndices = d.deviceIndices ∧ (g d).refCount = d.refCount

/-- The two halves of a split share out the slots. -/
def Halving (m : ℕ) (up down : NodeData → NodeData) : Prop :=
  ∀ d, (up d).deviceIndices = d.deviceIndices.take m ∧ (down d).deviceIndices = d.deviceIndices.drop m

/-- What a walk may do to the tree. -/
abbrev QuietSteps (ps : ℕ) : Tree → Tree → Prop := Quiet ps Inert Halving

theorem QuietSteps.keeps (h : QuietSteps ps t t') (wf : WF ps t) (hf : t.Fits deviceIndices) :
    WF ps t' ∧ t'.Fits deviceIndices ∧ ∀ us vs, t'.Stores deviceIndices us vs ↔ t.Stores deviceIndices us vs :=
  h.stores (fun _ hg d => (hg d).1) (fun _ _ _ hh d => hh d) wf hf

/-- The length up to which a label and a key agree, in whole pages, if they share the first. -/
theorem diffKey_isPageMatch (tokens : List ℕ) (htok : ps ≤ tokens.length) (hkey : ps ≤ key.length)
    (hpage : tokens.take ps = key.take ps) :
    ps ≤ align ps (diffKey tokens key ps + ps) ∧
      IsPageMatch ps tokens key (align ps (diffKey tokens key ps + ps)) := by
  have hfull : ∀ j, ps ≤ j → j ≤ tokens.length → j ≤ key.length →
      (j ≤ diffKey tokens key ps + ps ↔ tokens.take j = key.take j) := by
    intro j hj htok' hkey'
    obtain ⟨i, rfl⟩ := Nat.exists_eq_add_of_le hj
    have hkey'' : i ≤ (key.drop ps).length := by
      rw [length_drop]
      omega
    have htok'' : i ≤ (tokens.drop ps).length := by
      rw [length_drop]
      omega
    have hiff := le_zipMatch_iff hkey'' htok''
    rw [take_add, take_add, hpage, append_cancel_left_eq, eq_comm, ← hiff, diffKey]
    omega
  obtain ⟨hle, hle'⟩ := zipMatch_le (key.drop ps) (tokens.drop ps)
  rw [length_drop] at hle hle'
  have hmatch : IsPageMatch ps tokens key (align ps (diffKey tokens key ps + ps)) :=
    .floor (by unfold diffKey; omega) (by unfold diffKey; omega) fun j hj hd => hfull j (Nat.le_of_dvd hj hd)
  exact ⟨hmatch.greatest ps dvd_rfl htok hkey hpage, hmatch⟩

/-- Where the new node of a split stands. -/
theorem splitNode_spec {c : ℕ} {cd : Node (List ℕ) (List ℕ) NodeData} (now : ℤ) (wf : WF ps t)
    (hcd : t.nodes c = some cd) (hcr : c ≠ t.root) (hl : t.Path c (l ++ [c])) (hm₀ : 0 < m)
    (hm : m < cd.key.length)
    (hd : ps ∣ m) : ∃ t' w, splitNode ps now t c m = (t', w) ∧ QuietSteps ps t t' ∧ t'.Path w (l ++ [w]) ∧
      t'.labels (l ++ [w]) = t.labels l ++ cd.key.take m := by
  have hsnd : (splitNode ps now t c m).2 = t.next := splitAt_snd hcd
  exact ⟨(splitNode ps now t c m).1, t.next, Prod.ext rfl hsnd, .split (.refl t) hcd hcr hm₀ hm hd fun d =>
    ⟨rfl, rfl⟩, path_splitAt_upper wf hcd hcr hl, labels_splitAt_upper wf hcd hcr hl⟩

/-- **The walk.** From a node whose path spells out what has been matched, it stops after quiet steps at the
node of the longest stored prefix. -/
theorem walkLoop_spec (now : ℤ) (total : ℕ) (hfuel : key.length < fuel) (wf : WF ps t)
    (hf : t.Fits deviceIndices) (hl : t.Path n l) (hd : ps ∣ key.length) :
    ∃ t' w l' m, walkLoop ps now fuel t n key total = .ok (t', w, total + m) ∧ QuietSteps ps t t' ∧
      t'.Path w l' ∧ m ≤ key.length ∧ t'.labels l' = t.labels l ++ key.take m ∧
      IsLongest ps t' (t.labels l ++ key) ((t.labels l).length + m) := by
  induction fuel generalizing t n l key total with
  | zero => exact absurd hfuel (Nat.not_lt_zero _)
  | succ fuel ih =>
    unfold walkLoop
    split
    · next hpos =>
      have hps := Nat.le_of_dvd hpos hd
      cases hc : t.child n (key.take ps) with
      | none =>
        refine ⟨t, n, l, 0, rfl, .refl t, hl, Nat.zero_le _, by simp, ?_⟩
        exact IsLongest.of_child_none wf hl fun _ => hc
      | some c =>
        obtain ⟨pd, hpd⟩ := wf.node_of_path hl
        obtain ⟨cd, hcd, hcr, rfl, hck⟩ := (wf.child_eq_some hpd).mp hc
        have hlc : t.Path c (l ++ [c]) := .snoc hcd hcr hl
        obtain ⟨hpm, hmatch⟩ := diffKey_isPageMatch cd.key (wf.ps_le hcd hcr) hps hck
        have hps₀ := wf.ps_pos
        simp only [getNode, hcd, bind, Except.bind]
        set m := align ps (diffKey cd.key key ps + ps)
        have hmk : m ≤ key.length := hmatch.le_right
        split
        · next hlt =>
          obtain ⟨t', w, hsplit, hq, hw, hlab⟩ := splitNode_spec now wf hcd hcr hlc (by omega) hlt hmatch.dvd
          rw [hsplit]
          refine ⟨t', w, l ++ [w], m, rfl, hq, hw, hmk, by rw [hlab, hmatch.take_eq], ?_⟩
          rw [isLongest_congr (hq.keeps wf hf).2.2]
          exact IsLongest.of_partial wf hl hc (label_eq hcd ▸ hmatch) (by rw [label_eq hcd]; exact hlt)
        · next hge =>
          have hq : QuietSteps ps t (t.modifyData c (access now)) := .touch c (.refl t) fun d => ⟨rfl, rfl⟩
          obtain ⟨wf', hf', hs⟩ := hq.keeps wf hf
          have hlen : (key.drop m).length = key.length - m := length_drop
          have hlt : (key.drop m).length < fuel := by omega
          have hwhole : m = cd.key.length := Nat.le_antisymm hmatch.le_left (Nat.not_lt.mp hge)
          have hlab : (t.modifyData c (access now)).labels (l ++ [c]) = t.labels l ++ key.take m := by
            rw [labels_modifyData, labels_append, labels_cons, labels_nil, append_nil, label_eq hcd,
              ← hmatch.take_eq, hwhole, take_length]
            rfl
          obtain ⟨t', w, l', j, hrun, hq', hw, hj, hlab', hlongest⟩ := ih (total + m) hlt wf' hf'
            (path_modifyData.mpr hlc) (by rw [hlen]; exact Nat.dvd_sub hd hmatch.dvd)
          rw [hlab, append_assoc] at hlab' hlongest
          rw [take_append_drop, length_append, length_take_of_le hmk, Nat.add_assoc] at hlongest
          refine ⟨t', w, l', m + j, ?_, hq.trans hq', hw, by omega, ?_, hlongest⟩
          · rw [hrun, Nat.add_assoc]
          · rw [hlab', take_add]
    · next hzero =>
      have hnil : key = [] := length_eq_zero_iff.mp (by omega)
      subst hnil
      refine ⟨t, n, l, 0, rfl, .refl t, hl, Nat.le_refl _, by simp, ?_⟩
      exact IsLongest.of_child_none wf hl fun h => absurd rfl h

/-! ## Namespaces -/

/-- The tree is well formed, its root is locked, and all slots along one path are of one namespace. -/
structure Inv (ps : ℕ) (t : Tree) : Prop where
  wf : WF ps t
  fits : t.Fits deviceIndices
  rootLocked : ∀ nd, t.nodes t.root = some nd → nd.data.refCount ≠ 0
  unmixed : ∀ us vs, t.Stores deviceIndices us vs → ∀ a ∈ vs, ∀ b ∈ vs, a.insertedBy = b.insertedBy

/-- Every stored prefix of the tokens, in whole pages, is of the namespace. -/
def Owns (ps : ℕ) (t : Tree) (extraKey : Option String) (tokens : List ℕ) : Prop :=
  ∀ us vs, us <+: tokens → ps ∣ us.length → t.Stores deviceIndices us vs → ∀ v ∈ vs, v.insertedBy = extraKey

/-- The node that has the first page of the tokens, if there is one, has slots of the namespace only. -/
def OwnsFirst (ps : ℕ) (t : Tree) (extraKey : Option String) (tokens : List ℕ) : Prop :=
  ∀ c nd, t.child t.root (tokens.take ps) = some c → t.nodes c = some nd →
    ∀ slot ∈ nd.data.deviceIndices, slot.insertedBy = extraKey

variable {extraKey : Option String} {tokens : List ℕ}

theorem inv_init (hps : 0 < ps) (now : ℤ) : Inv ps (init now).tree := by
  refine ⟨WF.single hps, ?_, ?_, ?_⟩
  · exact fun n nd hn hne => absurd (nodes_single hn).1 hne
  · intro nd hnd
    rw [(nodes_single hnd).2]
    exact Nat.one_ne_zero
  · intro us vs hs a ha
    have hnil := stores_single hs
    obtain ⟨n, l, -, -, rfl⟩ := hs
    rw [hnil] at ha
    simp at ha

theorem QuietSteps.rootLocked (h : QuietSteps ps t t') (wf : WF ps t)
    (hroot : ∀ nd, t.nodes t.root = some nd → nd.data.refCount ≠ 0) :
    ∀ nd, t'.nodes t'.root = some nd → nd.data.refCount ≠ 0 := by
  refine (h.invariant (P := fun u => WF ps u ∧ u.AtRoot fun _ (d : NodeData) => d.refCount ≠ 0) ?_ ?_
    ⟨wf, hroot⟩).2
  · rintro u n g hg ⟨wf, hroot⟩
    exact ⟨wf.modifyData, hroot.modifyData fun _ _ d hd => (hg d).2.symm ▸ hd⟩
  · rintro u c m cd up down hc hne hm₀ hm hd - ⟨wf, hroot⟩
    exact ⟨wf.splitAt hc hne hm₀ hm hd, hroot.split wf hc hne⟩

theorem Inv.quiet (h : Inv ps t) (hq : QuietSteps ps t t') : Inv ps t' := by
  obtain ⟨wf, hfits, hs⟩ := hq.keeps h.wf h.fits
  exact ⟨wf, hfits, hq.rootLocked h.wf h.rootLocked, fun us vs hst => h.unmixed us vs ((hs us vs).mp hst)⟩

/-- A change of the locks of a node other than the root. -/
theorem Inv.modifyData {g : NodeData → NodeData} (h : Inv ps t)
    (hg : ∀ d, (g d).deviceIndices = d.deviceIndices) (hn : n ≠ t.root) : Inv ps (t.modifyData n g) := by
  refine ⟨h.wf.modifyData, fits_modifyData hg h.fits, ?_, ?_⟩
  · intro nd hnd
    rw [modifyData_root, nodes_modifyData_ne (Ne.symm hn)] at hnd
    exact h.rootLocked nd hnd
  · intro us vs hs
    exact h.unmixed us vs ((stores_modifyData hg).mp hs)

/-- Whose pages a key continues is decided by its first page. -/
theorem Inv.owns_iff (h : Inv ps t) : Owns ps t extraKey tokens ↔ OwnsFirst ps t extraKey tokens := by
  have hps := h.wf.ps_pos
  constructor
  · intro howns c nd hc hnd slot hslot
    obtain ⟨pd, hpd⟩ := h.wf.root_node
    obtain ⟨cd, hcd, hcr, hpar, hpage⟩ := (h.wf.child_eq_some hpd).mp hc
    cases hnd.symm.trans hcd
    have hpath : t.Path c [c] := by
      refine Path.snoc (l := []) hnd hcr ?_
      rw [hpar]
      exact .root
    have hle : ps ≤ nd.key.length := h.wf.ps_le hnd hcr
    have hpage' : nd.key.take ps = tokens.take ps := hpage
    have hlab : t.labels [c] = nd.key := by
      rw [labels_cons, labels_nil, append_nil]
      exact label_eq hnd
    have halong : t.along deviceIndices [c] = nd.data.deviceIndices := by
      rw [along_cons, along_nil, append_nil, held_eq hnd]
    have hlen : nd.data.deviceIndices.length = nd.key.length := h.fits c nd hnd hcr
    have hwhole : t.Stores deviceIndices nd.key nd.data.deviceIndices := by
      refine ⟨c, [c], hpath, by rw [hlab], ?_⟩
      rw [halong, ← hlen, take_length]
    have hfirst := hwhole.of_prefix (List.take_prefix ps nd.key)
    -- the first slot is one of the first page
    have hmem : nd.data.deviceIndices.head (ne_nil_of_mem hslot) ∈
        nd.data.deviceIndices.take (nd.key.take ps).length := by
      rw [length_take_of_le hle, mem_take_iff_getElem]
      refine ⟨0, ?_, head_eq_getElem _ |>.symm⟩
      rw [hlen]
      omega
    have hown := howns _ _ (hpage' ▸ take_prefix ps tokens) (by rw [length_take_of_le hle]) hfirst _ hmem
    rw [← hown]
    exact h.unmixed _ _ hwhole slot hslot _ (head_mem _)
  · intro hfirst us vs hpre hdvd hs v hv
    have hlen : ps ≤ us.length := by
      refine Nat.le_of_dvd ?_ hdvd
      rw [← hs.length_eq h.fits]
      exact length_pos_of_mem hv
    have hpres : t.Present (t.labels [] ++ us) := hs.present
    obtain ⟨c, cd, m, r, hc, hcd, hcr, hpath, hus⟩ := hpres.child h.wf .root hlen hpre
    rw [nil_append] at hpath
    have hs' : t.Stores deviceIndices us ((t.along deviceIndices (c :: r)).take us.length) :=
      ⟨m, c :: r, hpath, by rw [labels_cons]; exact hus, rfl⟩
    have hwhole : t.Stores deviceIndices (t.labels (c :: r)) (t.along deviceIndices (c :: r)) :=
      ⟨m, c :: r, hpath, prefix_refl _, by rw [← h.fits.length_along hpath, take_length]⟩
    rw [hs.functional h.wf h.fits hs' hdvd] at hv
    obtain ⟨slot, hslot⟩ : ∃ slot, slot ∈ cd.data.deviceIndices := by
      refine exists_mem_of_length_pos ?_
      rw [h.fits c cd hcd hcr]
      exact Nat.lt_of_lt_of_le hps (h.wf.ps_le hcd hcr)
    rw [← hfirst c cd hc hcd slot hslot]
    refine h.unmixed _ _ hwhole v (mem_of_mem_take hv) slot ?_
    rw [along_cons, held_eq hcd]
    exact mem_append_left _ hslot

/-! ## What the calls keep -/

variable {cfg : Config} {c c' : RadixTree} {nd : Node (List ℕ) (List ℕ) NodeData}

theorem treeWalk_spec (now : ℤ) (wf : WF ps t) (hf : t.Fits deviceIndices) (hd : ps ∣ key.length) :
    ∃ t' w l' m, treeWalk ps now t key = .ok (t', w, m) ∧ QuietSteps ps t t' ∧ t'.Path w l' ∧ m ≤ key.length ∧
      t'.labels l' = key.take m ∧ IsLongest ps t' key m := by
  obtain ⟨t', w, l', m, hrun, hq, hw, hm, hlab, hlongest⟩ :=
    walkLoop_spec now 0 (Nat.lt_succ_self key.length) wf hf .root hd
  rw [labels_nil, nil_append] at hlab hlongest
  rw [length_nil, Nat.zero_add] at hlongest
  rw [Nat.zero_add] at hrun
  refine ⟨t', w, l', m, ?_, hq, hw, hm, hlab, hlongest⟩
  unfold treeWalk assert
  rw [if_pos (Nat.mod_eq_zero_of_dvd hd)]
  exact hrun

theorem walkToRoot_of_path (wf : WF ps t) (hl : t.Path n l) : walkToRoot t n = .ok l.reverse := by
  unfold walkToRoot
  rw [wf.up_eq hl]

theorem dvd_length_aligned (ps : ℕ) (key : List ℕ) : ps ∣ (key.take (align ps key.length)).length := by
  unfold align
  rw [length_take_of_le (Nat.div_mul_le_self _ _)]
  exact Nat.dvd_mul_left _ _

/-- What is a prefix in whole pages survives the alignment. -/
theorem prefix_aligned {us : List ℕ} (hpre : us <+: key) (hdvd : ps ∣ us.length) :
    us <+: key.take (align ps key.length) := by
  exact prefix_take_iff.mpr ⟨hpre, le_floor_of_dvd hdvd hpre.length_le⟩

/-- A lookup returns the slots of the longest stored prefix. -/
theorem matchPrefix_spec (now : ℤ) (key : List ℕ) (h : Inv cfg.pageSize c.tree) (hon : cfg.disabled = false) :
    ∃ t vs w m, c.matchPrefix cfg now key = .ok ({ c with tree := t }, vs, w) ∧
      QuietSteps cfg.pageSize c.tree t ∧
      IsLongest cfg.pageSize c.tree (key.take (align cfg.pageSize key.length)) m ∧
      c.tree.Stores deviceIndices ((key.take (align cfg.pageSize key.length)).take m) vs := by
  obtain ⟨t, w, l, m, hrun, hq, hw, hm, hlab, hlongest⟩ :=
    treeWalk_spec now h.wf h.fits (dvd_length_aligned cfg.pageSize key)
  obtain ⟨wf, hfits, hs⟩ := hq.keeps h.wf h.fits
  refine ⟨t, t.along deviceIndices l, w, m, ?_, hq, (isLongest_congr hs).mp hlongest, ?_⟩
  · unfold matchPrefix
    rw [hon, if_neg Bool.false_ne_true, hrun]
    simp only [bind, Except.bind]
    rw [walkToRoot_of_path wf hw]
    simp
  · rw [← hs, ← hlab]
    refine ⟨w, l, hw, prefix_refl _, ?_⟩
    rw [← hfits.length_along hw, take_length]

/-- The slots of the longest stored prefix are of the namespace if and only if all stored prefixes are. -/
theorem Inv.longest_owns_iff {vs : List Slot} (h : Inv ps t)
    (hlongest : IsLongest ps t (tokens.take (align ps tokens.length)) m)
    (hs : t.Stores deviceIndices ((tokens.take (align ps tokens.length)).take m) vs) :
    (∀ slot ∈ vs, slot.insertedBy = extraKey) ↔ Owns ps t extraKey tokens := by
  constructor
  · intro hown us vs' hpre hdvd hs' v hv
    have hpre' := prefix_aligned hpre hdvd
    have hle : us.length ≤ m := by
      refine hlongest.greatest _ hdvd hpre'.length_le ?_
      rw [← prefix_iff_eq_take.mp hpre']
      exact hs'.present
    have hus : us <+: (tokens.take (align ps tokens.length)).take m := prefix_take_iff.mpr ⟨hpre', hle⟩
    have hcut := hs.of_prefix hus
    rw [hs'.functional h.wf h.fits hcut hdvd] at hv
    exact hown v (mem_of_mem_take hv)
  · intro howns slot hslot
    refine howns _ _ ((List.take_prefix _ _).trans (List.take_prefix _ _)) ?_ hs slot hslot
    rw [length_take_of_le hlongest.le]
    exact hlongest.dvd

/-- A node of the namespace is hung below slots of the namespace. -/
theorem Inv.addLeaf {w : ℕ} {slots : List Slot} (now : ℤ) (h : Inv ps t) (hw : t.Path w l) (hm : m ≤ key.length)
    (hlab : t.labels l = key.take m) (hlongest : IsLongest ps t key m) (hne : m ≠ key.length)
    (hd : ps ∣ key.length)
    (hlen : slots.length = (key.drop m).length) (hdata : ∀ slot ∈ slots, slot.insertedBy = extraKey)
    (howns : Owns ps t extraKey key) (ht' : t' = (t.addLeaf ps w (key.drop m) ⟨slots, 0, 0, now⟩).1) :
    Inv ps t' ∧ t'.Path w l ∧ Owns ps t' extraKey key := by
  obtain ⟨wd, hwd⟩ := h.wf.node_of_path hw
  have hsplit : t.labels l ++ key.drop m = key := by rw [hlab, take_append_drop]
  have hlenm : (t.labels l).length = m := by rw [hlab, length_take_of_le hm]
  have hdrop : (key.drop m).length = key.length - m := length_drop
  have hdvd : ps ∣ (key.drop m).length := by
    rw [hdrop]
    exact Nat.dvd_sub hd hlongest.dvd
  have hpos : 0 < (key.drop m).length := by omega
  have hchild : t.child w ((key.drop m).take ps) = none := by
    refine IsLongest.child_none h.wf hw (Nat.le_of_dvd hpos hdvd) ?_
    rw [hlenm]
    show IsLongest ps t (t.labels l ++ key.drop m) m
    rw [hsplit]
    exact hlongest
  have wf' : WF ps t' := ht' ▸ h.wf.addLeaf hwd hchild (ne_nil_of_length_pos hpos) hdvd
  -- what is new ends in the new node, and its path is of the namespace
  have hpath : ∀ slot ∈ t.along deviceIndices l ++ slots, slot.insertedBy = extraKey := by
    intro slot hslot
    rcases mem_append.mp hslot with hold | hnew
    · refine howns (t.labels l) _ ?_ (by rw [hlenm]; exact hlongest.dvd) ⟨w, l, hw, prefix_refl _, rfl⟩ slot ?_
      · rw [hlab]
        exact take_prefix _ _
      · rw [← h.fits.length_along hw, take_length]
        exact hold
    · exact hdata slot hnew
  have hstores : ∀ us vs, t'.Stores deviceIndices us vs →
      t.Stores deviceIndices us vs ∨ ∀ slot ∈ vs, slot.insertedBy = extraKey := by
    intro us vs hs
    rw [ht'] at hs
    rcases (stores_addLeaf h.wf hwd hw).mp hs with hold | ⟨-, rfl⟩
    · exact .inl hold
    · exact .inr fun slot hslot => hpath slot (mem_of_mem_take hslot)
  refine ⟨⟨wf', ht' ▸ fits_addLeaf h.wf hwd h.fits hlen, ?_, ?_⟩, ht' ▸ path_addLeaf h.wf hwd hw, ?_⟩
  · rw [ht']
    exact AtRoot.add (P := fun _ (d : NodeData) => d.refCount ≠ 0) h.rootLocked h.wf hwd
  · intro us vs hs a ha b hb
    rcases hstores us vs hs with hold | hnew
    · exact h.unmixed us vs hold a ha b hb
    · rw [hnew a ha, hnew b hb]
  · intro us vs hpre hdvd hs v hv
    rcases hstores us vs hs with hold | hnew
    · exact howns us vs hpre hdvd hold v hv
    · exact hnew v hv

theorem Owns.of_prefix {tokens' : List ℕ} (h : Owns ps t extraKey tokens) (hpre : tokens' <+: tokens) :
    Owns ps t extraKey tokens' := fun us vs hus => h us vs (hus.trans hpre)

theorem Owns.of_aligned (h : Owns ps t extraKey (tokens.take (align ps tokens.length))) :
    Owns ps t extraKey tokens := fun us vs hus hdvd => h us vs (prefix_aligned hus hdvd) hdvd

theorem Owns.congr (h : Owns ps t extraKey tokens)
    (hs : ∀ us vs, t'.Stores deviceIndices us vs ↔ t.Stores deviceIndices us vs) :
    Owns ps t' extraKey tokens := fun us vs hus hdvd hst => h us vs hus hdvd ((hs us vs).mp hst)

theorem quietSteps_addHit (ps : ℕ) (t : Tree) (l : List ℕ) : QuietSteps ps t (t.modifyAll l addHit) :=
  Quiet.modifyAll (fun _ => ⟨rfl, rfl⟩) l

/-- **Insertion keeps namespaces apart**, if the key continues pages of its own namespace. -/
theorem writingThrough_inv {value : List ℕ} {L : ℕ} (h : Inv cfg.pageSize c.tree) (hon : cfg.disabled = false)
    (howns : Owns cfg.pageSize c.tree extraKey tokens)
    (hrun : c.writingThrough cfg now extraKey tokens value = .ok (c', L)) :
    Inv cfg.pageSize c'.tree ∧ Owns cfg.pageSize c'.tree extraKey tokens := by
  unfold writingThrough assert at hrun
  rw [hon, if_neg Bool.false_ne_true] at hrun
  split at hrun
  swap
  · cases hrun
  next hlen =>
  obtain ⟨t, w, l, m, hwalk, hq, hw, hm, hlab, hlongest⟩ :=
    treeWalk_spec now h.wf h.fits (dvd_length_aligned cfg.pageSize tokens)
  simp only [bind, Except.bind, hwalk] at hrun
  set key := tokens.take (align cfg.pageSize tokens.length) with hkey
  have ht := h.quiet hq
  have hwhole := howns.congr (hq.keeps h.wf h.fits).2.2
  have howns' := hwhole.of_prefix (List.take_prefix (align cfg.pageSize tokens.length) tokens)
  -- the counts of hits change nothing
  have hdone : ∀ {u : Tree}, Inv cfg.pageSize u → Owns cfg.pageSize u extraKey key →
      Inv cfg.pageSize (u.modifyAll l.reverse addHit) ∧
        Owns cfg.pageSize (u.modifyAll l.reverse addHit) extraKey tokens := by
    intro u hu howns
    have hhit := quietSteps_addHit cfg.pageSize u l.reverse
    exact ⟨hu.quiet hhit, (howns.congr (hhit.keeps hu.wf hu.fits).2.2).of_aligned⟩
  by_cases hne : m = key.length
  · rw [if_neg (not_not.mpr hne), walkToRoot_of_path ht.wf hw] at hrun
    cases hrun
    exact hdone ht howns'
  · have hslots : (((value.take key.length).drop m).map (Slot.mk · extraKey)).length = (key.drop m).length := by
      rw [length_map, length_drop, length_drop, length_take, hkey, length_take]
      omega
    have hslots' : ∀ slot ∈ ((value.take key.length).drop m).map (Slot.mk · extraKey),
        slot.insertedBy = extraKey := by
      intro slot hslot
      obtain ⟨index, -, rfl⟩ := mem_map.mp hslot
      rfl
    obtain ⟨hinv, hpath, howns''⟩ := ht.addLeaf now hw hm hlab hlongest hne
      (dvd_length_aligned cfg.pageSize tokens) hslots hslots' howns' rfl
    rw [if_pos hne, createDeviceNode, walkToRoot_of_path hinv.wf hpath] at hrun
    cases hrun
    exact hdone hinv howns''

theorem ne_root_of_walkToRoot {path : List ℕ} (h : walkToRoot t n = .ok path) : ∀ x ∈ path, x ≠ t.root := by
  unfold walkToRoot at h
  split at h
  · next hup =>
    cases h
    intro x hx
    exact ((path_of_upAux hup).node_of_mem (mem_reverse.mpr hx)).1
  · cases h

theorem incRef_inv (h : Inv ps c.tree) (hn : n ≠ c.tree.root) :
    Inv ps (c.incRef n).tree ∧ (c.incRef n).tree.root = c.tree.root := by
  unfold incRef
  split
  · exact ⟨h, rfl⟩
  · exact ⟨h.modifyData (fun _ => rfl) hn, rfl⟩

theorem decRef_inv (h : Inv ps c.tree) (hn : n ≠ c.tree.root) (hrun : c.decRef n = .ok c') :
    Inv ps c'.tree ∧ c'.tree.root = c.tree.root := by
  obtain ⟨nd, -, hrun⟩ := exists_of_bind_eq_ok hrun
  obtain ⟨_, -, hrun⟩ := exists_of_bind_eq_ok hrun
  cases hrun
  exact ⟨h.modifyData (fun _ => rfl) hn, rfl⟩

theorem lockRef_inv {increment : Bool} (h : Inv ps c.tree) (hrun : c.lockRef cfg n increment = .ok c') :
    Inv ps c'.tree := by
  unfold lockRef at hrun
  split at hrun
  · cases hrun
    exact h
  · obtain ⟨path, hpath, hloop⟩ := exists_of_bind_eq_ok hrun
    have hne := ne_root_of_walkToRoot hpath
    clear hpath hrun
    split at hloop
    · cases hloop
      induction path generalizing c with
      | nil => exact h
      | cons x path ih =>
        obtain ⟨hinv, hroot⟩ := incRef_inv h (hne x mem_cons_self)
        exact ih hinv fun y hy => hroot ▸ hne y (mem_cons_of_mem _ hy)
    · induction path generalizing c with
      | nil =>
        cases hloop
        exact h
      | cons x path ih =>
        obtain ⟨c₁, hdec, hloop⟩ := exists_of_bind_eq_ok hloop
        obtain ⟨hinv, hroot⟩ := decRef_inv h (hne x mem_cons_self) hdec
        exact ih hinv (fun y hy => hroot ▸ hne y (mem_cons_of_mem _ hy)) hloop

/-! ## Eviction -/

/-- The nodes on the heap are leaves that can go, each once. -/
structure Candidates (t : Tree) (heap : List ℕ) : Prop where
  nodup : heap.Nodup
  leaves : ∀ x ∈ heap, x ≠ t.root ∧ freeLeaf t x = true

theorem freeLeaf_iff : freeLeaf t n = true ↔ ∃ nd, t.nodes n = some nd ∧ nd.children.entries = [] ∧
    nd.data.refCount = 0 := by
  unfold freeLeaf
  split
  · next h => simp [h]
  · next nd h => simp [h]

theorem collectLeaves_candidates (wf : WF ps t) : Candidates t (collectLeaves t) := by
  obtain ⟨l, hvisit, hnodup, -⟩ := wf.visit
  unfold collectLeaves
  rw [hvisit, Option.getD_some]
  refine ⟨hnodup.filter _, fun x hx => ?_⟩
  have hp := (mem_filter.mp hx).2
  simpa using hp

theorem popOldest_spec {tie : ℕ} {heap heap' : List ℕ} (h : popOldest t tie heap = some (n, heap')) :
    n ∈ heap ∧ heap' = heap.erase n := by
  obtain ⟨x, hx, heq⟩ := Option.map_eq_some_iff.mp h
  cases heq
  exact ⟨(mem_filter.mp (mem_of_getElem? hx)).1, rfl⟩

theorem Inv.removeLeaf (h : Inv ps t) (hnd : t.nodes n = some nd) (hne : n ≠ t.root) (hleaf : t.Leaf n) :
    Inv ps (t.removeLeaf ps n) := by
  refine ⟨h.wf.removeLeaf hnd hne hleaf, fits_removeLeaf h.wf hnd hne h.fits, ?_, ?_⟩
  · exact AtRoot.remove (P := fun _ (d : NodeData) => d.refCount ≠ 0) h.rootLocked h.wf hnd hne
  · intro us vs hs
    exact h.unmixed us vs (stores_of_removeLeaf h.wf hnd hne hs)

/-- A node that can go is removed; the others on the heap stay, and the parent may come. -/
theorem Candidates.remove {heap : List ℕ} (h : Candidates t heap) (hinv : Inv ps t) (hn : n ∈ heap)
    (hnd : t.nodes n = some nd) (hleaf : t.Leaf n) :
    Candidates (t.removeLeaf ps n)
      (if freeLeaf (t.removeLeaf ps n) nd.parent then heap.erase n ++ [nd.parent] else heap.erase n) := by
  have hne := (h.leaves n hn).1
  have hkeep : Candidates (t.removeLeaf ps n) (heap.erase n) := by
    refine ⟨h.nodup.erase n, fun x hx => ?_⟩
    have hxn : x ≠ n := ((h.nodup.mem_erase_iff).mp hx).1
    obtain ⟨hxr, hfree⟩ := h.leaves x (mem_of_mem_erase hx)
    obtain ⟨xd, hxd, hentries, href⟩ := freeLeaf_iff.mp hfree
    have hpar : x ≠ nd.parent := by
      rintro rfl
      exact ((hinv.wf.leaf_iff hxd).mpr hentries) n nd hnd hne rfl
    refine ⟨by rw [removeLeaf_root]; exact hxr, freeLeaf_iff.mpr ⟨xd, ?_, hentries, href⟩⟩
    rw [nodes_removeLeaf_other hnd hxn hpar]
    exact hxd
  split
  · next hfree =>
    obtain ⟨pd, hpd, hentries, href⟩ := freeLeaf_iff.mp hfree
    have hroot : nd.parent ≠ t.root := by
      intro heq
      have hlocked := (hinv.removeLeaf hnd hne hleaf).rootLocked
      rw [removeLeaf_root, ← heq] at hlocked
      exact hlocked pd hpd href
    refine ⟨Nodup.append hkeep.nodup (nodup_singleton _) ?_, ?_⟩
    · rw [disjoint_singleton]
      intro hmem
      obtain ⟨-, hold⟩ := h.leaves _ (mem_of_mem_erase hmem)
      obtain ⟨pd₀, hpd₀, hentries₀, -⟩ := freeLeaf_iff.mp hold
      exact ((hinv.wf.leaf_iff hpd₀).mpr hentries₀) n nd hnd hne rfl
    · intro x hx
      rcases mem_append.mp hx with hx | hx
      · exact hkeep.leaves x hx
      · rw [mem_singleton.mp hx]
        exact ⟨by rw [removeLeaf_root]; exact hroot, hfree⟩
  · exact hkeep

/-- Eviction raises nothing, and removes leaves only. -/
theorem evictLoop_inv {numTokens : ℕ} {ties : ℕ → ℕ} (fuel : ℕ) : ∀ {c : RadixTree} {heap : List ℕ}
    {numEvict : ℕ}
    {evicted : List (List Slot)}, numTokens ≤ numEvict + fuel → Inv ps c.tree → Candidates c.tree heap →
    ∃ c' evicted', evictLoop ps numTokens ties (fuel + 1) c heap numEvict evicted = .ok (c', evicted') ∧
      Inv ps c'.tree := by
  induction fuel with
  | zero =>
    intro c heap numEvict evicted hfuel h _
    refine ⟨c, evicted, ?_, h⟩
    unfold evictLoop
    rw [if_neg (by omega)]
  | succ fuel ih =>
    intro c heap numEvict evicted hfuel h hcand
    rw [evictLoop]
    split
    swap
    · exact ⟨c, evicted, rfl, h⟩
    cases hpop : popOldest c.tree (ties (fuel + 1)) heap with
    | none => exact ⟨c, evicted, rfl, h⟩
    | some popped =>
      obtain ⟨n, heap'⟩ := popped
      obtain ⟨hn, rfl⟩ := popOldest_spec hpop
      obtain ⟨hne, hfree⟩ := hcand.leaves n hn
      obtain ⟨nd, hnd, hentries, href⟩ := freeLeaf_iff.mp hfree
      have hleaf := (h.wf.leaf_iff hnd).mpr hentries
      simp only [removeDeviceNode, getNode, hnd, assert, bind, Except.bind]
      rw [if_pos ⟨hne, href⟩]
      have hpos : 0 < nd.key.length := length_pos_of_ne_nil (h.wf.key_ne hnd hne)
      exact ih (by omega) (h.removeLeaf hnd hne hleaf) (hcand.remove h hn hnd hleaf)

theorem evict_inv (ties : ℕ → ℕ) (numTokens : ℕ) (h : Inv cfg.pageSize c.tree) :
    ∃ c' evicted, c.evict cfg ties numTokens = .ok (c', evicted) ∧ Inv cfg.pageSize c'.tree := by
  unfold evict
  split
  · exact ⟨c, [], rfl, h⟩
  · exact evictLoop_inv _ (by omega) h (collectLeaves_candidates h.wf)

end RadixTree

/-! ## Histories -/

namespace RadixCacheCpp

open RadixTree

/-- The calls of the cache, by any requests; a request is whatever it is when it calls. -/
inductive Event
  | matchPrefix (now : ℤ) (key : RadixKey)
  | cacheUnfinishedReq (now : ℤ) (req : Req)
  | cacheFinishedReq (now : ℤ) (req : Req) (isInsert : Bool)
  | evict (ties : ℕ → ℕ) (numTokens : ℕ)
  | incLockRef (node : ℕ)
  | decLockRef (node : ℕ)
  | reset (now : ℤ)

variable (cfg : Config)

/-- The tree after a call. -/
def step (c : RadixTree) : Event → Except Error RadixTree
  | .matchPrefix now key => (matchPrefix cfg now c key).map Prod.fst
  | .cacheUnfinishedReq now req => (cacheUnfinishedReq cfg now c req).map Prod.fst
  | .cacheFinishedReq now req isInsert => (cacheFinishedReq cfg now c req isInsert).map Prod.fst
  | .evict ties numTokens => (c.evict cfg ties numTokens).map Prod.fst
  | .incLockRef node => c.lockRef cfg node true
  | .decLockRef node => c.lockRef cfg node false
  | .reset now => .ok (init now)

/-- The first page of the key is not in the tree with slots that a request of another namespace has inserted. -/
def Own (c : RadixTree) (key : RadixKey) : Prop :=
  cfg.disabled = false → OwnsFirst cfg.pageSize c.tree key.extraKey key.tokenIds

/-- What is inserted continues pages of its own namespace. -/
def Heeds (c : RadixTree) : Event → Prop
  | .cacheUnfinishedReq _ req => Own cfg c req.unfinishedKey
  | .cacheFinishedReq _ req isInsert => isInsert = true → Own cfg c req.finishedKey
  | _ => True

def Step (c c' : RadixTree) : Prop := ∃ e, step cfg c e = .ok c'

def HeedingStep (c c' : RadixTree) : Prop := ∃ e, Heeds cfg c e ∧ step cfg c e = .ok c'

variable {cfg : Config} {c c' : RadixTree} {now : ℤ} {key : RadixKey} {L : ℕ} {freed : List ℕ}

theorem insert_inv {value : List ℕ} (h : Inv cfg.pageSize c.tree) (hown : Own cfg c key)
    (hrun : insert cfg now c key value = .ok (c', L)) : Inv cfg.pageSize c'.tree ∧ Own cfg c' key := by
  cases hon : cfg.disabled with
  | true =>
    unfold insert writingThrough at hrun
    rw [hon, if_pos rfl] at hrun
    cases hrun
    exact ⟨h, hown⟩
  | false =>
    obtain ⟨hinv, howns⟩ := writingThrough_inv h hon (h.owns_iff.mpr (hown hon)) hrun
    exact ⟨hinv, fun _ => hinv.owns_iff.mp howns⟩

/-- A lookup raises nothing, and what it returns is of the namespace exactly if the first page is. -/
theorem matchPrefix_inv (now : ℤ) (key : RadixKey) (h : Inv cfg.pageSize c.tree) :
    ∃ c' found node, matchPrefix cfg now c key = .ok (c', found, node) ∧ Inv cfg.pageSize c'.tree ∧
      ((∀ slot ∈ found, slot.insertedBy = key.extraKey) ↔ Own cfg c key) := by
  cases hon : cfg.disabled with
  | true =>
    refine ⟨c, [], 0, ?_, h, ?_⟩
    · unfold matchPrefix RadixTree.matchPrefix
      rw [hon, if_pos rfl]
    · simp [Own, hon]
  | false =>
    obtain ⟨t, vs, w, m, hrun, hq, hlongest, hs⟩ := matchPrefix_spec now key.tokenIds h hon
    refine ⟨_, vs, w, hrun, h.quiet hq, ?_⟩
    rw [h.longest_owns_iff hlongest hs, h.owns_iff]
    exact ⟨fun howns _ => howns, fun hown => hown hon⟩

theorem moveLock_inv {lastNode newLastNode : ℕ} (h : Inv cfg.pageSize c.tree)
    (hrun : moveLock cfg c lastNode newLastNode = .ok c') : Inv cfg.pageSize c'.tree := by
  unfold moveLock at hrun
  split at hrun
  · obtain ⟨c₁, hdec, hrun⟩ := exists_of_bind_eq_ok hrun
    exact lockRef_inv (lockRef_inv h hdec) hrun
  · cases hrun
    exact h

theorem cacheFinishedReq_inv {req : Req} {isInsert : Bool} (h : Inv cfg.pageSize c.tree)
    (hown : isInsert = true → Own cfg c req.finishedKey)
    (hrun : cacheFinishedReq cfg now c req isInsert = .ok (c', freed)) : Inv cfg.pageSize c'.tree := by
  obtain ⟨r, hins, hrun⟩ := exists_of_bind_eq_ok hrun
  have hinv : Inv cfg.pageSize r.1.tree := by
    unfold insertFinished at hins
    dsimp only at hins
    split at hins
    · next hi =>
      obtain ⟨r', hrun', hins⟩ := exists_of_bind_eq_ok hins
      split at hins
      · cases hins
        exact (insert_inv h (hown hi) hrun').1
      · cases hins
    · cases hins
      exact h
  obtain ⟨c₁, hlock, hrun⟩ := exists_of_bind_eq_ok hrun
  cases hrun
  exact lockRef_inv hinv hlock

theorem cacheUnfinishedReq_inv {req req' : Req} (h : Inv cfg.pageSize c.tree)
    (hown : Own cfg c req.unfinishedKey) (hrun : cacheUnfinishedReq cfg now c req = .ok (c', req', freed)) :
    Inv cfg.pageSize c'.tree := by
  obtain ⟨⟨c₁, L⟩, hins, hrun⟩ := exists_of_bind_eq_ok hrun
  dsimp only at hrun
  have hinv := (insert_inv h hown hins).1
  obtain ⟨c₂, found, node, hmatch, hinv₂, -⟩ := matchPrefix_inv now req.unfinishedKey hinv
  split at hrun
  · obtain ⟨_, hmatch', hrun⟩ := exists_of_bind_eq_ok hrun
    cases hmatch.symm.trans hmatch'
    split at hrun
    · obtain ⟨c₃, hlock, hrun⟩ := exists_of_bind_eq_ok hrun
      split at hrun
      · cases hrun
        exact moveLock_inv hinv₂ hlock
      · cases hrun
    · cases hrun
  · cases hrun

theorem step_inv {e : Event} (h : Inv cfg.pageSize c.tree) (hheeds : Heeds cfg c e)
    (hstep : step cfg c e = .ok c') : Inv cfg.pageSize c'.tree := by
  have hmap : ∀ {β : Type} {x : Except Error (RadixTree × β)}, x.map Prod.fst = .ok c' →
      ∃ b, x = .ok (c', b) := by
    intro β x hx
    cases x with
    | error => cases hx
    | ok r =>
      cases hx
      exact ⟨r.2, rfl⟩
  cases e with
  | matchPrefix now key =>
    obtain ⟨_, hrun⟩ := hmap hstep
    obtain ⟨c₁, found, node, hrun', hinv, -⟩ := matchPrefix_inv now key h
    cases hrun'.symm.trans hrun
    exact hinv
  | cacheUnfinishedReq now req =>
    obtain ⟨r, hrun⟩ := hmap hstep
    exact cacheUnfinishedReq_inv h hheeds hrun
  | cacheFinishedReq now req isInsert =>
    obtain ⟨r, hrun⟩ := hmap hstep
    exact cacheFinishedReq_inv h hheeds hrun
  | evict ties numTokens =>
    obtain ⟨r, hrun⟩ := hmap hstep
    obtain ⟨c₁, evicted, hrun', hinv⟩ := evict_inv ties numTokens h
    cases hrun'.symm.trans hrun
    exact hinv
  | incLockRef node => exact lockRef_inv h hstep
  | decLockRef node => exact lockRef_inv h hstep
  | reset now =>
    cases hstep
    exact inv_init h.wf.ps_pos now

theorem run_inv {start : ℤ} (hps : 0 < cfg.pageSize)
    (hrun : Relation.ReflTransGen (HeedingStep cfg) (init start) c) : Inv cfg.pageSize c.tree := by
  induction hrun with
  | refl => exact inv_init hps start
  | tail _ hlast ih =>
    obtain ⟨e, hheeds, hstep⟩ := hlast
    exact step_inv ih hheeds hstep

/-- Pages of one token. -/
def singles : Config := ⟨false, 1⟩

/-- A finished request of tenant `a`, with two tokens in the slots 10 and 11. -/
def tenantA : Req := ⟨some "a", [1, 2], [], [1, 2], 2, [10, 11], [], 0⟩

/-- **When namespaces are isolated.** After any history in which what is inserted continues pages of its own
namespace, a lookup returns slots of its own namespace only if and only if its first page is not in the tree for
another one; and the lookup that follows an insertion returns slots of its own namespace only. -/
theorem namespaces_isolated {start : ℤ} (hps : 0 < cfg.pageSize)
    (hrun : Relation.ReflTransGen (HeedingStep cfg) (init start) c) :
    (∀ now key, ∃ c' found node, matchPrefix cfg now c key = .ok (c', found, node) ∧
      ((∀ slot ∈ found, slot.insertedBy = key.extraKey) ↔ Own cfg c key)) ∧
    ∀ now key value c₁ L, Own cfg c key → insert cfg now c key value = .ok (c₁, L) →
      ∀ now', ∃ c' found node, matchPrefix cfg now' c₁ key = .ok (c', found, node) ∧
        ∀ slot ∈ found, slot.insertedBy = key.extraKey := by
  have h := run_inv hps hrun
  refine ⟨fun now key => ?_, fun now key value c₁ L hown hins now' => ?_⟩
  · obtain ⟨c', found, node, hmatch, -, hiff⟩ := matchPrefix_inv now key h
    exact ⟨c', found, node, hmatch, hiff⟩
  · obtain ⟨hinv, hown'⟩ := insert_inv h hown hins
    obtain ⟨c', found, node, hmatch, -, hiff⟩ := matchPrefix_inv now' key hinv
    exact ⟨c', found, node, hmatch, hiff.mpr hown'⟩

/-- Tenant `a` has inserted its prompt; it finds it again, and another prompt of tenant `b` finds nothing. -/
theorem namespaces_isolated_tenantA : ∃ c, Relation.ReflTransGen (HeedingStep singles) (init 0) c ∧
    (∀ now, ∃ c' found node, matchPrefix singles now c ⟨[1, 2], some "a", false⟩ = .ok (c', found, node) ∧
      ∀ slot ∈ found, slot.insertedBy = some "a") ∧
    ∀ now, ∃ c' found node, matchPrefix singles now c ⟨[3, 2], some "b", false⟩ = .ok (c', found, node) ∧
      ∀ slot ∈ found, slot.insertedBy = some "b" := by
  have hstep : HeedingStep singles (init 0) _ := ⟨.cacheFinishedReq 1 tenantA true, by rintro - - c nd ⟨⟩, rfl⟩
  have hall := (namespaces_isolated Nat.one_pos (.single hstep)).1
  refine ⟨_, .single hstep, fun now => ?_, fun now => ?_⟩
  · obtain ⟨c', found, node, hmatch, hiff⟩ := hall now ⟨[1, 2], some "a", false⟩
    refine ⟨c', found, node, hmatch, hiff.mpr ?_⟩
    rintro - c nd ⟨⟩ ⟨⟩
    decide
  · obtain ⟨c', found, node, hmatch, hiff⟩ := hall now ⟨[3, 2], some "b", false⟩
    refine ⟨c', found, node, hmatch, hiff.mpr ?_⟩
    rintro - c nd ⟨⟩

/-- Tenant `b` asks with the prompt of tenant `a` and gets its slots. -/
theorem foreign_slots_returned : ∃ c, Relation.ReflTransGen (Step singles) (init 0) c ∧
    ∃ c' node, matchPrefix singles 2 c ⟨[1, 2], some "b", false⟩ =
      .ok (c', [⟨10, some "a"⟩, ⟨11, some "a"⟩], node) :=
  ⟨_, .single ⟨.cacheFinishedReq 1 tenantA true, rfl⟩, _, _, rfl⟩

end RadixCacheCpp

end SGLang.MemCache.Cpp
