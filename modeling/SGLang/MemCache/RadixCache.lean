/-
# SGLang.MemCache.RadixCache — the radix tree over device slots.

The model of `RadixCache`: lookup and insertion with node splits, eviction through a heap of
evictable leaves, and reference locks on root paths. A tree node is an address in a `PageTree`. A
node that is evicted leaves the tree, and `reset` starts a new root at a fresh address; a caller that
still holds such a node holds an object that is `detached`, which the lock walks still change.

The model is parametrised over what a node carries besides the fields of `NodeData` (`Payload`), and
over what is recorded when nodes come and go (`Recorder`). By default that is nothing: page hashes and
events are in `SGLang.MemCache.RadixCacheEvents`.

The clock is read once per operation (`now`). The order in which `heapq` pops entries of equal rank
is an input (`ties`).
-/
import SGLang.MemCache.RadixKey
import SGLang.Lib.PageTreeLocks

namespace SGLang.MemCache

open SGLang.Lib RadixKey

/-! ## State -/

/-- `TreeNode`, without its links and its key. -/
structure NodeData where
  value : List ℕ
  lockRef : ℤ
  lastAccessTime : ℤ
  creationTime : ℤ
  hitCount : ℕ
  priority : ℤ
deriving DecidableEq, Repr

namespace NodeData

/-- `node.last_access_time = access_time`. -/
def touch (now : ℤ) (d : NodeData) : NodeData := { d with lastAccessTime := now }

/-- `node.priority = max(node.priority, priority)`. -/
def raisePriority (priority : ℤ) (d : NodeData) : NodeData :=
  { d with priority := max d.priority priority }

/-- `RadixCache._inc_hit_count`. -/
def incHitCount (chunked : Bool) (d : NodeData) : NodeData :=
  if chunked then d else { d with hitCount := d.hitCount + 1 }

/-- `node.lock_ref += delta`. -/
def addLock (delta : ℤ) (d : NodeData) : NodeData := { d with lockRef := d.lockRef + delta }

/-- The fields `_split_node` gives the new node. -/
def upper (now : ℤ) (splitLen : ℕ) (d : NodeData) : NodeData :=
  ⟨d.value.take splitLen, d.lockRef, now, now, d.hitCount, d.priority⟩

/-- The fields `_split_node` leaves the child. -/
def lower (splitLen : ℕ) (d : NodeData) : NodeData := { d with value := d.value.drop splitLen }

end NodeData

/-- What the cache does with the payload of a node: it has the fields of `NodeData`, which it updates, and
it makes the payload of a new root, of a new leaf, and of the two halves of a split. -/
class Payload (π : Type) where
  base : π → NodeData
  onBase : (NodeData → NodeData) → π → π
  ofRoot : NodeData → π
  ofLeaf : NodeData → π
  upper (ps : ℕ) (now : ℤ) (splitLen : ℕ) : π → π
  lower (ps splitLen : ℕ) : π → π

export Payload (base onBase)

/-- What becomes of the fields of `NodeData` does not depend on the rest. -/
class LawfulPayload (π : Type) [Payload π] : Prop where
  base_onBase : ∀ (g : NodeData → NodeData) (d : π), base (onBase g d) = g (base d)
  base_upper : ∀ (ps : ℕ) (now : ℤ) (m : ℕ) (d : π), base (Payload.upper ps now m d) = (base d).upper now m
  base_lower : ∀ (ps m : ℕ) (d : π), base (Payload.lower ps m d) = (base d).lower m
  base_ofRoot : ∀ d : NodeData, base (Payload.ofRoot d : π) = d
  base_ofLeaf : ∀ d : NodeData, base (Payload.ofLeaf d : π) = d

instance : Payload NodeData where
  base d := d
  onBase g := g
  ofRoot d := d
  ofLeaf d := d
  upper _ := NodeData.upper
  lower _ := NodeData.lower

instance : LawfulPayload NodeData :=
  ⟨fun _ _ => rfl, fun _ _ _ _ => rfl, fun _ _ _ => rfl, fun _ => rfl, fun _ => rfl⟩

@[simp] theorem base_nodeData (d : NodeData) : base d = d := rfl

@[simp] theorem onBase_nodeData (g : NodeData → NodeData) : onBase g = g := rfl

@[simp] theorem ofLeaf_nodeData (d : NodeData) : Payload.ofLeaf d = d := rfl

abbrev TreeOf (π : Type) := PageTree RadixKey ChildKey π

abbrev Tree := TreeOf NodeData

/-- The eviction strategies of `evict_policy.py`. -/
inductive EvictionPolicy
  | lru | lfu | fifo | mru | filo | priority | slru
deriving DecidableEq, Repr

/-- `SLRUStrategy.protected_threshold`. -/
def protectedThreshold : ℕ := 2

/-- `EvictionStrategy.get_priority`; smaller is evicted earlier. -/
def EvictionPolicy.getPriority : EvictionPolicy → NodeData → ℤ ×ₗ ℤ
  | .lru, d => toLex (d.lastAccessTime, 0)
  | .lfu, d => toLex (d.hitCount, d.lastAccessTime)
  | .fifo, d => toLex (d.creationTime, 0)
  | .mru, d => toLex (-d.lastAccessTime, 0)
  | .filo, d => toLex (-d.creationTime, 0)
  | .priority, d => toLex (d.priority, d.lastAccessTime)
  | .slru, d => toLex (if protectedThreshold ≤ d.hitCount then 1 else 0, d.lastAccessTime)

structure Config where
  pageSize : ℕ
  isEagle : Bool
  disableFinishedInsert : Bool
  evictionPolicy : EvictionPolicy
deriving DecidableEq, Repr

/-- The cache, with the objects that have left the tree. The root of a tree that was reset away is its own
parent, for `None`. -/
structure RadixCache (π : Type := NodeData) (ε : Type := Unit) where
  tree : TreeOf π
  evictableSize : ℤ
  protectedSize : ℤ
  evictableLeaves : Finset ℕ
  detached : ℕ → Option (Node RadixKey ChildKey π)
  kvEventQueue : ε

/-- What is recorded of a node that was stored, of one that was removed, and of a reset. -/
structure Recorder (π ε : Type) where
  storeEvent : RadixCache π ε → ℕ → RadixCache π ε
  removeEvent : RadixCache π ε → Node RadixKey ChildKey π → RadixCache π ε
  allClearedEvent : RadixCache π ε → RadixCache π ε

/-- Nothing is recorded. -/
def Recorder.silent {π ε : Type} : Recorder π ε := ⟨fun c _ => c, fun c _ => c, id⟩

structure MatchResult where
  deviceIndices : List ℕ
  lastNode : ℕ
deriving DecidableEq, Repr

/-- `node.<field>` on an object that has to be there. -/
def getNode {π : Type} (t : TreeOf π) (n : ℕ) : Except Error (Node RadixKey ChildKey π) :=
  match t.nodes n with
  | some nd => .ok nd
  | none => .error .missingNode

/-- `RadixKey(token_ids=[], extra_key=None)`, the key of every root. -/
def rootKey : RadixKey := ⟨[], none, false⟩

/-- `sys.maxsize`. -/
def maxsize : ℤ := 2 ^ 63 - 1

namespace RadixCache

/-- The root node `RadixCache.reset` makes: locked once, so that it is never evicted. -/
def rootData (now : ℤ) : NodeData := ⟨[], 1, now, now, 0, -maxsize⟩

variable {π ε : Type}

/-- A node, in the tree or detached. -/
def object (c : RadixCache π ε) (n : ℕ) : Option (Node RadixKey ChildKey π) :=
  (c.tree.nodes n).or (c.detached n)

def getObject (c : RadixCache π ε) (n : ℕ) : Except Error (Node RadixKey ChildKey π) :=
  match c.object n with
  | some nd => .ok nd
  | none => .error .missingNode

/-- The root of a tree that was reset away; its parent is `None`. -/
def IsOldRoot (c : RadixCache π ε) (n : ℕ) (nd : Node RadixKey ChildKey π) : Prop :=
  c.tree.nodes n = none ∧ nd.parent = n

instance (c : RadixCache π ε) (n : ℕ) (nd : Node RadixKey ChildKey π) : Decidable (c.IsOldRoot n nd) :=
  decidable_of_iff ((c.tree.nodes n).isNone ∧ nd.parent = n) (by rw [IsOldRoot, Option.isNone_iff_eq_none])

/-- Change a node in place, in the tree or detached. -/
def modifyObject (c : RadixCache π ε) (n : ℕ) (f : Node RadixKey ChildKey π → Node RadixKey ChildKey π) :
    RadixCache π ε :=
  if (c.tree.nodes n).isSome then { c with tree := c.tree.modify n f }
  else { c with detached := Function.update c.detached n ((c.detached n).map f) }

section Live

variable {c : RadixCache π ε} {n : ℕ} {nd : Node RadixKey ChildKey π} (h : c.tree.nodes n = some nd)
include h

@[simp] theorem object_live : c.object n = some nd := by
  rw [object, h, Option.some_or]

@[simp] theorem getObject_live : c.getObject n = .ok nd := by
  rw [getObject, object_live h]

theorem not_isOldRoot : ¬ c.IsOldRoot n nd := by
  rintro ⟨hnone, -⟩
  rw [h] at hnone
  cases hnone

theorem modifyObject_live (f : Node RadixKey ChildKey π → Node RadixKey ChildKey π) :
    c.modifyObject n f = { c with tree := c.tree.modify n f } := by
  rw [modifyObject, h, Option.isSome_some, if_pos rfl]

end Live

variable [Payload π]

/-- A cache with a new root only. -/
def fresh (root : ℕ) (now : ℤ) (detached : ℕ → Option (Node RadixKey ChildKey π)) (queue : ε) :
    RadixCache π ε :=
  ⟨.single root rootKey (Payload.ofRoot (rootData now)), 0, 0, ∅, detached, queue⟩

/-- The cache after `__init__`. -/
def init (now : ℤ) : RadixCache := fresh 0 now (fun _ => none) ()

/-- `RadixCache.reset`. -/
def reset (now : ℤ) (c : RadixCache π ε) (R : Recorder π ε := .silent) : RadixCache π ε :=
  R.allClearedEvent (fresh c.tree.next now c.object c.kvEventQueue)

/-! ## Lookup -/

/-- `RadixCache._split_node`. -/
def splitNode (ps : ℕ) (now : ℤ) (t : TreeOf π) (child splitLen : ℕ) : TreeOf π × ℕ :=
  t.splitAt ps child splitLen (Payload.upper ps now splitLen) (Payload.lower ps splitLen)

/-- The loop of `RadixCache._match_prefix_helper`. -/
def matchLoop (ps : ℕ) (now : ℤ) :
    ℕ → TreeOf π → ℕ → RadixKey → List ℕ → Except Error (TreeOf π × List ℕ × ℕ)
  | 0, _, _, _, _ => .error .outOfFuel
  | fuel + 1, t, node, key, value =>
    if 0 < key.len then
      match t.child node (key.childKey ps) with
      | none => .ok (t, value, node)
      | some child => do
        let t := t.modifyData child (onBase (NodeData.touch now))
        let cd ← getNode t child
        let prefixLen ← cd.key.matchKey key ps
        if prefixLen < cd.key.len then
          let (t, newNode) := splitNode ps now t child prefixLen
          .ok (t, value ++ (base cd.data).value.take prefixLen, newNode)
        else matchLoop ps now fuel t child (key.drop prefixLen) (value ++ (base cd.data).value)
    else .ok (t, value, node)

/-- `RadixCache._match_prefix_helper` from the root. Every round of the loop consumes a page. -/
def matchPrefixHelper (ps : ℕ) (now : ℤ) (t : TreeOf π) (key : RadixKey) :
    Except Error (TreeOf π × List ℕ × ℕ) :=
  matchLoop ps now (key.len + 1) (t.modifyData t.root (onBase (NodeData.touch now))) t.root key []

/-- `RadixCache.match_prefix`. -/
def matchPrefix (cfg : Config) (now : ℤ) (c : RadixCache π ε) (key : RadixKey) :
    Except Error (RadixCache π ε × MatchResult) :=
  let (key, _) := key.maybeToBigramView cfg.isEagle ([] : List ℕ)
  if key.len = 0 then .ok (c, ⟨[], c.tree.root⟩)
  else
    let key := key.pageAligned cfg.pageSize
    if key.len = 0 then .ok (c, ⟨[], c.tree.root⟩)
    else do
      let (t, value, lastNode) ← matchPrefixHelper cfg.pageSize now c.tree key
      .ok ({ c with tree := t }, ⟨value, lastNode⟩)

/-! ## Insertion -/

/-- `RadixCache._update_leaf_status`; no node of this cache has `value` `None`. -/
def updateLeafStatus (c : RadixCache π ε) (n : ℕ) : RadixCache π ε :=
  match c.object n with
  | none => c
  | some nd =>
    if 0 < (base nd.data).lockRef then { c with evictableLeaves := c.evictableLeaves.erase n }
    else if nd.children.entries = [] then { c with evictableLeaves := insert n c.evictableLeaves }
    else { c with evictableLeaves := c.evictableLeaves.erase n }

theorem updateLeafStatus_eq (c : RadixCache π ε) (n : ℕ) :
    ∃ leaves, c.updateLeafStatus n = { c with evictableLeaves := leaves } := by
  unfold updateLeafStatus
  split
  · exact ⟨_, rfl⟩
  · split
    · exact ⟨_, rfl⟩
    · split <;> exact ⟨_, rfl⟩

section LeafStatus

variable {c : RadixCache π ε} {n : ℕ}

@[simp] theorem updateLeafStatus_tree : (c.updateLeafStatus n).tree = c.tree := by
  obtain ⟨_, h⟩ := updateLeafStatus_eq c n
  rw [h]

@[simp] theorem updateLeafStatus_evictableSize : (c.updateLeafStatus n).evictableSize = c.evictableSize := by
  obtain ⟨_, h⟩ := updateLeafStatus_eq c n
  rw [h]

@[simp] theorem updateLeafStatus_protectedSize : (c.updateLeafStatus n).protectedSize = c.protectedSize := by
  obtain ⟨_, h⟩ := updateLeafStatus_eq c n
  rw [h]

@[simp] theorem updateLeafStatus_queue : (c.updateLeafStatus n).kvEventQueue = c.kvEventQueue := by
  obtain ⟨_, h⟩ := updateLeafStatus_eq c n
  rw [h]

end LeafStatus

/-- The loop of `RadixCache._insert_helper`. -/
def insertLoop (ps : ℕ) (now priority : ℤ) (chunked : Bool) :
    ℕ → TreeOf π → ℕ → RadixKey → List ℕ → ℕ → Except Error (TreeOf π × ℕ × RadixKey × List ℕ × ℕ)
  | 0, _, _, _, _, _ => .error .outOfFuel
  | fuel + 1, t, node, key, value, total =>
    if 0 < key.len then
      match t.child node (key.childKey ps) with
      | none => .ok (t, node, key, value, total)
      | some child => do
        let t := t.modifyData child (onBase (NodeData.touch now))
        let cd ← getNode t child
        let prefixLen ← cd.key.matchKey key ps
        let key := key.drop prefixLen
        let value := value.drop prefixLen
        let hit := onBase fun d => (d.raisePriority priority).incHitCount chunked
        if prefixLen < cd.key.len then
          let (t, newNode) := splitNode ps now t child prefixLen
          insertLoop ps now priority chunked fuel (t.modifyData newNode hit) newNode key value
            (total + prefixLen)
        else
          insertLoop ps now priority chunked fuel (t.modifyData child hit) child key value
            (total + prefixLen)
    else .ok (t, node, key, value, total)

/-- The fields of the node `_insert_helper` appends. -/
def newData (now priority : ℤ) (chunked : Bool) (value : List ℕ) : NodeData :=
  NodeData.incHitCount chunked ⟨value, 0, now, now, 0, priority⟩

/-- `RadixCache._insert_helper` from the root; returns the length of the prefix already there. -/
def insertHelper (R : Recorder π ε) (ps : ℕ) (now : ℤ) (c : RadixCache π ε) (key : RadixKey) (value : List ℕ)
    (priority : ℤ) (chunked : Bool) : Except Error (RadixCache π ε × ℕ) := do
  let root := c.tree.root
  let t := c.tree.modifyData root (onBase fun d => (d.touch now).raisePriority priority)
  if key.len = 0 then .ok ({ c with tree := t }, 0)
  else
    let (t, node, key, value, total) ←
      insertLoop ps now priority chunked (key.len + 1) t root key value 0
    if 0 < key.len then
      let (t, newNode) := t.addLeaf ps node key (Payload.ofLeaf (newData now priority chunked value))
      let c := { c with tree := t, evictableSize := c.evictableSize + key.len }
      let c := (c.updateLeafStatus node).updateLeafStatus newNode
      .ok (R.storeEvent c newNode, total)
    else .ok ({ c with tree := t }, total)

/-- `InsertParams`, as far as this cache reads it. -/
structure InsertParams where
  key : RadixKey
  value : Option (List ℕ)
  priority : Option ℤ
  chunked : Bool
deriving DecidableEq, Repr

/-- The key `RadixCache.insert` walks with. -/
def insertKey (cfg : Config) (p : InsertParams) : RadixKey :=
  (p.key.maybeToBigramView cfg.isEagle (p.value.getD [])).1.pageAligned cfg.pageSize

/-- The slots `RadixCache.insert` stores: the given ones, cut to the key, or the token ids. -/
def insertValue (cfg : Config) (p : InsertParams) : List ℕ :=
  let key := insertKey cfg p
  match p.value with
  | some v => (p.key.maybeToBigramView cfg.isEagle v).2.take key.len
  | none => key.tokenIds.take key.len

/-- `RadixCache.insert`. -/
def insert (cfg : Config) (now : ℤ) (c : RadixCache π ε) (p : InsertParams) (R : Recorder π ε := .silent) :
    Except Error (RadixCache π ε × ℕ) :=
  insertHelper R cfg.pageSize now c (insertKey cfg p) (insertValue cfg p) (p.priority.getD 0) p.chunked

/-! ## Eviction -/

/-- Take a node out of the dictionary of its parent; if it was in the tree, it is detached. -/
def unlink (ps : ℕ) (c : RadixCache π ε) (n : ℕ) (nd : Node RadixKey ChildKey π) : RadixCache π ε :=
  if (c.tree.nodes n).isSome then
    { c with tree := c.tree.removeLeaf ps n, detached := Function.update c.detached n (some nd) }
  else c.modifyObject nd.parent fun pd => { pd with children := pd.children.erase (nd.key.childKey ps) }

/-- `RadixCache._delete_leaf`. -/
def deleteLeaf (ps : ℕ) (c : RadixCache π ε) (n : ℕ) : Except Error (RadixCache π ε) := do
  let nd ← c.getObject n
  if c.IsOldRoot n nd then .error .missingNode
  else if (c.object nd.parent).bind (·.children.lookup (nd.key.childKey ps)) = some n then
    let c := { c.unlink ps n nd with
      evictableSize := c.evictableSize - nd.key.len
      evictableLeaves := c.evictableLeaves.erase n }
    .ok (c.updateLeafStatus nd.parent)
  else .error (.assertion "parent does not have child key")

/-- An entry of the eviction heap, ranked by priority and then by `TreeNode.__lt__`. -/
structure HeapEntry where
  rank : (ℤ ×ₗ ℤ) ×ₗ ℤ
  node : ℕ
deriving DecidableEq

/-- The heap entry of a node. -/
def heapEntry (cfg : Config) (d : NodeData) (n : ℕ) : HeapEntry :=
  ⟨toLex (cfg.evictionPolicy.getPriority d, d.lastAccessTime), n⟩

/-- `heapq.heappop`: some entry of least rank; `tie` says which. -/
def heappop (tie : ℕ) (heap : List HeapEntry) : Option (HeapEntry × List HeapEntry) :=
  let least := heap.filter fun e => heap.all fun e' => e.rank ≤ e'.rank
  match least[tie % least.length]? with
  | none => none
  | some e => some (e, heap.erase e)

/-- The heap of the leaves evictable right now. -/
def evictionHeap (cfg : Config) (c : RadixCache π ε) : List HeapEntry :=
  (c.evictableLeaves.sort (· ≤ ·)).filterMap fun n =>
    (c.object n).map fun nd => heapEntry cfg (base nd.data) n

/-- The loop of `RadixCache.evict`: the new cache, the values freed one by one, and how many slots they
are. -/
def evictLoop (R : Recorder π ε) (cfg : Config) (numTokens : ℕ) (ties : ℕ → ℕ) : ℕ → RadixCache π ε →
    List HeapEntry → ℕ → List (List ℕ) → Except Error (RadixCache π ε × List (List ℕ) × ℕ)
  | 0, _, _, _, _ => .error .outOfFuel
  | fuel + 1, c, heap, numEvicted, freed =>
    if numEvicted < numTokens then
      match heappop (ties fuel) heap with
      | none => .ok (c, freed, numEvicted)
      | some (e, heap) => do
        let x ← c.getObject e.node
        let c ← c.deleteLeaf cfg.pageSize e.node
        let pd ← c.getObject x.parent
        let heap :=
          if pd.children.entries = [] ∧ (base pd.data).lockRef = 0 then
            heap ++ [heapEntry cfg (base pd.data) x.parent]
          else heap
        evictLoop R cfg numTokens ties fuel (R.removeEvent c x) heap (numEvicted + (base x.data).value.length)
          (freed ++ [(base x.data).value])
    else .ok (c, freed, numEvicted)

/-- `RadixCache.evict`. Every round frees a slot, so `numTokens` rounds are enough. -/
def evict (cfg : Config) (ties : ℕ → ℕ) (c : RadixCache π ε) (numTokens : ℕ) (R : Recorder π ε := .silent) :
    Except Error (RadixCache π ε × List (List ℕ) × ℕ) :=
  evictLoop R cfg numTokens ties (numTokens + 1) c (c.evictionHeap cfg) 0 []

/-! ## Locks -/

/-- The nodes a lock walk visits, from `n` up along `parent`, and whether it ends at the root. From a node of a
tree that was reset away it ends at the old root, whose parent is `None`. -/
def lockWalk (c : RadixCache π ε) : ℕ → ℕ → List ℕ × Bool
  | 0, n => ([], decide (n = c.tree.root))
  | fuel + 1, n =>
    if n = c.tree.root then ([], true)
    else match c.object n with
      | none => ([], false)
      | some nd =>
        if c.IsOldRoot n nd then ([n], false)
        else (c.lockWalk fuel nd.parent).map (n :: ·) id

omit [Payload π] in
/-- In the tree a lock walk follows the parents up to the root. -/
theorem lockWalk_of_upAux {c : RadixCache π ε} {fuel n : ℕ} {l : List ℕ} (h : c.tree.upAux fuel n = some l) :
    c.lockWalk fuel n = (l, true) := by
  induction fuel generalizing n l with
  | zero =>
    simp only [PageTree.upAux] at h
    split at h
    · next hr =>
      cases h
      simp [lockWalk, hr]
    · cases h
  | succ fuel ih =>
    simp only [PageTree.upAux] at h
    simp only [lockWalk]
    split at h
    · next hr =>
      cases h
      rw [if_pos hr]
    · next hr =>
      rw [if_neg hr]
      cases hn : c.tree.nodes n with
      | none => simp [hn] at h
      | some nd =>
        simp only [hn, Option.map_eq_some_iff] at h
        obtain ⟨l', hl', rfl⟩ := h
        simp [object_live hn, not_isOldRoot hn, ih hl']

/-- `node.lock_ref += delta`, on the node `n`. -/
def shiftLock (c : RadixCache π ε) (n : ℕ) (delta : ℤ) : RadixCache π ε :=
  c.modifyObject n fun nd => { nd with data := onBase (NodeData.addLock delta) nd.data }

theorem shiftLock_live {c : RadixCache π ε} {n : ℕ} {nd : Node RadixKey ChildKey π}
    (h : c.tree.nodes n = some nd)
    (delta : ℤ) : c.shiftLock n delta =
      { c with tree := c.tree.modifyData n (onBase (NodeData.addLock delta)) } :=
  modifyObject_live h _

/-- One round of `RadixCache.inc_lock_ref`; the second component is `delta`. -/
def incStep (s : RadixCache π ε × ℤ) (n : ℕ) : RadixCache π ε × ℤ :=
  match s.1.object n with
  | none => s
  | some nd =>
    let moved : ℤ := if (base nd.data).lockRef = 0 then nd.key.len else 0
    let c := { s.1.shiftLock n 1 with
      evictableSize := s.1.evictableSize - moved
      protectedSize := s.1.protectedSize + moved }
    (c.updateLeafStatus n, s.2 - moved)

/-- `RadixCache.inc_lock_ref`: the cache afterwards, and what is returned. A walk that does not end at the root
raises on `None`, after its rounds. -/
def incLockRef (c : RadixCache π ε) (n : ℕ) : RadixCache π ε × Except Error ℤ :=
  let (path, atRoot) := c.lockWalk c.tree.next n
  let (c, delta) := path.foldl incStep (c, 0)
  (c, if atRoot then .ok delta else .error .missingNode)

/-- One round of `RadixCache.dec_lock_ref`. -/
def decStep (s : RadixCache π ε × ℤ) (n : ℕ) : RadixCache π ε × ℤ :=
  match s.1.object n with
  | none => s
  | some nd =>
    let moved : ℤ := if (base nd.data).lockRef = 1 then nd.key.len else 0
    let c := { s.1.shiftLock n (-1) with
      evictableSize := s.1.evictableSize + moved
      protectedSize := s.1.protectedSize - moved }
    (c.updateLeafStatus n, s.2 + moved)

/-- `RadixCache.dec_lock_ref`. The rounds of a walk that does not end at the root are made before its assertion
fails. -/
def decLockRef (c : RadixCache π ε) (n : ℕ) : RadixCache π ε × Except Error ℤ :=
  let (path, atRoot) := c.lockWalk c.tree.next n
  let (c, delta) := path.foldl decStep (c, 0)
  (c, if atRoot then .ok delta else .error (.assertion "This request holds the node from another tree"))

/-- The result of a call whose exceptions the caller passes on. -/
def returned {α : Type} : RadixCache π ε × Except Error α → Except Error (RadixCache π ε × α)
  | (c, r) => r.map (c, ·)

omit [Payload π] in
@[simp] theorem returned_ok {α : Type} {c : RadixCache π ε} {a : α} : returned (c, .ok a) = .ok (c, a) := rfl

end RadixCache

end SGLang.MemCache
