/-
# SGLang.MemCache.RadixCacheEvents — RadixCache with page hashes and events.

What the plain `RadixCache` leaves out: the `hash_value` of a node, which is computed when the node is first
announced and cut in two by splits, and the event queue. The operations are those of
`SGLang.MemCache.RadixCache` with another payload and recorder. `forget` drops what a node carries besides
`NodeData`, and the queue; every operation commutes with it, for every payload and every recorder that
cannot be seen afterwards.
-/
import SGLang.MemCache.KVEvents
import SGLang.MemCache.RadixCacheAccounting
import SGLang.Lib.PageTreeMap

namespace SGLang.MemCache

open SGLang.Lib SGLang.Lib.PageTree RadixKey Prod

/-! ## Forgetting -/

namespace RadixCache

variable {π ε : Type} [Payload π]

/-- The tree with the fields of `NodeData` only. -/
def forgetTree (t : TreeOf π) : Tree := t.mapData base

/-- The cache with the fields of `NodeData` only, and without events. -/
def forget (c : RadixCache π ε) : RadixCache :=
  ⟨forgetTree c.tree, c.evictableSize, c.protectedSize, c.evictableLeaves,
    fun n => (c.detached n).map (Node.mapData base), ()⟩

/-- What is recorded cannot be seen afterwards. -/
structure Unseen (R : Recorder π ε) : Prop where
  store : ∀ c n, (R.storeEvent c n).forget = c.forget
  remove : ∀ c nd, (R.removeEvent c nd).forget = c.forget
  cleared : ∀ c, (R.allClearedEvent c).forget = c.forget

variable {R : Recorder π ε} {cfg : Config} {c : RadixCache π ε} {t : TreeOf π} {ties : ℕ → ℕ}
variable {n m ps fuel total numEvicted numTokens : ℕ} {now priority : ℤ} {chunked : Bool}
variable {key : RadixKey} {value : List ℕ} {g : NodeData → NodeData} {α β β' : Type} {s : RadixCache π ε × ℤ}
variable {nd : Node RadixKey ChildKey π}

@[simp] theorem forget_tree : c.forget.tree = forgetTree c.tree := rfl

@[simp] theorem forgetTree_root : (forgetTree t).root = t.root := rfl

@[simp] theorem forgetTree_next : (forgetTree t).next = t.next := rfl

@[simp] theorem forgetTree_child {ck : ChildKey} : (forgetTree t).child n ck = t.child n ck :=
  child_mapData

theorem getNode_forget : getNode (forgetTree t) n = (getNode t n).map (Node.mapData base) := by
  unfold getNode forgetTree
  rw [nodes_mapData]
  cases t.nodes n <;> rfl

theorem object_forget : c.forget.object n = (c.object n).map (Node.mapData base) := by
  unfold object
  rw [forget_tree, forgetTree, nodes_mapData]
  cases c.tree.nodes n <;> rfl

theorem getObject_forget : c.forget.getObject n = (c.getObject n).map (Node.mapData base) := by
  unfold getObject
  rw [object_forget]
  cases c.object n <;> rfl

theorem isSome_forget : (c.forget.tree.nodes n).isSome = (c.tree.nodes n).isSome := Option.isSome_map

theorem isOldRoot_forget : c.forget.IsOldRoot n (nd.mapData base) ↔ c.IsOldRoot n nd := by
  unfold IsOldRoot
  rw [forget_tree, forgetTree, nodes_mapData, Option.map_eq_none_iff]
  rfl

/-- Forgetting goes past a `bind` if it goes past what is bound. -/
theorem bind_forget {x : Except Error α} {k : α → Except Error β} {k' : α → Except Error β'} {f : β → β'}
    (h : ∀ a, k' a = (k a).map f) : x >>= k' = (x >>= k).map f := by
  cases x with
  | error e => rfl
  | ok a => exact h a

theorem map_bind_forget {α' : Type} {x : Except Error α} {r : α → α'} {k : α → Except Error β}
    {k' : α' → Except Error β'} {f : β → β'} (h : ∀ a, k' (r a) = (k a).map f) :
    x.map r >>= k' = (x >>= k).map f := by
  cases x with
  | error e => rfl
  | ok a => exact h a


theorem modifyObject_forget {f : Node RadixKey ChildKey π → Node RadixKey ChildKey π}
    {f' : Node RadixKey ChildKey NodeData → Node RadixKey ChildKey NodeData}
    (h : ∀ nd, (f nd).mapData base = f' (nd.mapData base)) :
    (c.modifyObject n f).forget = c.forget.modifyObject n f' := by
  unfold modifyObject
  rw [isSome_forget]
  split
  · have htree : forgetTree (c.tree.modify n f) = (forgetTree c.tree).modify n f' := mapData_modify h
    simp only [forget, htree]
  · have hcell : ((c.detached n).map f).map (Node.mapData base) =
        ((c.detached n).map (Node.mapData base)).map f' := by
      rw [Option.map_map, Option.map_map]
      exact congrArg (fun k => (c.detached n).map k) (funext h)
    have hdetached := map_update (f := base) (c := n) (N := c.detached) (v := (c.detached n).map f)
    rw [hcell] at hdetached
    simp only [forget, hdetached]

theorem updateLeafStatus_forget : c.forget.updateLeafStatus n = (c.updateLeafStatus n).forget := by
  unfold updateLeafStatus
  rw [object_forget]
  cases c.object n with
  | none => rfl
  | some nd =>
    dsimp only [Option.map_some, Node.mapData, base_nodeData]
    split
    · rfl
    · split <;> rfl

theorem unlink_forget : c.forget.unlink ps n (nd.mapData base) = (c.unlink ps n nd).forget := by
  unfold unlink
  rw [isSome_forget]
  split
  · have htree : forgetTree (c.tree.removeLeaf ps n) = (forgetTree c.tree).removeLeaf ps n := mapData_removeLeaf
    have hdetached : (fun x => (Function.update c.detached n (some nd) x).map (Node.mapData base)) =
        Function.update (fun x => (c.detached x).map (Node.mapData base)) n
          (some (nd.mapData base)) := map_update
    simp only [forget, htree, hdetached]
  · refine (modifyObject_forget ?_).symm
    exact fun _ => rfl

theorem deleteLeaf_forget : c.forget.deleteLeaf ps n = (c.deleteLeaf ps n).map forget := by
  unfold deleteLeaf
  rw [getObject_forget]
  refine map_bind_forget fun nd => ?_
  have hlookup : (c.forget.object nd.parent).bind (·.children.lookup (nd.key.childKey ps)) =
      (c.object nd.parent).bind (·.children.lookup (nd.key.childKey ps)) := by
    rw [object_forget]
    cases c.object nd.parent <;> rfl
  simp only [isOldRoot_forget, mapData_parent, mapData_key, hlookup, unlink_forget]
  split
  · rfl
  split
  · refine congrArg Except.ok (Eq.trans ?_ updateLeafStatus_forget)
    rfl
  · rfl

theorem evictionHeap_forget : c.forget.evictionHeap cfg = c.evictionHeap cfg := by
  unfold evictionHeap
  congr 1
  funext n
  rw [object_forget, Option.map_map]
  rfl

theorem evictLoop_forget (hR : Unseen R) {heap : List HeapEntry} {freed : List (List ℕ)} :
    evictLoop .silent cfg numTokens ties fuel c.forget heap numEvicted freed =
      (evictLoop R cfg numTokens ties fuel c heap numEvicted freed).map (map forget id) := by
  induction fuel generalizing c heap numEvicted freed with
  | zero => rfl
  | succ fuel ih =>
    rw [evictLoop, evictLoop]
    split
    · cases heappop (ties fuel) heap with
      | none => rfl
      | some r =>
        dsimp only
        rw [getObject_forget, deleteLeaf_forget]
        refine map_bind_forget fun x => map_bind_forget fun c' => ?_
        rw [getObject_forget]
        refine map_bind_forget fun pd => ?_
        rw [show Recorder.silent.removeEvent c'.forget (x.mapData base) = (R.removeEvent c' x).forget from
          (hR.remove c' x).symm]
        exact ih
    · rfl

/-- **Eviction forgets.** -/
theorem evict_forget (hR : Unseen R) : c.forget.evict cfg ties numTokens =
    (c.evict cfg ties numTokens R).map (map forget id) := by
  rw [evict, evict, evictionHeap_forget]
  exact evictLoop_forget hR

theorem lockWalk_forget : c.forget.lockWalk fuel n = c.lockWalk fuel n := by
  induction fuel generalizing n with
  | zero => rfl
  | succ fuel ih =>
    simp only [lockWalk, object_forget, forget_tree, forgetTree_root]
    cases c.object n with
    | none => rfl
    | some nd => simp only [Option.map_some, isOldRoot_forget, mapData_parent, ih]

theorem foldl_forget {f : RadixCache π ε × ℤ → ℕ → RadixCache π ε × ℤ}
    {f' : RadixCache × ℤ → ℕ → RadixCache × ℤ}
    (h : ∀ s n, f' (map forget id s) n = map forget id (f s n)) (l : List ℕ)
    (s : RadixCache π ε × ℤ) : l.foldl f' (map forget id s) = map forget id (l.foldl f s) := by
  induction l generalizing s with
  | nil => rfl
  | cons n l ih => rw [List.foldl_cons, List.foldl_cons, h, ih]

/-- What an operation returned, without what is recorded. -/
theorem forget_of_ok {c' : RadixCache π ε} {a : α} {r : Except Error (RadixCache × α)}
    {r' : Except Error (RadixCache π ε × α)} (heq : r = r'.map (map forget id)) (h : r' = .ok (c', a)) :
    r = .ok (c'.forget, a) := by
  rw [heq, h]
  rfl

/-- What an operation of the plain cache returned, the cache that records returns as well. -/
theorem ok_of_forget {d : RadixCache} {a : α} {r : Except Error (RadixCache × α)}
    {r' : Except Error (RadixCache π ε × α)} (heq : r = r'.map (map forget id)) (h : r = .ok (d, a)) :
    ∃ c', r' = .ok (c', a) ∧ c'.forget = d := by
  rw [heq] at h
  cases r' with
  | error e => cases h
  | ok x =>
    cases h
    exact ⟨x.1, rfl, rfl⟩

section Lawful

variable [LawfulPayload π]

@[simp] theorem forgetTree_onBase : forgetTree (t.modifyData n (onBase g)) = (forgetTree t).modifyData n g :=
  mapData_modifyData fun d => LawfulPayload.base_onBase g d

theorem splitNode_forget : splitNode ps now (forgetTree t) n m =
    (forgetTree (splitNode ps now t n m).1, (splitNode ps now t n m).2) := by
  rcases mapData_splitAt (t := t) (c := n) (m := m) (LawfulPayload.base_upper (π := π) ps now m)
    (LawfulPayload.base_lower ps m) with ⟨h₁, h₂⟩
  exact (Prod.ext h₁ h₂).symm

theorem matchLoop_forget : matchLoop ps now fuel (forgetTree t) n key value =
    (matchLoop ps now fuel t n key value).map (map forgetTree id) := by
  induction fuel generalizing t n key value with
  | zero => rfl
  | succ fuel ih =>
    rw [matchLoop, matchLoop, forgetTree_child]
    split
    · cases t.child n (key.childKey ps) with
      | none => rfl
      | some child =>
        dsimp only [onBase_nodeData]
        rw [← forgetTree_onBase, getNode_forget]
        refine map_bind_forget fun cd => bind_forget fun m => ?_
        rw [mapData_key]
        split
        · rw [splitNode_forget]
          rfl
        · exact ih
    · rfl

theorem insertLoop_forget : insertLoop ps now priority chunked fuel (forgetTree t) n key value
    total = (insertLoop ps now priority chunked fuel t n key value total).map (map forgetTree id) := by
  induction fuel generalizing t n key value total with
  | zero => rfl
  | succ fuel ih =>
    rw [insertLoop, insertLoop, forgetTree_child]
    split
    · cases t.child n (key.childKey ps) with
      | none => rfl
      | some child =>
        dsimp only [onBase_nodeData]
        rw [← forgetTree_onBase, getNode_forget]
        refine map_bind_forget fun cd => bind_forget fun m => ?_
        rw [mapData_key]
        split
        · rw [splitNode_forget, ← forgetTree_onBase]
          exact ih
        · rw [← forgetTree_onBase]
          exact ih
    · rfl

/-- **Lookup forgets.** -/
theorem matchPrefix_forget : c.forget.matchPrefix cfg now key =
    (c.matchPrefix cfg now key).map (map forget id) := by
  unfold matchPrefix
  dsimp only
  split
  · rfl
  · split
    · rfl
    · rw [matchPrefixHelper, forget_tree, forgetTree_root, onBase_nodeData, ← forgetTree_onBase,
        matchLoop_forget, matchPrefixHelper]
      exact map_bind_forget fun _ => rfl

theorem addLeaf_forget {d : NodeData} : (forgetTree t).addLeaf ps n key d =
    (forgetTree (t.addLeaf ps n key (Payload.ofLeaf d)).1, (t.addLeaf ps n key (Payload.ofLeaf d : π)).2) := by
  have hleaf : forgetTree (t.addLeaf ps n key (Payload.ofLeaf d)).1 = _ := mapData_addLeaf
  rw [LawfulPayload.base_ofLeaf] at hleaf
  exact Prod.ext hleaf.symm rfl

/-- **Insertion forgets.** -/
theorem insert_forget (hR : Unseen R) {p : InsertParams} : c.forget.insert cfg now p =
    (c.insert cfg now p R).map (map forget id) := by
  unfold insert insertHelper
  dsimp only [onBase_nodeData]
  rw [forget_tree, forgetTree_root, ← forgetTree_onBase]
  split
  · rfl
  · rw [insertLoop_forget]
    refine map_bind_forget fun r => ?_
    rcases r with ⟨t, w, rest, vs, total⟩
    simp only [map, id]
    split
    · rw [Except.map, map, hR.store, ofLeaf_nodeData, addLeaf_forget, ← updateLeafStatus_forget,
        ← updateLeafStatus_forget]
      rfl
    · rfl

theorem shiftLock_forget {delta : ℤ} : c.forget.shiftLock n delta = (c.shiftLock n delta).forget :=
  (modifyObject_forget fun nd => by simp only [Node.mapData, LawfulPayload.base_onBase, onBase_nodeData]).symm

/-- One round of either lock walk. -/
theorem lockStep_forget : incStep (map forget id s) n = map forget id (incStep s n) ∧
    decStep (map forget id s) n = map forget id (decStep s n) := by
  unfold incStep decStep
  dsimp only [map]
  rw [object_forget]
  cases s.1.object n with
  | none => exact ⟨rfl, rfl⟩
  | some nd =>
    simp only [Option.map_some, Node.mapData, id, base_nodeData, shiftLock_forget, ← updateLeafStatus_forget]
    exact ⟨rfl, rfl⟩

theorem incLockRef_forget : c.forget.incLockRef n = map forget id (c.incLockRef n) := by
  have hfold := foldl_forget (fun _ _ => lockStep_forget.1) (c.lockWalk c.tree.next n).1 (c, 0)
  rw [map, id] at hfold
  simp only [incLockRef, lockWalk_forget, forget_tree, forgetTree_next, hfold]
  rfl

theorem decLockRef_forget : c.forget.decLockRef n = map forget id (c.decLockRef n) := by
  have hfold := foldl_forget (fun _ _ => lockStep_forget.2) (c.lockWalk c.tree.next n).1 (c, 0)
  rw [map, id] at hfold
  simp only [decLockRef, lockWalk_forget, forget_tree, forgetTree_next, hfold]
  rfl

theorem fresh_forget {root : ℕ} {old : ℕ → Option (Node RadixKey ChildKey π)} {queue : ε} :
    (fresh root now old queue).forget = fresh root now (fun n => (old n).map (Node.mapData base)) () := by
  have htree : forgetTree (.single root rootKey (Payload.ofRoot (rootData now) : π)) =
      .single root rootKey (Payload.ofRoot (rootData now)) := by
    unfold forgetTree mapData single
    congr 1
    funext x
    dsimp only
    split
    · simp only [Option.map_some, Node.mapData, LawfulPayload.base_ofRoot]
      rfl
    · rfl
  simp only [forget, fresh, htree]

theorem reset_forget (hR : Unseen R) : (c.reset now R).forget = c.forget.reset now := by
  rw [reset, hR.cleared, fresh_forget]
  have hobject : c.forget.object = fun n => (c.object n).map (Node.mapData base) :=
    funext fun _ => object_forget
  simp only [reset, Recorder.silent, id, hobject, forget_tree, forgetTree_next]

/-! ## Calls -/

/-- The session of the plain cache. -/
def Session.forget (s : Session π ε) : Session := ⟨s.cache.forget, s.locks, s.inserted⟩

/-- Every call is one of the plain cache. -/
theorem Call.forget (hR : Unseen R) {s s' : Session π ε} (h : Call R cfg s s') :
    Step cfg s.forget s'.forget := by
  cases h with
  | insert hfit hrun => exact .insert hfit (forget_of_ok (insert_forget hR) hrun)
  | matchPrefix hrun => exact .matchPrefix (forget_of_ok matchPrefix_forget hrun)
  | evict hrun => exact .evict (forget_of_ok (evict_forget hR) hrun)
  | reset =>
    unfold Session.forget
    rw [reset_forget hR]
    exact .reset
  | incLockRef hn hrun =>
    exact .incLockRef (isSome_forget.trans hn)
      (incLockRef_forget.trans (congrArg (map RadixCache.forget id) hrun))
  | decLockRef hmem hn hrun =>
    exact .decLockRef hmem (isSome_forget.trans hn)
      (decLockRef_forget.trans (congrArg (map RadixCache.forget id) hrun))

/-- Every call of the plain cache is one of the cache that records. -/
theorem Call.lift (hR : Unseen R) {s : Session π ε} {p : Session} (h : Step cfg s.forget p) :
    ∃ s', Call R cfg s s' ∧ s'.forget = p := by
  obtain ⟨c, locks, log⟩ := s
  change Step cfg ⟨c.forget, locks, log⟩ p at h
  cases h with
  | insert hfit hrun =>
    obtain ⟨c', hrun', rfl⟩ := ok_of_forget (insert_forget hR) hrun
    exact ⟨_, .insert hfit hrun', rfl⟩
  | matchPrefix hrun =>
    obtain ⟨c', hrun', rfl⟩ := ok_of_forget matchPrefix_forget hrun
    exact ⟨_, .matchPrefix hrun', rfl⟩
  | evict hrun =>
    obtain ⟨c', hrun', rfl⟩ := ok_of_forget (evict_forget hR) hrun
    exact ⟨_, .evict hrun', rfl⟩
  | reset => exact ⟨_, .reset, by rw [Session.forget, reset_forget hR]⟩
  | incLockRef hn hrun =>
    obtain ⟨rfl, hδ⟩ := Prod.mk.inj (incLockRef_forget.symm.trans hrun)
    exact ⟨_, .incLockRef (isSome_forget.symm.trans hn) (Prod.ext rfl hδ), rfl⟩
  | decLockRef hmem hn hrun =>
    obtain ⟨rfl, hδ⟩ := Prod.mk.inj (decLockRef_forget.symm.trans hrun)
    exact ⟨_, .decLockRef hmem (isSome_forget.symm.trans hn) (Prod.ext rfl hδ), rfl⟩

end Lawful

end RadixCache

/-! ## Hashes and events -/

/-- `TreeNode` with its hashes. -/
structure EventNode extends NodeData where
  hashValue : Option (List Digest)
deriving DecidableEq, Repr

/-- A root has the empty list of hashes, a new leaf has none yet. -/
instance : Payload EventNode where
  base := EventNode.toNodeData
  onBase g d := ⟨g d.toNodeData, d.hashValue⟩
  ofRoot d := ⟨d, some []⟩
  ofLeaf d := ⟨d, none⟩
  upper ps now splitLen d :=
    ⟨d.toNodeData.upper now splitLen, (splitNodeHashValue d.hashValue splitLen ps).1⟩
  lower ps splitLen d := ⟨d.toNodeData.lower splitLen, (splitNodeHashValue d.hashValue splitLen ps).2⟩

instance : LawfulPayload EventNode :=
  ⟨fun _ _ => rfl, fun _ _ _ _ => rfl, fun _ _ _ => rfl, fun _ => rfl, fun _ => rfl⟩

/-- `node.hash_value = hashes`. -/
def EventNode.setHash (hashes : List Digest) (d : EventNode) : EventNode := { d with hashValue := some hashes }

abbrev EventTree := TreeOf EventNode

structure EventConfig extends Config where
  enableKvCacheEvents : Bool
deriving DecidableEq, Repr

abbrev EventCache := RadixCache EventNode (List KVEvent)

namespace EventCache

/-- `_record_all_cleared_event`. -/
def recordAllClearedEvent (cfg : EventConfig) (c : EventCache) : EventCache :=
  if cfg.enableKvCacheEvents then { c with kvEventQueue := c.kvEventQueue ++ [.allBlocksCleared] } else c

/-- `_record_store_event`. -/
def recordStoreEvent (sha256 : List UInt8 → Digest) (cfg : EventConfig) (c : EventCache) (n : ℕ) :
    EventCache :=
  if cfg.enableKvCacheEvents then
    match c.tree.nodes n with
    | none => c
    | some nd =>
      let hs := nodeHashes sha256 EventNode.hashValue cfg.pageSize c.tree nd
      let parent := parentBlockHash (nd.parent = c.tree.root) (parentHashValue EventNode.hashValue c.tree nd)
      { c with
        tree := c.tree.modifyData n (EventNode.setHash hs)
        kvEventQueue := c.kvEventQueue ++ storeEvents cfg.pageSize nd.key hs .gpu parent }
  else c

/-- `_record_remove_event`, of a node that has left the tree. -/
def recordRemoveEvent (sha256 : List UInt8 → Digest) (cfg : EventConfig) (c : EventCache)
    (nd : Node RadixKey ChildKey EventNode) : EventCache :=
  if cfg.enableKvCacheEvents then
    let hs := nodeHashes sha256 EventNode.hashValue cfg.pageSize c.tree nd
    { c with kvEventQueue := c.kvEventQueue ++ removeEvents cfg.pageSize nd.key hs .gpu }
  else c

def recorder (sha256 : List UInt8 → Digest) (cfg : EventConfig) : Recorder EventNode (List KVEvent) :=
  ⟨recordStoreEvent sha256 cfg, recordRemoveEvent sha256 cfg, recordAllClearedEvent cfg⟩

variable (cfg : EventConfig)

/-- `take_events`. -/
def takeEvents (c : EventCache) : EventCache × List KVEvent :=
  if cfg.enableKvCacheEvents then ({ c with kvEventQueue := [] }, c.kvEventQueue) else (c, [])

/-- The cache after `__init__`, which calls `reset`. -/
def init (now : ℤ) : EventCache := recordAllClearedEvent cfg (RadixCache.fresh 0 now (fun _ => none) [])

variable {sha256 : List UInt8 → Digest} {cfg} {c : EventCache} {n : ℕ} {now : ℤ}

theorem recordAllClearedEvent_forget : (recordAllClearedEvent cfg c).forget = c.forget := by
  unfold recordAllClearedEvent
  split <;> rfl

/-- Hashes and events change nothing else. -/
theorem unseen_recorder : RadixCache.Unseen (recorder sha256 cfg) where
  store c n := by
    show (recordStoreEvent sha256 cfg c n).forget = c.forget
    unfold recordStoreEvent
    split
    · split
      · rfl
      · next nd hn =>
        have hset (hs) : RadixCache.forgetTree (c.tree.modifyData n (EventNode.setHash hs)) =
            RadixCache.forgetTree c.tree := mapData_modifyData_eq fun _ => rfl
        simp only [RadixCache.forget, hset]
    · rfl
  remove c nd := by
    show (recordRemoveEvent sha256 cfg c nd).forget = c.forget
    unfold recordRemoveEvent
    split <;> rfl
  cleared _ := recordAllClearedEvent_forget

theorem init_forget : (init cfg now).forget = RadixCache.init now := by
  rw [init, recordAllClearedEvent_forget, RadixCache.fresh_forget]
  rfl

theorem takeEvents_forget : (c.takeEvents cfg).1.forget = c.forget := by
  unfold takeEvents
  split <;> rfl

end EventCache

end SGLang.MemCache
