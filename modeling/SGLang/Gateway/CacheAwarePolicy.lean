/-
# SGLang.Gateway.CacheAwarePolicy — routing by shared prefixes, and which policies always find a worker.

The cache-aware policy keeps a prefix tree per model with the workers' URLs as tenants. With balanced loads a
request goes to the worker that the tree names for its text, if enough of the text matched and the worker is in
the list; the stale tenant is removed otherwise and the first healthy worker takes the request. It always
answers: its trees are sound in every reachable state (`PrefixTree.Sound`), so that no call on them panics, and
every branch ends in an index of the list.

The last section puts the three policies side by side: the manual and the cache-aware policy always answer, the
bucket policy exactly when the workers that its state assigns the request to are in the list.
-/
import SGLang.Gateway.BucketPolicy
import SGLang.Gateway.PrefixTreeAccounting

namespace SGLang.Gateway

open SGLang.Lib List
open Option (bind_eq_bind bind_some)
open PrefixTree (EvictionEntry insert_spec removeTenant_spec)
open WorkerView (load)

structure CacheAwareConfig where
  cacheThreshold : Float32
  balanceAbsThreshold : UInt64
  balanceRelThreshold : Float32

structure CacheAwarePolicy where
  config : CacheAwareConfig
  trees : AList fun _ : String => PrefixTree

/-- What a call of the cache-aware policy draws. -/
structure CacheAwareDraws where
  random : ℕ
  matchEpoch : ℕ
  insertEpoch : ℕ
  tenantOrder : List TenantId → List TenantId
  removeOrder : List ℕ → List ℕ

/-- `TreeOperation`, from another node of the mesh. -/
inductive TreeOperation
  | insert (text : Text) (tenant : TenantId)
  | remove (tenant : TenantId)

/-- The matched share of the text is above the threshold. -/
def CacheAwareConfig.isHit (config : CacheAwareConfig) (r : PrefixTree.PrefixMatchResult) : Bool :=
  let matchRate : Float32 := if r.inputCharCount = 0 then 0
    else (UInt64.ofNat r.matchedCharCount).toFloat32 / (UInt64.ofNat r.inputCharCount).toFloat32
  decide (matchRate > config.cacheThreshold)

/-- The greatest load of the workers is well above the least one. -/
def CacheAwareConfig.isImbalanced (config : CacheAwareConfig) (loads : List UInt64) : Bool :=
  let maxLoad := loads.foldl max 0
  let minLoad := loads.foldl min usizeMax
  let minLoad := if minLoad = usizeMax then 0 else minLoad
  decide (saturatingSub maxLoad minLoad > config.balanceAbsThreshold) &&
    decide (maxLoad.toFloat32 > minLoad.toFloat32 * config.balanceRelThreshold)

namespace CacheAwarePolicy

def new (config : CacheAwareConfig) : CacheAwarePolicy := ⟨config, ∅⟩

variable (P : CacheAwarePolicy)

/-- An insertion into the tree of a key, made if there is none. -/
def insertInto (key : String) (text : Text) (url : String) (epoch : ℕ) : Option CacheAwarePolicy := do
  let tree ← ((P.trees.lookup key).getD PrefixTree.new).insert text url epoch
  some { P with trees := P.trees.insert key tree }

/-- A change of the tree of a key, if there is one. -/
def updateTree (key : String) (f : PrefixTree → Option PrefixTree) : Option CacheAwarePolicy :=
  match P.trees.lookup key with
  | none => some P
  | some tree => (f tree).map fun tree => { P with trees := P.trees.insert key tree }

/-- `add_worker`; `init_workers` does this for each worker. -/
def addWorker (worker : WorkerView) (epoch : ℕ) : Option CacheAwarePolicy :=
  P.insertInto (normalizeModelKey worker.modelId) [] worker.url epoch

def addWorkerByUrl (url modelId : String) (epoch : ℕ) : Option CacheAwarePolicy :=
  P.insertInto modelId [] url epoch

def removeWorker (worker : WorkerView) (order : List ℕ → List ℕ) : Option CacheAwarePolicy :=
  P.updateTree (normalizeModelKey worker.modelId) fun tree => tree.removeTenant worker.url order

/-- `apply_remote_tree_operation`. -/
def applyRemoteTreeOperation (modelId : String) (operation : TreeOperation) (epoch : ℕ)
    (order : List ℕ → List ℕ) : Option CacheAwarePolicy :=
  let treeKey := normalizeModelKey modelId
  match operation with
  | .insert text tenant => P.insertInto treeKey text tenant epoch
  | .remove tenant => do
      let tree ← ((P.trees.lookup treeKey).getD PrefixTree.new).removeTenant tenant order
      some { P with trees := P.trees.insert treeKey tree }

/-- `select_worker_min_load`: the shortest queue, entered into the tree if there is one. -/
def selectWorkerMinLoad (workers : List WorkerView) (info : SelectWorkerInfo)
    (healthyIndices : List ℕ) (modelId : String) (d : CacheAwareDraws) : Option (Option ℕ × CacheAwarePolicy) :=
  match minByKey (fun idx => ((workers[idx]?).map load).getD 0) healthyIndices with
  | none => some (none, P)
  | some idx =>
    match info.requestText with
    | none => some (some idx, P)
    | some text => do
        let w ← workers[idx]?
        let P ← P.updateTree modelId fun tree => tree.insert text w.url d.insertEpoch
        some (some idx, P)

/-- `select_worker`. -/
def selectWorker (workers : List WorkerView) (info : SelectWorkerInfo)
    (d : CacheAwareDraws) : Option (Option ℕ × CacheAwarePolicy) := do
  let healthyIndices := getHealthyWorkerIndices workers
  match healthyIndices with
  | [] => some (none, P)
  | first :: _ =>
    let w ← workers[first]?
    let modelId := normalizeModelKey w.modelId
    if P.config.isImbalanced (workers.map load) then
      P.selectWorkerMinLoad workers info healthyIndices modelId d
    else
      let text := info.requestText.getD []
      match P.trees.lookup modelId with
      | none =>
        let idx ← pick healthyIndices d.random
        some (some idx, P)
      | some tree =>
        let (tree, result) ← tree.prefixMatchWithCounts text d.tenantOrder d.matchEpoch
        let isHit := P.config.isHit result
        let selectedIdx :=
          if isHit then
            (findWorkerIndexByUrl workers result.tenant).filter fun idx =>
              ((workers[idx]?).map WorkerView.isHealthy).getD false
          else minByKey (fun idx => ((workers[idx]?).map load).getD 0) healthyIndices
        match selectedIdx with
        | some idx =>
          let w ← workers[idx]?
          let tree ← tree.insert text w.url d.insertEpoch
          some (some idx, { P with trees := P.trees.insert modelId tree })
        | none =>
          -- the tenant is gone or unhealthy, so that the tree is stale
          let tree ← if isHit then tree.removeTenant result.tenant d.removeOrder else some tree
          some (some first, { P with trees := P.trees.insert modelId tree })

inductive Step : CacheAwarePolicy → CacheAwarePolicy → Prop
  | add {P P' : CacheAwarePolicy} (worker : WorkerView) (epoch : ℕ) :
      P.addWorker worker epoch = some P' → Step P P'
  | addByUrl {P P' : CacheAwarePolicy} (url modelId : String) (epoch : ℕ) :
      P.addWorkerByUrl url modelId epoch = some P' → Step P P'
  | remove {P P' : CacheAwarePolicy} (worker : WorkerView) (order : List ℕ → List ℕ) :
      P.removeWorker worker order = some P' → Step P P'
  -- `remove_worker_by_url` visits the trees one after the other
  | removeByUrl {P P' : CacheAwarePolicy} (key url : String) (order : List ℕ → List ℕ) :
      P.updateTree key (fun tree => tree.removeTenant url order) = some P' → Step P P'
  | remote {P P' : CacheAwarePolicy} (modelId : String) (operation : TreeOperation) (epoch : ℕ)
      (order : List ℕ → List ℕ) : P.applyRemoteTreeOperation modelId operation epoch order = some P' → Step P P'
  -- so does the eviction task
  | evict {P P' : CacheAwarePolicy} (key : String) (maxSize : ℕ)
      (order : ℕ → List EvictionEntry → List EvictionEntry) :
      P.updateTree key (fun tree => tree.evictTenantBySize maxSize order) = some P' → Step P P'
  | select {P P' : CacheAwarePolicy} {answer : Option ℕ} (workers : List WorkerView) (info : SelectWorkerInfo)
      (d : CacheAwareDraws) : P.selectWorker workers info d = some (answer, P') → Step P P'

/-- The states of a policy created with the configuration. -/
def Reachable (P : CacheAwarePolicy) : Prop := Relation.ReflTransGen Step (new P.config) P

/-! ## The trees are sound -/

def Sound (P : CacheAwarePolicy) : Prop := ∀ key tree, P.trees.lookup key = some tree → tree.Sound

variable {P P' : CacheAwarePolicy} {healthyIndices : List ℕ} {workers : List WorkerView}

theorem Sound.insert (h : P.Sound) {tree : PrefixTree} (ht : tree.Sound) (key : String) :
    Sound { P with trees := P.trees.insert key tree } := by
  intro key' tree' hl
  rcases Dict.lookup_insert_iff.mp hl with ⟨_, rfl⟩ | ⟨_, hold⟩
  · exact ht
  · exact h key' tree' hold

theorem Sound.treeOf (h : P.Sound) (key : String) : ((P.trees.lookup key).getD PrefixTree.new).Sound := by
  cases hl : P.trees.lookup key with
  | none => exact PrefixTree.new_sound
  | some tree => exact h key tree hl

theorem insertInto_spec (h : P.Sound) (key : String) (text : Text) (url : String) (epoch : ℕ) :
    ∃ P', P.insertInto key text url epoch = some P' ∧ P'.Sound := by
  obtain ⟨tree, hrun, ht⟩ := insert_spec (h.treeOf key) text url epoch
  refine ⟨{ P with trees := P.trees.insert key tree }, ?_, h.insert ht key⟩
  unfold insertInto
  rw [hrun]
  rfl

theorem updateTree_spec (h : P.Sound) (key : String) {f : PrefixTree → Option PrefixTree}
    (hf : ∀ tree, tree.Sound → ∃ tree', f tree = some tree' ∧ tree'.Sound) :
    ∃ P', P.updateTree key f = some P' ∧ P'.Sound := by
  unfold updateTree
  cases hl : P.trees.lookup key with
  | none => exact ⟨P, rfl, h⟩
  | some tree =>
    obtain ⟨tree', hrun, ht⟩ := hf tree (h key tree hl)
    refine ⟨{ P with trees := P.trees.insert key tree' }, ?_, h.insert ht key⟩
    simp [hrun]

/-- The shortest queue among healthy workers. -/
theorem minLoad_spec (hne : healthyIndices ≠ []) (hlt : ∀ idx ∈ healthyIndices, idx < workers.length) :
    ∃ idx w, minByKey (fun idx => ((workers[idx]?).map load).getD 0) healthyIndices = some idx ∧
      workers[idx]? = some w ∧ idx < workers.length := by
  obtain ⟨idx, hmin, hmem, _⟩ :=
    minByKey_spec (fun idx => ((workers[idx]?).map load).getD 0) hne
  exact ⟨idx, _, hmin, List.getElem?_eq_getElem (hlt idx hmem), hlt idx hmem⟩

theorem selectWorkerMinLoad_spec (h : P.Sound) (info : SelectWorkerInfo) (hne : healthyIndices ≠ [])
    (hlt : ∀ idx ∈ healthyIndices, idx < workers.length) (modelId : String) (d : CacheAwareDraws) :
    ∃ idx P', P.selectWorkerMinLoad workers info healthyIndices modelId d = some (some idx, P') ∧
      idx < workers.length ∧ P'.Sound := by
  obtain ⟨idx, w, hmin, hw, hidx⟩ := minLoad_spec hne hlt
  unfold selectWorkerMinLoad
  rw [hmin]
  cases info.requestText with
  | none => exact ⟨idx, P, rfl, hidx, h⟩
  | some text =>
    obtain ⟨P', hrun, h'⟩ := updateTree_spec h modelId fun tree ht =>
      insert_spec ht text w.url d.insertEpoch
    refine ⟨idx, P', ?_, hidx, h'⟩
    simp [hw, hrun]

/-- A worker found by its URL is in the list. -/
theorem selected_spec {url : String} {p : ℕ → Bool} {idx : ℕ}
    (hsel : (findWorkerIndexByUrl workers url).filter p = some idx) :
    ∃ w, workers[idx]? = some w ∧ idx < workers.length := by
  rw [Option.filter_eq_some_iff] at hsel
  have hidx := findWorkerIndexByUrl_spec hsel.1
  exact ⟨_, List.getElem?_eq_getElem hidx, hidx⟩

/-- A call keeps the trees sound and answers with a worker of the list if one is healthy. -/
theorem selectWorker_spec (h : P.Sound) (workers : List WorkerView) (info : SelectWorkerInfo)
    (d : CacheAwareDraws) : ∃ answer P', P.selectWorker workers info d = some (answer, P') ∧ P'.Sound ∧
      (getHealthyWorkerIndices workers ≠ [] → ∃ idx, answer = some idx ∧ idx < workers.length) := by
  have hlt : ∀ idx ∈ getHealthyWorkerIndices workers, idx < workers.length :=
    fun idx hidx => lt_of_mem_healthy hidx
  cases hhealthy : getHealthyWorkerIndices workers with
  | nil =>
    refine ⟨none, P, ?_, h, fun hne => absurd rfl hne⟩
    simp only [selectWorker, hhealthy]
  | cons first healthy =>
    rw [hhealthy] at hlt
    have hne : first :: healthy ≠ [] := cons_ne_nil _ _
    have hfirst := hlt first mem_cons_self
    have hw : workers[first]? = some workers[first] := List.getElem?_eq_getElem hfirst
    simp only [selectWorker, hhealthy, hw, bind_eq_bind, bind_some]
    split
    · obtain ⟨idx, P', hrun, hidx, h'⟩ :=
        selectWorkerMinLoad_spec h info hne hlt (normalizeModelKey workers[first].modelId) d
      exact ⟨some idx, P', hrun, h', fun _ => ⟨idx, rfl, hidx⟩⟩
    split
    · obtain ⟨idx, hpick, hidx⟩ := pick_spec hne d.random
      rw [hpick]
      exact ⟨some idx, P, rfl, h, fun _ => ⟨idx, rfl, hlt idx hidx⟩⟩
    next tree htree =>
    obtain ⟨tree₁, result, hmatch, ht₁⟩ := PrefixTree.prefixMatchWithCounts_spec (h _ tree htree)
      (info.requestText.getD []) d.tenantOrder d.matchEpoch
    rw [hmatch, bind_some]
    simp only
    split
    · next idx hsel =>
      -- the tenant of the match, or the shortest queue
      obtain ⟨w, hwi, hidx⟩ : ∃ w, workers[idx]? = some w ∧ idx < workers.length := by
        split at hsel
        · exact selected_spec hsel
        · obtain ⟨idx', w, hmin, hwi, hidx⟩ := minLoad_spec hne hlt
          rw [hmin] at hsel
          cases hsel
          exact ⟨w, hwi, hidx⟩
      obtain ⟨tree₂, hins, ht₂⟩ :=
        insert_spec ht₁ (info.requestText.getD []) w.url d.insertEpoch
      simp only [hwi, hins, bind_some]
      exact ⟨some idx, _, rfl, h.insert ht₂ _, fun _ => ⟨idx, rfl, hidx⟩⟩
    · split
      · obtain ⟨tree₂, hrem, ht₂⟩ := removeTenant_spec ht₁ result.tenant d.removeOrder
        rw [hrem, bind_some]
        exact ⟨some first, _, rfl, h.insert ht₂ _, fun _ => ⟨first, rfl, hfirst⟩⟩
      · exact ⟨some first, _, rfl, h.insert ht₁ _, fun _ => ⟨first, rfl, hfirst⟩⟩

theorem Step.sound (st : Step P P') (h : P.Sound) : P'.Sound := by
  -- each call has one result, and its spec says that this one is sound
  have done : ∀ {o : Option CacheAwarePolicy}, (∃ Q, o = some Q ∧ Q.Sound) → o = some P' → P'.Sound := by
    rintro o ⟨Q, rfl, hQ⟩ heq
    cases heq
    exact hQ
  cases st with
  | add _ _ hrun | addByUrl _ _ _ hrun => exact done (insertInto_spec h _ _ _ _) hrun
  | remove _ order hrun | removeByUrl _ _ order hrun =>
    exact done (updateTree_spec h _ fun tree ht => removeTenant_spec ht _ order) hrun
  | remote modelId operation epoch order hrun =>
    cases operation with
    | insert text tenant => exact done (insertInto_spec h _ _ _ _) hrun
    | remove tenant =>
      obtain ⟨tree, hrem, ht⟩ :=
        removeTenant_spec (h.treeOf (normalizeModelKey modelId)) tenant order
      simp only [applyRemoteTreeOperation, hrem, bind_eq_bind, bind_some, Option.some.injEq] at hrun
      subst hrun
      exact h.insert ht _
  | evict key maxSize order hrun =>
    exact done (updateTree_spec h _ fun tree ht => PrefixTree.evictTenantBySize_spec ht maxSize order) hrun
  | select workers info d hrun =>
    obtain ⟨answer, Q, hsel, hQ, _⟩ := selectWorker_spec h workers info d
    rw [hrun] at hsel
    cases hsel
    exact hQ

theorem Reachable.sound (h : P.Reachable) : P.Sound := by
  have hrun : ∀ {start Q : CacheAwarePolicy}, start.Sound → Relation.ReflTransGen Step start Q → Q.Sound := by
    intro start Q hs run
    induction run with
    | refl => exact hs
    | tail _ st ih => exact st.sound ih
  refine hrun ?_ h
  intro key tree hl
  rw [new, AList.lookup_empty] at hl
  cases hl

end CacheAwarePolicy

/-! ## Which policies find a worker -/

/-- **Who always finds a worker.** Called with available workers only, in any state it can be in and whatever it
draws, the manual policy and the cache-aware policy answer with an index into the list. The bucket policy does
so exactly if its bucket for the model, if there is one, assigns the request to workers of the list. -/
theorem policies_find_worker {w : WorkerView} {rest : List WorkerView} (h : Routed (w :: rest))
    (info : SelectWorkerInfo) :
    (∀ P : ManualPolicy, P.Reachable → ∀ d, ∃ idx P',
      P.selectWorker (w :: rest) info d = some (some idx, P') ∧ idx < (w :: rest).length) ∧
    (∀ P : CacheAwarePolicy, P.Reachable → ∀ d, ∃ idx P',
      P.selectWorker (w :: rest) info d = some (some idx, P') ∧ idx < (w :: rest).length) ∧
    (∀ P : BucketPolicy, P.Reachable → ((∀ d, ∃ idx P',
        P.selectWorker (w :: rest) info d = some (some idx, P') ∧ idx < (w :: rest).length) ↔
      ∀ b, P.buckets.lookup (normalizeModelKey w.modelId) = some b →
        P.Assigns b info.charCount (w :: rest))) := by
  refine ⟨?_, ?_, ?_⟩
  · intro P _ d
    exact ManualPolicy.selectWorker_spec h info d
  · intro P hP d
    obtain ⟨answer, P', hrun, _, hans⟩ := CacheAwarePolicy.selectWorker_spec hP.sound (w :: rest) info d
    obtain ⟨w', rest', healthy, _, hhealthy⟩ := h.healthy_cons
    obtain ⟨idx, rfl, hidx⟩ := hans (by rw [hhealthy]; exact cons_ne_nil _ _)
    exact ⟨idx, P', hrun, hidx⟩
  · intro P _
    exact BucketPolicy.selectWorker_iff h info

section TwoWorkers

/-- A healthy worker without load. -/
def idleWorker (url : String) : WorkerView := ⟨url, "", true, .closed, 0, 0⟩

/-- A bucket policy with the default configuration that was told of two workers. -/
def pairPolicy : BucketPolicy :=
  (BucketPolicy.new ⟨32, 1.0001, 5⟩).initPrefillWorkerUrls [idleWorker "http://w1", idleWorker "http://w2"]

theorem pairPolicy_reachable : pairPolicy.Reachable := Relation.ReflTransGen.single (.init _)

theorem routed_idle {urls : List String} (h : urls ≠ []) : Routed (urls.map idleWorker) := by
  refine ⟨by simpa using h, ?_⟩
  intro w hw
  obtain ⟨url, _, rfl⟩ := mem_map.mp hw
  rfl

/-- With both workers in the list, every policy answers. -/
theorem policies_find_worker_pair :
    Routed (["http://w1", "http://w2"].map idleWorker) ∧ pairPolicy.Reachable ∧
      ∀ d, ∃ idx P', pairPolicy.selectWorker (["http://w1", "http://w2"].map idleWorker) ⟨none, none⟩ d =
        some (some idx, P') ∧ idx < 2 := by
  have hrouted := routed_idle (cons_ne_nil "http://w1" ["http://w2"])
  refine ⟨hrouted, pairPolicy_reachable, ?_⟩
  refine ((policies_find_worker hrouted ⟨none, none⟩).2.2 pairPolicy pairPolicy_reachable).mpr ?_
  intro b hb
  have hbucket : (pairPolicy.buckets.lookup "unknown").map (fun b => (b.loads, b.findBoundary 0)) =
      some ([("http://w2", 0), ("http://w1", 0)], some "http://w1") := by decide
  rw [show pairPolicy.buckets.lookup "unknown" = some b from hb, Option.map_some, Option.some.injEq,
    Prod.mk.injEq] at hbucket
  unfold BucketPolicy.Assigns
  rw [hbucket.1, if_neg (by decide)]
  intro url hfind _
  rw [show b.findBoundary 0 = some url from hfind] at hbucket
  cases hbucket.2
  decide

/-- The first worker owns the short lengths. While it is not available, a request without text gets no worker
although the second one is in the list. -/
theorem owner_filtered_out :
    pairPolicy.Reachable ∧ Routed (["http://w2"].map idleWorker) ∧
      (pairPolicy.selectWorker (["http://w2"].map idleWorker) ⟨none, none⟩ ⟨0, id, 0, 0⟩).map Prod.fst =
        some none :=
  ⟨pairPolicy_reachable, routed_idle (cons_ne_nil _ _), by decide⟩

end TwoWorkers

end SGLang.Gateway
