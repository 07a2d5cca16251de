/-
# SGLang.Gateway.Policy — what a load-balancing policy sees, and the manual policy.

A policy is called with a list of workers and what it is told about the request, and answers with an index into
the list or with none. The routers call it with the workers that are available. What is random in the source
(the index that `random_range` draws, the order in which a hash map is iterated) is an argument of the call, so
that a statement for every argument is one for every outcome; so are the clock and the drawn ids. A call that
panics is `none`.

`usize` is 64 bits wide and wraps around, as in a release build; `f32` is `Float32`.
-/
import SGLang.Lib.Dict
import SGLang.Gateway.NodeText
import SGLang.Gateway.CircuitBreaker

namespace SGLang.Gateway

open SGLang.Lib List

/-- What a policy reads of a worker during a call. -/
structure WorkerView where
  url : String
  modelId : String
  isHealthy : Bool
  circuit : CircuitState
  load : UInt64
  routingKeyLoad : UInt64
  deriving DecidableEq, Repr

/-- `Worker::is_available`, by which the routers filter. -/
def WorkerView.isAvailable (w : WorkerView) : Bool := w.isHealthy && w.circuit.canExecute

/-- `SelectWorkerInfo`, with the routing-key header as the only header. -/
structure SelectWorkerInfo where
  requestText : Option Text
  routingKeyHeader : Option String

/-- `extract_routing_key`: an empty header counts as none. -/
def SelectWorkerInfo.extractRoutingKey (info : SelectWorkerInfo) : Option String :=
  info.routingKeyHeader.filter fun s => s ≠ ""

/-- `UNKNOWN_MODEL_ID`, from the protocol crate. -/
def unknownModelId : String := "unknown"

def normalizeModelKey (modelId : String) : String := if modelId = "" then unknownModelId else modelId

def getHealthyWorkerIndices (workers : List WorkerView) : List ℕ :=
  (workers.zipIdx.filter fun p => p.1.isHealthy && p.1.circuit.canExecute).map Prod.snd

/-- An element at a drawn index; an empty range panics. -/
def pick {α : Type} (l : List α) (random : ℕ) : Option α := l[random % l.length]?

/-- `min_by_key`: the first of the elements with the least key. -/
def minByKey {α : Type} (key : α → UInt64) : List α → Option α
  | [] => none
  | a :: l => some (l.foldl (fun best b => if key b < key best then b else best) a)

/-- `iter().position(|w| w.url() == url)`. -/
def findWorkerIndexByUrl (workers : List WorkerView) (url : String) : Option ℕ :=
  workers.findIdx? fun w => w.url == url

/-! ## Shared facts -/

section Facts

variable {workers : List WorkerView} {i : ℕ} {α : Type} {url : String}

theorem mem_getHealthyWorkerIndices :
    i ∈ getHealthyWorkerIndices workers ↔ ∃ w, workers[i]? = some w ∧ w.isAvailable = true := by
  unfold getHealthyWorkerIndices
  rw [mem_map]
  constructor
  · rintro ⟨⟨w, j⟩, hmem, rfl⟩
    obtain ⟨hin, hav⟩ := mem_filter.mp hmem
    exact ⟨w, mem_zipIdx_iff_getElem?.mp hin, hav⟩
  · rintro ⟨w, hw, hav⟩
    exact ⟨(w, i), mem_filter.mpr ⟨mem_zipIdx_iff_getElem?.mpr hw, hav⟩, rfl⟩

theorem lt_of_mem_healthy (h : i ∈ getHealthyWorkerIndices workers) : i < workers.length := by
  obtain ⟨w, hw, _⟩ := mem_getHealthyWorkerIndices.mp h
  exact (List.getElem?_eq_some_iff.mp hw).1

/-- A list as the routers pass it: not empty, and every worker in it is available. -/
structure Routed (workers : List WorkerView) : Prop where
  nonempty : workers ≠ []
  available : ∀ w ∈ workers, w.isAvailable = true

theorem Routed.healthy_cons (h : Routed workers) :
    ∃ w rest healthy, workers = w :: rest ∧ getHealthyWorkerIndices workers = 0 :: healthy := by
  obtain ⟨w, rest, rfl⟩ := exists_cons_of_ne_nil h.nonempty
  have hav : w.isAvailable = true := h.available w mem_cons_self
  refine ⟨w, rest, ?_⟩
  unfold getHealthyWorkerIndices
  rw [zipIdx_cons, filter_cons, if_pos (show (w.isHealthy && w.circuit.canExecute) = true from hav)]
  exact ⟨_, rfl, rfl⟩

theorem pick_spec {l : List α} (hl : l ≠ []) (random : ℕ) : ∃ a, pick l random = some a ∧ a ∈ l := by
  have hlt : random % l.length < l.length := Nat.mod_lt _ (length_pos_iff.mpr hl)
  exact ⟨l[random % l.length], getElem?_eq_getElem hlt, getElem_mem hlt⟩

theorem foldl_min_spec (key : α → UInt64) (l : List α) (a : α) :
    let m := l.foldl (fun best b => if key b < key best then b else best) a
    m ∈ a :: l ∧ ∀ b ∈ a :: l, key m ≤ key b := by
  induction l generalizing a with
  | nil => exact ⟨mem_cons_self, by simp⟩
  | cons b l ih =>
    obtain ⟨hmem, hle⟩ := ih (if key b < key a then b else a)
    simp only [foldl_cons]
    generalize (l.foldl _ (if key b < key a then b else a)) = m at hmem hle ⊢
    constructor
    · rcases mem_cons.mp hmem with rfl | hm
      · split <;> simp
      · exact mem_cons_of_mem _ (mem_cons_of_mem _ hm)
    · have hhead := hle _ mem_cons_self
      intro c hc
      rcases mem_cons.mp hc with rfl | hc
      · split at hhead
        · next hlt => exact UInt64.le_of_lt (UInt64.lt_of_le_of_lt hhead hlt)
        · exact hhead
      rcases mem_cons.mp hc with rfl | hc
      · split at hhead
        · exact hhead
        · next hge => exact UInt64.le_trans hhead (UInt64.not_lt.mp hge)
      · exact hle c (mem_cons_of_mem _ hc)

theorem minByKey_spec (key : α → UInt64) {l : List α} (hl : l ≠ []) :
    ∃ m, minByKey key l = some m ∧ m ∈ l ∧ ∀ b ∈ l, key m ≤ key b := by
  obtain ⟨a, l, rfl⟩ := exists_cons_of_ne_nil hl
  exact ⟨_, rfl, foldl_min_spec key l a⟩

theorem foldl_min_of_le (key : α → UInt64) {l : List α} {a : α} (h : ∀ b ∈ l, key a ≤ key b) :
    l.foldl (fun best b => if key b < key best then b else best) a = a := by
  induction l with
  | nil => rfl
  | cons b l ih =>
    rw [foldl_cons, if_neg (UInt64.not_lt.mpr (h b mem_cons_self))]
    exact ih fun c hc => h c (mem_cons_of_mem _ hc)

/-- An element that comes first and has the least key is taken. -/
theorem minByKey_cons_of_le (key : α → UInt64) {l : List α} {a : α} (h : ∀ b ∈ l, key a ≤ key b) :
    minByKey key (a :: l) = some a :=
  congrArg some (foldl_min_of_le key h)

theorem findWorkerIndexByUrl_spec (h : findWorkerIndexByUrl workers url = some i) : i < workers.length := by
  exact (findIdx?_eq_some_iff_getElem.mp h).1

theorem findWorkerIndexByUrl_isSome :
    (∃ i, findWorkerIndexByUrl workers url = some i) ↔ url ∈ workers.map WorkerView.url := by
  unfold findWorkerIndexByUrl
  rw [← Option.isSome_iff_exists, findIdx?_isSome, any_eq_true, mem_map]
  simp

end Facts

/-! ## The manual policy -/

inductive ManualAssignmentMode
  | random
  | minLoad
  | minGroup
  deriving DecidableEq, Repr

/-- `MAX_CANDIDATE_WORKERS`. -/
def maxCandidateWorkers : ℕ := 2

/-- `Node`: the workers a routing key was sent to, the oldest first. -/
structure StickyNode where
  candiWorkerUrls : List String
  lastAccess : ℕ
  deriving DecidableEq, Repr

/-- `Node::push_bounded`. -/
def StickyNode.pushBounded (node : StickyNode) (url : String) : StickyNode :=
  { node with candiWorkerUrls :=
      node.candiWorkerUrls.drop (node.candiWorkerUrls.length + 1 - maxCandidateWorkers) ++ [url] }

structure ManualPolicy where
  assignmentMode : ManualAssignmentMode
  routingMap : AList fun _ : String => StickyNode

/-- What a call of the manual policy draws. -/
structure ManualDraws where
  random : ℕ
  now : ℕ

/-- The loop of `select_min_by`: the least value so far and the indices that have it. -/
def minCandidates (value : ℕ → UInt64) : List ℕ → Option UInt64 × List ℕ → Option UInt64 × List ℕ
  | [], acc => acc
  | idx :: indices, (minVal, candidates) =>
    let val := value idx
    match minVal with
    | none => minCandidates value indices (some val, [idx])
    | some least =>
      if val < least then minCandidates value indices (some val, [idx])
      else if val = least then minCandidates value indices (some least, candidates ++ [idx])
      else minCandidates value indices (some least, candidates)

/-- `select_min_by`. -/
def selectMinBy (value : ℕ → UInt64) (indices : List ℕ) (random : ℕ) : Option ℕ :=
  match (minCandidates value indices (none, [])).2 with
  | [idx] => some idx
  | candidates => pick candidates random

/-- `find_healthy_worker`. -/
def findHealthyWorker (urls : List String) (workers : List WorkerView) (healthyIndices : List ℕ) : Option ℕ :=
  urls.findSome? fun url => (findWorkerIndexByUrl workers url).filter fun idx => idx ∈ healthyIndices

namespace ManualPolicy

variable {P : ManualPolicy} {workers : List WorkerView} {healthyIndices : List ℕ}

def selectNewWorker (P : ManualPolicy) (workers : List WorkerView) (healthyIndices : List ℕ) (random : ℕ) :
    Option ℕ :=
  match P.assignmentMode with
  | .random => pick healthyIndices random
  | .minLoad => selectMinBy (fun idx => ((workers[idx]?).map WorkerView.load).getD 0) healthyIndices random
  | .minGroup =>
    selectMinBy (fun idx => ((workers[idx]?).map WorkerView.routingKeyLoad).getD 0) healthyIndices random

def selectByRoutingId (P : ManualPolicy) (workers : List WorkerView) (routingId : String)
    (healthyIndices : List ℕ) (d : ManualDraws) : Option (ℕ × ManualPolicy) :=
  match P.routingMap.lookup routingId with
  | some node =>
    let node := { node with lastAccess := d.now }
    match findHealthyWorker node.candiWorkerUrls workers healthyIndices with
    | some idx => some (idx, { P with routingMap := P.routingMap.insert routingId node })
    | none => do
        let idx ← P.selectNewWorker workers healthyIndices d.random
        let w ← workers[idx]?
        some (idx, { P with routingMap := P.routingMap.insert routingId (node.pushBounded w.url) })
  | none => do
      let idx ← P.selectNewWorker workers healthyIndices d.random
      let w ← workers[idx]?
      some (idx, { P with routingMap := P.routingMap.insert routingId ⟨[w.url], d.now⟩ })

/-- `select_worker_impl`. -/
def selectWorker (P : ManualPolicy) (workers : List WorkerView) (info : SelectWorkerInfo) (d : ManualDraws) :
    Option (Option ℕ × ManualPolicy) := do
  let healthyIndices := getHealthyWorkerIndices workers
  if healthyIndices = [] then some (none, P)
  else
    match info.extractRoutingKey with
    | some routingId =>
      let (idx, P) ← P.selectByRoutingId workers routingId healthyIndices d
      some (some idx, P)
    | none =>
      let idx ← pick healthyIndices d.random
      some (some idx, P)

/-- The eviction task: entries that were idle for too long go. -/
def evict (P : ManualPolicy) (now maxIdle : ℕ) : ManualPolicy :=
  let idle := Dict.keysWhere P.routingMap fun node => decide (¬ now - node.lastAccess < maxIdle)
  { P with routingMap := Dict.eraseAll P.routingMap idle }

inductive Step : ManualPolicy → ManualPolicy → Prop
  | select {P P' : ManualPolicy} {answer : Option ℕ} (workers : List WorkerView) (info : SelectWorkerInfo)
      (d : ManualDraws) : P.selectWorker workers info d = some (answer, P') → Step P P'
  | evict {P : ManualPolicy} (now maxIdle : ℕ) : Step P (P.evict now maxIdle)

/-- The states of a policy created with the mode. -/
def Reachable (P : ManualPolicy) : Prop := Relation.ReflTransGen Step ⟨P.assignmentMode, ∅⟩ P

theorem minCandidates_spec (value : ℕ → UInt64) (indices : List ℕ) (acc : Option UInt64 × List ℕ)
    (hacc : acc.1.isSome = true ↔ acc.2 ≠ []) :
    (∀ idx ∈ (minCandidates value indices acc).2, idx ∈ acc.2 ∨ idx ∈ indices) ∧
      (acc.2 ≠ [] ∨ indices ≠ [] → (minCandidates value indices acc).2 ≠ []) := by
  induction indices generalizing acc with
  | nil =>
    refine ⟨fun idx h => .inl h, ?_⟩
    rintro (h | h)
    · exact h
    · exact absurd rfl h
  | cons idx indices ih =>
    obtain ⟨minVal, candidates⟩ := acc
    -- each branch goes on with a list of candidates that is not empty
    have hbranch : ∀ next : Option UInt64 × List ℕ, next.1.isSome = true → next.2 ≠ [] →
        (∀ j ∈ next.2, j ∈ candidates ∨ j ∈ idx :: indices) →
        (∀ j ∈ (minCandidates value indices next).2, j ∈ candidates ∨ j ∈ idx :: indices) ∧
          (candidates ≠ [] ∨ idx :: indices ≠ [] → (minCandidates value indices next).2 ≠ []) := by
      intro next hsome hne hsub
      obtain ⟨hmem, hnonempty⟩ := ih next ⟨fun _ => hne, fun _ => hsome⟩
      refine ⟨?_, fun _ => hnonempty (.inl hne)⟩
      intro j hj
      rcases hmem j hj with h | h
      · exact hsub j h
      · exact .inr (mem_cons_of_mem _ h)
    simp only [minCandidates]
    split
    · apply hbranch <;> simp
    · next least =>
      have hne : candidates ≠ [] := hacc.mp rfl
      split
      · apply hbranch <;> simp
      split
      · apply hbranch
        · rfl
        · simp
        · intro j hj
          rcases mem_append.mp hj with h | h
          · exact .inl h
          · exact .inr (mem_singleton.mp h ▸ mem_cons_self)
      · exact hbranch _ rfl hne fun j hj => .inl hj

theorem selectMinBy_spec (value : ℕ → UInt64) {indices : List ℕ} (h : indices ≠ []) (random : ℕ) :
    ∃ idx, selectMinBy value indices random = some idx ∧ idx ∈ indices := by
  obtain ⟨hmem, hne⟩ := minCandidates_spec value indices (none, []) (by simp)
  have hsub : ∀ idx ∈ (minCandidates value indices (none, [])).2, idx ∈ indices := by
    intro idx hidx
    rcases hmem idx hidx with h | h
    · cases h
    · exact h
  unfold selectMinBy
  split
  · next idx heq => exact ⟨idx, rfl, hsub idx (heq ▸ mem_singleton_self idx)⟩
  · obtain ⟨idx, hpick, hin⟩ := pick_spec (hne (.inr h)) random
    exact ⟨idx, hpick, hsub idx hin⟩

theorem selectNewWorker_spec (h : healthyIndices ≠ []) (random : ℕ) :
    ∃ idx, P.selectNewWorker workers healthyIndices random = some idx ∧ idx ∈ healthyIndices := by
  unfold selectNewWorker
  split
  · exact pick_spec h random
  · exact selectMinBy_spec _ h random
  · exact selectMinBy_spec _ h random

theorem findHealthyWorker_spec {urls : List String} {idx : ℕ}
    (h : findHealthyWorker urls workers healthyIndices = some idx) : idx ∈ healthyIndices := by
  obtain ⟨url, _, hfound⟩ := exists_of_findSome?_eq_some h
  rw [Option.filter_eq_some_iff] at hfound
  exact of_decide_eq_true hfound.2

theorem selectByRoutingId_spec (h : healthyIndices ≠ []) (hlt : ∀ idx ∈ healthyIndices, idx < workers.length)
    (routingId : String) (d : ManualDraws) :
    ∃ idx P', P.selectByRoutingId workers routingId healthyIndices d = some (idx, P') ∧
      idx ∈ healthyIndices := by
  obtain ⟨idx, hnew, hidx⟩ := selectNewWorker_spec (P := P) h d.random
  have hw : workers[idx]? = some (workers.get ⟨idx, hlt idx hidx⟩) :=
    getElem?_eq_getElem (hlt idx hidx)
  unfold selectByRoutingId
  split
  · next node hnode =>
    simp only
    split
    · next found hfound => exact ⟨found, _, rfl, findHealthyWorker_spec hfound⟩
    · rw [hnew, Option.bind_eq_bind, Option.bind_some, hw]
      exact ⟨idx, _, rfl, hidx⟩
  · rw [hnew, Option.bind_eq_bind, Option.bind_some, hw]
    exact ⟨idx, _, rfl, hidx⟩

/-- The manual policy always answers with a worker of the list. -/
theorem selectWorker_spec (h : Routed workers) (info : SelectWorkerInfo) (d : ManualDraws) :
    ∃ idx P', P.selectWorker workers info d = some (some idx, P') ∧ idx < workers.length := by
  obtain ⟨w, rest, healthy, _, hhealthy⟩ := h.healthy_cons
  have hne : getHealthyWorkerIndices workers ≠ [] := by
    rw [hhealthy]
    exact cons_ne_nil _ _
  simp only [selectWorker]
  rw [if_neg hne]
  split
  · next routingId _ =>
    obtain ⟨idx, P', hrun, hidx⟩ := selectByRoutingId_spec (P := P) hne
      (fun idx hidx => lt_of_mem_healthy hidx) routingId d
    rw [hrun]
    exact ⟨idx, P', rfl, lt_of_mem_healthy hidx⟩
  · obtain ⟨idx, hpick, hidx⟩ := pick_spec hne d.random
    rw [hpick]
    exact ⟨idx, P, rfl, lt_of_mem_healthy hidx⟩

end ManualPolicy

end SGLang.Gateway
