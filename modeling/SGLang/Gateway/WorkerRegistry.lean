/-
# SGLang.Gateway.WorkerRegistry — the workers of the model gateway and the indices over them.

The model of `HashRing` and of `WorkerRegistry`, called from one thread. The registry stores worker objects
under ids and keeps five indices over them: by model, by type, by connection mode, by URL, and a consistent
hash ring per model. `register` pushes onto the indices and `remove` filters them; as long as no worker is
registered under the URL of a stored one, they agree.

Drawn UUIDs are numbered: no UUID is drawn twice. The hash of the ring is a parameter. Messages to the mesh,
metrics and the health of workers are left out; which worker is healthy is an input of a lookup.
-/
import SGLang.Lib.Buckets
import Mathlib.Data.List.Rotate
import Mathlib.Data.List.TakeWhile

namespace SGLang.Gateway

open SGLang.Lib List AList Option Dict

inductive WorkerType
  | regular
  | prefill (bootstrapPort : Option UInt16)
  | decode
deriving DecidableEq, Repr

inductive ConnectionMode
  | http
  | grpc (port : Option UInt16)
deriving DecidableEq, Repr

/-- A worker object: what the registry asks of it, and which object it is. -/
structure Worker where
  url : String
  modelId : String
  workerType : WorkerType
  connectionMode : ConnectionMode
  object : ℕ
deriving DecidableEq, Repr

structure WorkerId where
  uuid : ℕ
deriving DecidableEq, Repr

/-! ## `HashRing` -/

/-- `VIRTUAL_NODES_PER_WORKER`. -/
def virtualNodesPerWorker : ℕ := 150

/-- Positions and worker URLs, sorted by position. -/
structure HashRing where
  entries : List (UInt64 × String)

/-- `to_le_bytes`. -/
def toLeBytes (n : UInt64) : List UInt8 :=
  (List.range 8).map fun i => (n >>> (8 * i).toUInt64).toUInt8

namespace HashRing

-- the first eight bytes of a hash, as a number
variable (blake3 : List UInt8 → UInt64)

/-- The place of a virtual node. -/
def vnodePosition (url : String) (vnode : ℕ) : UInt64 :=
  blake3 (url.toUTF8.toList ++ "#".toUTF8.toList ++ toLeBytes vnode.toUInt64)

/-- The virtual nodes of a worker. -/
def vnodes (worker : Worker) : List (UInt64 × String) :=
  (List.range virtualNodesPerWorker).map fun vnode => (vnodePosition blake3 worker.url vnode, worker.url)

/-- `HashRing::new`. -/
def new (workers : List Worker) : HashRing :=
  ⟨(workers.flatMap (vnodes blake3)).mergeSort fun a b => decide (a.1 ≤ b.1)⟩

/-- The walk of `find_healthy_url`: every URL is asked once. -/
def walk (isHealthy : String → Bool) : List (UInt64 × String) → List String → Option String
  | [], _ => none
  | (_, url) :: rest, checkedUrls =>
    if url ∈ checkedUrls then walk isHealthy rest checkedUrls
    else if isHealthy url then some url
    else walk isHealthy rest (url :: checkedUrls)

/-- `find_healthy_url`: the walk starts at the position of the key and wraps around. -/
def findHealthyUrl (ring : HashRing) (key : String) (isHealthy : String → Bool) : Option String :=
  let keyPos := blake3 key.toUTF8.toList
  let start := (ring.entries.takeWhile fun e => decide (e.1 < keyPos)).length
  walk isHealthy (ring.entries.rotate start) []

variable {blake3} {w : Worker} {url : String}

theorem count_vnodes : ((vnodes blake3 w).map Prod.snd).count url =
    if w.url = url then virtualNodesPerWorker else 0 := by
  have hmap : (vnodes blake3 w).map Prod.snd = replicate virtualNodesPerWorker w.url := by
    simp [vnodes, Function.comp_def, map_const']
  rw [hmap, count_replicate]
  simp

/-- Every listed worker has its virtual nodes on the ring, and nothing else is on it. -/
theorem count_new {workers : List Worker} (hnodup : (workers.map Worker.url).Nodup) :
    ((new blake3 workers).entries.map Prod.snd).count url =
      if url ∈ workers.map Worker.url then virtualNodesPerWorker else 0 := by
  have hperm : ((new blake3 workers).entries.map Prod.snd).Perm
      ((workers.flatMap (vnodes blake3)).map Prod.snd) := (mergeSort_perm _ _).map _
  rw [hperm.count_eq]
  clear hperm
  induction workers with
  | nil => simp
  | cons w ws ih =>
    rw [map_cons, nodup_cons] at hnodup
    rw [flatMap_cons, map_append, count_append, ih hnodup.2, count_vnodes, map_cons]
    by_cases hurl : w.url = url
    · subst hurl
      simp [hnodup.1]
    · simp [hurl, Ne.symm hurl]

variable {isHealthy isHealthy' : String → Bool} {entries : List (UInt64 × String)} {e : UInt64 × String}
  {key : String}
  {workers workers' : List Worker} {keyPos : UInt64}

/-- What was checked is not healthy, and skipping it changes nothing. -/
theorem walk_eq_find? {checked : List String} (h : ∀ u ∈ checked, isHealthy u = false) :
    walk isHealthy entries checked = (entries.find? fun e => isHealthy e.2).map Prod.snd := by
  induction entries generalizing checked with
  | nil => rfl
  | cons e rest ih =>
    rw [walk, find?_cons]
    split
    · next hu => rw [ih h, h e.2 hu]
    · split
      · next hu => rw [hu, map_some]
      · next hu =>
        have hu : isHealthy e.2 = false := eq_false_of_ne_true hu
        rw [ih (forall_mem_cons.mpr ⟨hu, h⟩), hu]

theorem findHealthyUrl_eq {ring : HashRing} : ring.findHealthyUrl blake3 key isHealthy =
    ((ring.entries.rotate (ring.entries.takeWhile fun e =>
      decide (e.1 < blake3 key.toUTF8.toList)).length).find?
      fun e => isHealthy e.2).map Prod.snd := walk_eq_find? (by simp)

/-- A key is routed to a URL on the ring. -/
theorem findHealthyUrl_mem {ring : HashRing} (h : ring.findHealthyUrl blake3 key isHealthy = some url) :
    url ∈ ring.entries.map Prod.snd := by
  rw [findHealthyUrl_eq] at h
  obtain ⟨e, he, rfl⟩ := map_eq_some_iff.mp h
  exact mem_map_of_mem (mem_rotate.mp (mem_of_find?_eq_some he))

/-! ### Keys move only when they have to -/

theorem distance_le {p q : UInt64}
    (h : keyPos ≤ p ∧ q < keyPos ∨ (keyPos ≤ p ∧ keyPos ≤ q ∨ p < keyPos ∧ q < keyPos) ∧ p ≤ q) :
    (p - keyPos).toNat ≤ (q - keyPos).toNat := by
  simp only [UInt64.lt_iff_toNat_lt, UInt64.le_iff_toNat_le] at h
  rw [UInt64.toNat_sub, UInt64.toNat_sub]
  have := p.toNat_lt
  have := q.toNat_lt
  omega

/-- In a sorted list, the walk from the key's position on meets the entries by their distance around the
ring. -/
theorem rotate_sorted (h : entries.Pairwise fun a b => a.1 ≤ b.1) (keyPos : UInt64) :
    (entries.rotate (entries.takeWhile fun e => decide (e.1 < keyPos)).length).Pairwise
      fun a b => (a.1 - keyPos).toNat ≤ (b.1 - keyPos).toNat := by
  have hbefore : ∀ e ∈ entries.takeWhile fun e => decide (e.1 < keyPos), e.1 < keyPos := fun e he => by
    simpa using mem_takeWhile_imp he
  have hafter : ∀ e ∈ entries.dropWhile fun e => decide (e.1 < keyPos), keyPos ≤ e.1 := by
    clear hbefore
    induction entries with
    | nil => simp
    | cons a rest ih =>
      obtain ⟨ha, hrest⟩ := pairwise_cons.mp h
      rw [dropWhile_cons]
      split
      · exact ih hrest
      · next hle =>
        have hle : keyPos ≤ a.1 := UInt64.not_lt.mp (by simpa using hle)
        exact forall_mem_cons.mpr ⟨hle, fun e he => UInt64.le_trans hle (ha e he)⟩
  have hsplit := takeWhile_append_dropWhile (p := fun e => decide (e.1 < keyPos)) (l := entries)
  rw [← hsplit] at h
  obtain ⟨hfront, hback, -⟩ := pairwise_append.mp h
  nth_rewrite 1 [← hsplit]
  rw [rotate_append_length_eq, pairwise_append]
  refine ⟨hback.imp_of_mem fun ha hb hab => ?_, hfront.imp_of_mem fun ha hb hab => ?_, fun a ha b hb => ?_⟩
  · exact distance_le (.inr ⟨.inl ⟨hafter _ ha, hafter _ hb⟩, hab⟩)
  · exact distance_le (.inr ⟨.inr ⟨hbefore _ ha, hbefore _ hb⟩, hab⟩)
  · exact distance_le (.inl ⟨hafter a ha, hbefore b hb⟩)

theorem mem_new : e ∈ (new blake3 workers).entries ↔
    e.2 ∈ workers.map Worker.url ∧ ∃ i < virtualNodesPerWorker, vnodePosition blake3 e.2 i = e.1 := by
  simp only [new, vnodes, List.mem_map, mem_mergeSort, mem_flatMap, mem_range]
  constructor
  · rintro ⟨w, hw, i, hi, rfl⟩
    exact ⟨⟨w, hw, rfl⟩, i, hi, rfl⟩
  · rintro ⟨⟨w, hw, hurl⟩, i, hi, hpos⟩
    exact ⟨w, hw, i, hi, Prod.ext (hurl ▸ hpos) hurl⟩

/-- The URL that a key is routed to on the ring of the workers. -/
def route (blake3 : List UInt8 → UInt64) (key : String) (workers : List Worker) (isHealthy : String → Bool) :
    Option String := (new blake3 workers).findHealthyUrl blake3 key isHealthy

/-- The workers that a key can be routed to. -/
def Serves (workers : List Worker) (isHealthy : String → Bool) (url : String) : Prop :=
  url ∈ workers.map Worker.url ∧ isHealthy url = true

/-- Virtual nodes of workers with different URLs have different positions. -/
def Distinct (blake3 : List UInt8 → UInt64) (workers : List Worker) : Prop :=
  ∀ a ∈ (new blake3 workers).entries, ∀ b ∈ (new blake3 workers).entries, a.1 = b.1 → a.2 = b.2

theorem route_eq_none : route blake3 key workers isHealthy = none ↔ ∀ u, ¬ Serves workers isHealthy u := by
  simp only [route, findHealthyUrl_eq, map_eq_none_iff, find?_eq_none, mem_rotate, mem_new]
  constructor
  · intro h u hu
    exact h (vnodePosition blake3 u 0, u) ⟨hu.1, 0, by decide, rfl⟩ hu.2
  · exact fun h e he hu => h e.2 ⟨he.1, hu⟩

/-- The URL that is found has the healthy virtual node next to the key. -/
theorem route_eq_some (h : route blake3 key workers isHealthy = some url) :
    isHealthy url = true ∧ ∃ p, (p, url) ∈ (new blake3 workers).entries ∧
      ∀ e ∈ (new blake3 workers).entries, isHealthy e.2 = true →
        (p - blake3 key.toUTF8.toList).toNat ≤ (e.1 - blake3 key.toUTF8.toList).toNat := by
  rw [route, findHealthyUrl_eq] at h
  obtain ⟨⟨p, u⟩, hfind, rfl⟩ := map_eq_some_iff.mp h
  have hsorted : (new blake3 workers).entries.Pairwise fun a b => a.1 ≤ b.1 := by
    refine (pairwise_mergeSort (fun a b c => ?_) (fun a b => ?_) _).imp fun hle => of_decide_eq_true hle
    · simpa using UInt64.le_trans
    · simpa using UInt64.le_total a.1 b.1
  have hsorted := rotate_sorted hsorted (blake3 key.toUTF8.toList)
  obtain ⟨hu, front, back, hsplit, hfront⟩ := find?_eq_some_iff_append.mp hfind
  rw [hsplit] at hsorted
  refine ⟨hu, p, mem_rotate.mp (mem_of_find?_eq_some hfind), fun e he hhealthy => ?_⟩
  rw [← mem_rotate, hsplit, mem_append, mem_cons] at he
  rcases he with he | rfl | he
  · simpa [hhealthy] using hfront e he
  · exact le_rfl
  · exact rel_of_pairwise_cons (pairwise_append.mp hsorted).2.1 he

/-- Fewer workers that serve, the one of the key among them. -/
theorem route_of_subset (hdist : Distinct blake3 workers)
    (hsub : ∀ u, Serves workers' isHealthy' u → Serves workers isHealthy u)
    (hkeep : ∀ u, route blake3 key workers isHealthy = some u → Serves workers' isHealthy' u) :
    route blake3 key workers' isHealthy' = route blake3 key workers isHealthy := by
  cases hfind : route blake3 key workers isHealthy with
  | none => exact route_eq_none.mpr fun u hu => route_eq_none.mp hfind u (hsub u hu)
  | some u =>
    cases hfind' : route blake3 key workers' isHealthy' with
    | none => exact absurd (hkeep u hfind) (route_eq_none.mp hfind' u)
    | some u' =>
      obtain ⟨hu, p, hp, hleast⟩ := route_eq_some hfind
      obtain ⟨hu', p', hp', hleast'⟩ := route_eq_some hfind'
      have hmem := mem_new.mpr ⟨(hkeep u hfind).1, (mem_new.mp hp).2⟩
      have hserves := hsub u' ⟨(mem_new.mp hp').1, hu'⟩
      have hmem' := mem_new.mpr ⟨hserves.1, (mem_new.mp hp').2⟩
      have heq := le_antisymm (hleast' _ hmem (hkeep u hfind).2) (hleast _ hmem' hserves.2)
      have hpos : p' = p := by simpa using UInt64.toNat_inj.mp heq
      exact congrArg some (hdist _ hmem' _ hp hpos)

/-- **Only the necessary keys move.** A new worker leaves a key where it was or takes it; a worker that is
removed or becomes unhealthy loses its own keys; the route depends on the set of healthy URLs only, and there is
one if this is not empty. -/
theorem moves_only_necessary_keys (hdist : Distinct blake3 workers) (key : String) (isHealthy : String → Bool) :
    (∀ rest w, workers.Perm (w :: rest) →
      route blake3 key workers isHealthy ∈ [route blake3 key rest isHealthy, some w.url]) ∧
    (∀ u, route blake3 key workers isHealthy ≠ some u →
      route blake3 key (workers.filter fun w => w.url ≠ u) isHealthy = route blake3 key workers isHealthy ∧
        route blake3 key workers (fun v => isHealthy v && v ≠ u) = route blake3 key workers isHealthy) ∧
    (∀ workers' isHealthy', (∀ u, Serves workers' isHealthy' u ↔ Serves workers isHealthy u) →
      route blake3 key workers' isHealthy' = route blake3 key workers isHealthy) ∧
    (route blake3 key workers isHealthy = none → ∀ u, ¬ Serves workers isHealthy u) := by
  have hserves : ∀ u, route blake3 key workers isHealthy = some u → Serves workers isHealthy u := by
    intro u hu
    obtain ⟨hu, p, hp, -⟩ := route_eq_some hu
    exact ⟨(mem_new.mp hp).1, hu⟩
  refine ⟨fun rest w hperm => ?_, fun u hne => ⟨?_, ?_⟩, fun workers' isHealthy' hiff => ?_, route_eq_none.mp⟩
  · rw [mem_pair]
    refine or_iff_not_imp_right.mpr fun hne => (route_of_subset hdist ?_ fun u hu => ?_).symm
    · exact fun u hu => ⟨(hperm.map _).mem_iff.mpr (mem_cons_of_mem _ hu.1), hu.2⟩
    · obtain ⟨hmem, hu'⟩ := hserves u hu
      rcases mem_cons.mp ((hperm.map _).mem_iff.mp hmem) with rfl | hmem
      · exact absurd hu hne
      · exact ⟨hmem, hu'⟩
  · refine route_of_subset hdist ?_ fun v hv => ?_
    · exact fun v hv => ⟨(filter_sublist.map _).subset hv.1, hv.2⟩
    · have hvu : v ≠ u := fun h => hne (h ▸ hv)
      obtain ⟨hmem, hv'⟩ := hserves v hv
      obtain ⟨w, hw, rfl⟩ := mem_map.mp hmem
      exact ⟨mem_map_of_mem (mem_filter.mpr ⟨hw, by simpa using hvu⟩), hv'⟩
  · refine route_of_subset hdist ?_ fun v hv => ?_
    · exact fun v hv => ⟨hv.1, (Bool.and_eq_true_iff.mp hv.2).1⟩
    · have hvu : v ≠ u := fun h => hne (h ▸ hv)
      exact ⟨(hserves v hv).1, by simp [(hserves v hv).2, hvu]⟩
  · exact route_of_subset hdist (fun u => (hiff u).mp) fun u hu => (hiff u).mpr (hserves u hu)

/-- Two workers at different places of a ring, with a hash that takes the first byte. -/
theorem moves_only_necessary_keys_two : let blake3 : List UInt8 → UInt64 :=
  fun bytes => (bytes.headD 0).toUInt64
    let a : Worker := ⟨"a", "m", .regular, .http, 0⟩
    let b : Worker := ⟨"b", "m", .regular, .http, 1⟩
    Distinct blake3 [a, b] ∧ ∀ key isHealthy,
      route blake3 key [a, b] isHealthy ∈ [route blake3 key [b] isHealthy, some "a"] := by
  intro blake3 a b
  have hpos : ∀ e ∈ (new blake3 [a, b]).entries, e = (97, "a") ∨ e = (98, "b") := by
    rintro ⟨p, u⟩ he
    obtain ⟨hu, i, -, hp⟩ := mem_new.mp he
    dsimp only at hp hu
    subst hp
    rcases mem_pair.mp hu with rfl | rfl
    · rw [vnodePosition, show "a".toUTF8.toList = [97] by decide +kernel]
      exact .inl rfl
    · rw [vnodePosition, show "b".toUTF8.toList = [98] by decide +kernel]
      exact .inr rfl
  have hdist : Distinct blake3 [a, b] := by
    intro e he e' he' h
    rcases hpos e he with rfl | rfl <;> rcases hpos e' he' with rfl | rfl
    · rfl
    · cases h
    · cases h
    · rfl
  exact ⟨hdist, fun key isHealthy => (moves_only_necessary_keys hdist key isHealthy).1 [b] a (Perm.refl _)⟩

end HashRing

/-! ## `WorkerRegistry` -/

structure WorkerRegistry where
  workers : AList fun _ : WorkerId => Worker
  modelIndex : AList fun _ : String => List Worker
  hashRings : AList fun _ : String => HashRing
  typeWorkers : AList fun _ : WorkerType => List WorkerId
  connectionWorkers : AList fun _ : ConnectionMode => List WorkerId
  urlToId : AList fun _ : String => WorkerId
  /-- How many UUIDs were drawn. -/
  drawn : ℕ

namespace WorkerRegistry

/-- `WorkerRegistry::new`. -/
def new : WorkerRegistry := ⟨∅, ∅, ∅, ∅, ∅, ∅, 0⟩

/-- `reserve_id_for_url`: the id of the URL, or a new one. -/
def reserveIdForUrl (r : WorkerRegistry) (url : String) : WorkerRegistry × WorkerId :=
  match r.urlToId.lookup url with
  | some id => (r, id)
  | none => ({ r with urlToId := r.urlToId.insert url ⟨r.drawn⟩, drawn := r.drawn + 1 }, ⟨r.drawn⟩)

variable (blake3 : List UInt8 → UInt64)

variable (r : WorkerRegistry)

/-- `rebuild_hash_ring`. -/
def rebuildHashRing (modelId : String) : WorkerRegistry :=
  match r.modelIndex.lookup modelId with
  | some workers => { r with hashRings := r.hashRings.insert modelId (.new blake3 workers) }
  | none => { r with hashRings := r.hashRings.erase modelId }

/-- The part of `register` after the id is known. -/
def store (id : WorkerId) (worker : Worker) : WorkerRegistry :=
  let indexed := rebuildHashRing blake3
    { r with
      workers := r.workers.insert id worker
      urlToId := r.urlToId.insert worker.url id
      modelIndex := push r.modelIndex worker.modelId worker } worker.modelId
  { indexed with
    typeWorkers := push r.typeWorkers worker.workerType id
    connectionWorkers := push r.connectionWorkers worker.connectionMode id }

/-- `register`: a worker whose URL is known takes the id of the URL. -/
def register (worker : Worker) : WorkerRegistry × WorkerId :=
  match r.urlToId.lookup worker.url with
  | some id => (store blake3 r id worker, id)
  | none => (store blake3 { r with drawn := r.drawn + 1 } ⟨r.drawn⟩ worker, ⟨r.drawn⟩)

/-- The part of `remove` after the worker is found. -/
def discard (id : WorkerId) (worker : Worker) : WorkerRegistry :=
  let indexed := rebuildHashRing blake3
    { r with
      workers := r.workers.erase id
      urlToId := r.urlToId.erase worker.url
      modelIndex := retain r.modelIndex worker.modelId fun w => decide (w.url ≠ worker.url) }
    worker.modelId
  { indexed with
    typeWorkers := retain r.typeWorkers worker.workerType fun i => decide (i ≠ id)
    connectionWorkers := retain r.connectionWorkers worker.connectionMode fun i => decide (i ≠ id) }

/-- `remove`. -/
def remove (id : WorkerId) : WorkerRegistry × Option Worker :=
  match r.workers.lookup id with
  | some worker => (discard blake3 r id worker, some worker)
  | none => (r, none)

/-- `remove_by_url`. -/
def removeByUrl (url : String) : WorkerRegistry × Option Worker :=
  match r.urlToId.lookup url with
  | some id => remove blake3 { r with urlToId := r.urlToId.erase url } id
  | none => (r, none)

/-- `get_by_model`. -/
def getByModel (modelId : String) : List Worker := bucket r.modelIndex modelId

/-! ## Runs -/

/-- The calls that change the registry. -/
inductive Call
  | register (worker : Worker)
  | reserveIdForUrl (url : String)
  | remove (id : WorkerId)
  | removeByUrl (url : String)

def exec : Call → WorkerRegistry
  | .register worker => (register blake3 r worker).1
  | .reserveIdForUrl url => (r.reserveIdForUrl url).1
  | .remove id => (remove blake3 r id).1
  | .removeByUrl url => (removeByUrl blake3 r url).1

/-- No worker is registered under the URL of a stored one. -/
def NewUrl : Call → Prop
  | .register worker => ∀ id w, r.workers.lookup id = some w → w.url ≠ worker.url
  | _ => True

/-- Registries reached by calls of which none registers a worker under the URL of a stored one. -/
def NewUrlReachable : Prop :=
  Relation.ReflTransGen (fun r r' => ∃ call, r.NewUrl call ∧ r' = exec blake3 r call) new r

/-- Registries reached by any calls. -/
def Reachable : Prop :=
  Relation.ReflTransGen (fun r r' => ∃ call, r' = exec blake3 r call) new r

/-! ## The indices agree -/

/-- What the indices say about the stored workers. -/
structure IndicesAgree (r : WorkerRegistry) : Prop where
  /-- A model lists its stored workers, each once and as the object that is stored. -/
  models : ∀ modelId, (r.getByModel modelId).Nodup ∧
    ∀ w, w ∈ r.getByModel modelId ↔ ∃ id, r.workers.lookup id = some w ∧ w.modelId = modelId
  types : ∀ workerType, (bucket r.typeWorkers workerType).Nodup ∧
    ∀ id, id ∈ bucket r.typeWorkers workerType ↔
      ∃ w, r.workers.lookup id = some w ∧ w.workerType = workerType
  connections : ∀ mode, (bucket r.connectionWorkers mode).Nodup ∧
    ∀ id, id ∈ bucket r.connectionWorkers mode ↔
      ∃ w, r.workers.lookup id = some w ∧ w.connectionMode = mode
  urls : ∀ id w, r.workers.lookup id = some w → r.urlToId.lookup w.url = some id
  /-- The ring of a model has the virtual nodes of the workers the model lists. -/
  rings : ∀ modelId ring, r.hashRings.lookup modelId = some ring →
    (∀ url, (ring.entries.map Prod.snd).count url =
      if url ∈ (r.getByModel modelId).map Worker.url then virtualNodesPerWorker else 0)
  /-- A model with workers has a ring. -/
  hasRing : ∀ modelId, r.getByModel modelId ≠ [] → ∃ ring, r.hashRings.lookup modelId = some ring
  /-- A key is routed to a stored worker of its model. -/
  routed : ∀ modelId ring key isHealthy url, r.hashRings.lookup modelId = some ring →
    ring.findHealthyUrl blake3 key isHealthy = some url →
      ∃ id w, r.workers.lookup id = some w ∧ w.modelId = modelId ∧ w.url = url

/-- What the calls keep. -/
structure Inv (r : WorkerRegistry) : Prop where
  models : Indexes r.workers Worker.modelId (fun _ w => w) r.modelIndex
  types : Indexes r.workers Worker.workerType (fun id _ => id) r.typeWorkers
  connections : Indexes r.workers Worker.connectionMode (fun id _ => id) r.connectionWorkers
  urls : ∀ id w, r.workers.lookup id = some w → r.urlToId.lookup w.url = some id
  urlInj : Dict.Inj r.urlToId
  known : ∀ url id, r.urlToId.lookup url = some id → id.uuid < r.drawn
  rings : ∀ modelId, r.hashRings.lookup modelId = (r.modelIndex.lookup modelId).map (HashRing.new blake3)

variable {blake3} {r : WorkerRegistry} {id : WorkerId} {w w' : Worker} {modelId url : String}

/-- Different stored workers have different URLs. -/
theorem Inv.url_inj (h : Inv blake3 r) {id' : WorkerId} (hw : r.workers.lookup id = some w)
    (hw' : r.workers.lookup id' = some w') (hurl : w.url = w'.url) : id = id' := by
  have h₁ := h.urls id w hw
  have h₂ := h.urls id' w' hw'
  rw [hurl, h₂] at h₁
  exact (some.inj h₁).symm

/-- The ring of the model is built from what the index lists now, and nothing else changes. -/
theorem rebuildHashRing_eq (blake3 : List UInt8 → UInt64) (r : WorkerRegistry) (modelId : String) : ∃ H,
    rebuildHashRing blake3 r modelId = { r with hashRings := H } ∧ ∀ m, H.lookup m =
      if m = modelId then (r.modelIndex.lookup m).map (HashRing.new blake3) else r.hashRings.lookup m := by
  unfold rebuildHashRing
  cases hlook : r.modelIndex.lookup modelId with
  | some workers =>
    refine ⟨_, rfl, fun m => ?_⟩
    by_cases hm : m = modelId
    · subst hm
      rw [if_pos rfl, lookup_insert, hlook, map_some]
    · rw [if_neg hm, lookup_insert_ne hm]
  | none =>
    refine ⟨_, rfl, fun m => ?_⟩
    by_cases hm : m = modelId
    · subst hm
      rw [if_pos rfl, lookup_erase, hlook, map_none]
    · rw [if_neg hm, lookup_erase_ne hm]

/-- The rings stay right when only the list of one model changes and its ring is built again. -/
theorem rings_rebuilt {M M' : AList fun _ : String => List Worker} {R H : AList fun _ : String => HashRing}
    (h : ∀ m, R.lookup m = (M.lookup m).map (HashRing.new blake3))
    (hM : ∀ m, m ≠ modelId → M'.lookup m = M.lookup m) (hH : ∀ m, H.lookup m =
      if m = modelId then (M'.lookup m).map (HashRing.new blake3) else R.lookup m) (m : String) :
    H.lookup m = (M'.lookup m).map (HashRing.new blake3) := by
  rw [hH]
  split
  · rfl
  · next hm => rw [h, hM m hm]

section

variable (h : Inv blake3 r)
include h

theorem Inv.store (hnone : r.workers.lookup id = none)
    (hnew : ∀ id' w', r.workers.lookup id' = some w' → w'.url ≠ w.url)
    (hown : ∀ url, r.urlToId.lookup url = some id → url = w.url) (hdrawn : id.uuid < r.drawn) :
    Inv blake3 (store blake3 r id w) := by
  have hid : ∀ j w', r.workers.lookup j = some w' → j ≠ id := by
    rintro j w' hj rfl
    rw [hnone] at hj
    cases hj
  unfold WorkerRegistry.store
  rcases rebuildHashRing_eq blake3 { r with
    workers := r.workers.insert id w
    urlToId := r.urlToId.insert w.url id
    modelIndex := push r.modelIndex w.modelId w } w.modelId with ⟨H, hrebuild, hH⟩
  rw [hrebuild]
  refine ⟨?_, ?_, ?_, ?_, ?_, ?_, ?_⟩
  · refine h.models.insert hnone fun j w' hj heq => ?_
    exact hnew j w' hj (congrArg Worker.url heq)
  · exact h.types.insert hnone hid
  · exact h.connections.insert hnone hid
  · intro j w' hj
    rcases lookup_insert_iff.mp hj with ⟨rfl, rfl⟩ | ⟨-, hj⟩
    · exact lookup_insert _
    · exact (lookup_insert_ne (hnew j w' hj)).trans (h.urls j w' hj)
  · exact h.urlInj.insert hown
  · intro url id' hurl
    rcases lookup_insert_iff.mp hurl with ⟨rfl, rfl⟩ | ⟨-, hold⟩
    · exact hdrawn
    · exact h.known url id' hold
  · refine rings_rebuilt h.rings (fun m hm => ?_) hH
    exact lookup_insert_ne hm

theorem Inv.register (hnew : ∀ id w', r.workers.lookup id = some w' → w'.url ≠ w.url) :
    Inv blake3 (register blake3 r w).1 := by
  unfold WorkerRegistry.register
  cases hurl : r.urlToId.lookup w.url with
  | some id =>
    -- the URL was reserved: no worker is stored under its id
    refine h.store ?_ hnew (fun url hurl' => h.urlInj url w.url id hurl' hurl) (h.known _ _ hurl)
    cases hw : r.workers.lookup id with
    | none => rfl
    | some w' => exact absurd (h.urlInj _ _ id (h.urls id w' hw) hurl) (hnew id w' hw)
  | none =>
    have hfresh : ∀ url, r.urlToId.lookup url ≠ some ⟨r.drawn⟩ :=
      fun url hurl' => (h.known url _ hurl').false
    have hdrawn : Inv blake3 { r with drawn := r.drawn + 1 } :=
      { h with known := fun url id hurl' => (h.known url id hurl').trans (Nat.lt_succ_self _) }
    refine hdrawn.store ?_ hnew (fun url hurl' => absurd hurl' (hfresh url)) (Nat.lt_succ_self _)
    cases hw : r.workers.lookup ⟨r.drawn⟩ with
    | none => rfl
    | some w' => exact absurd (h.urls _ w' hw) (hfresh w'.url)

theorem Inv.reserveIdForUrl (url : String) : Inv blake3 (r.reserveIdForUrl url).1 := by
  unfold WorkerRegistry.reserveIdForUrl
  cases hurl : r.urlToId.lookup url with
  | some id => exact h
  | none =>
    refine { h with urls := ?_, urlInj := ?_, known := ?_ }
    · intro id w hw
      have hold := h.urls id w hw
      refine (lookup_insert_ne ?_).trans hold
      rintro rfl
      rw [hurl] at hold
      cases hold
    · exact h.urlInj.insert fun u hu => absurd (h.known u _ hu) (lt_irrefl _)
    · intro u id hu
      rcases lookup_insert_iff.mp hu with ⟨rfl, rfl⟩ | ⟨-, hold⟩
      · exact Nat.lt_succ_self _
      · exact (h.known u id hold).trans (Nat.lt_succ_self _)

/-- A stored worker goes; its URL may have been unmapped before. -/
theorem Inv.discard (hw : r.workers.lookup id = some w)
    {U : AList fun _ : String => WorkerId} (hU : ∀ url, (U.erase w.url).lookup url =
      (r.urlToId.erase w.url).lookup url) : Inv blake3 (discard blake3 { r with urlToId := U } id w) := by
  have hkept : ∀ url id', (U.erase w.url).lookup url = some id' →
      url ≠ w.url ∧ r.urlToId.lookup url = some id' := by
    intro url id' hurl
    rw [hU] at hurl
    exact lookup_erase_iff.mp hurl
  unfold WorkerRegistry.discard
  rcases rebuildHashRing_eq blake3 { r with
    workers := r.workers.erase id
    urlToId := U.erase w.url
    modelIndex := retain r.modelIndex w.modelId fun w' => decide (w'.url ≠ w.url) } w.modelId
    with ⟨H, hrebuild, hH⟩
  rw [hrebuild]
  refine ⟨?_, ?_, ?_, ?_, ?_, ?_, ?_⟩
  · refine h.models.erase hw (by simp) fun j w' hj hji _ => ?_
    exact decide_eq_true fun hurl => hji (h.url_inj hj hw hurl)
  · exact h.types.erase hw (by simp) fun j w' hj hji _ => decide_eq_true hji
  · exact h.connections.erase hw (by simp) fun j w' hj hji _ => decide_eq_true hji
  · intro j w' hj
    rcases lookup_erase_iff.mp hj with ⟨hji, hj⟩
    have hurl : w'.url ≠ w.url := fun hurl => hji (h.url_inj hj hw hurl)
    exact (hU _).trans ((lookup_erase_ne hurl).trans (h.urls j w' hj))
  · intro url url' id' hurl hurl'
    exact h.urlInj url url' id' (hkept url id' hurl).2 (hkept url' id' hurl').2
  · intro url id' hurl
    exact h.known url id' (hkept url id' hurl).2
  · refine rings_rebuilt h.rings (fun m hm => ?_) hH
    exact lookup_update.trans (if_neg hm)

theorem Inv.remove (id : WorkerId) : Inv blake3 (remove blake3 r id).1 := by
  unfold WorkerRegistry.remove
  cases hw : r.workers.lookup id with
  | none => exact h
  | some w => exact h.discard hw fun _ => rfl

theorem Inv.removeByUrl (url : String) : Inv blake3 (removeByUrl blake3 r url).1 := by
  unfold WorkerRegistry.removeByUrl
  cases hurl : r.urlToId.lookup url with
  | none => exact h
  | some id =>
    unfold WorkerRegistry.remove
    cases hw : r.workers.lookup id with
    | none =>
      -- the URL was only reserved
      simp only [hw]
      refine { h with urls := ?_, urlInj := ?_, known := ?_ }
      · intro id' w' hw'
        refine (lookup_erase_ne ?_).trans (h.urls id' w' hw')
        rintro rfl
        have hold := h.urls id' w' hw'
        rw [hurl] at hold
        cases hold
        rw [hw] at hw'
        cases hw'
      · exact h.urlInj.erase
      · intro u id' hu
        exact h.known u id' (lookup_erase_iff.mp hu).2
    | some w =>
      have heq : w.url = url := h.urlInj _ _ id (h.urls id w hw) hurl
      subst heq
      simp only [hw]
      refine h.discard hw fun u => ?_
      by_cases hu : u = w.url
      · subst hu
        rw [lookup_erase, lookup_erase]
      · rw [lookup_erase_ne hu]

/-- Every call that registers no worker under the URL of a stored one keeps the invariant. -/
theorem Inv.exec {call : Call} (hcall : r.NewUrl call) : Inv blake3 (exec blake3 r call) := by
  cases call with
  | register w => exact h.register hcall
  | reserveIdForUrl url => exact h.reserveIdForUrl url
  | remove id => exact h.remove id
  | removeByUrl url => exact h.removeByUrl url

omit h in
theorem NewUrlReachable.inv (h : NewUrlReachable blake3 r) : Inv blake3 r := by
  induction h with
  | refl =>
    refine ⟨.empty, .empty, .empty, ?_, nofun, ?_, ?_⟩ <;> simp [new]
  | tail _ hstep ih =>
    rcases hstep with ⟨call, hcall, rfl⟩
    exact ih.exec hcall

theorem Inv.mem_getByModel : w ∈ r.getByModel modelId ↔
    ∃ id, r.workers.lookup id = some w ∧ w.modelId = modelId := by
  rw [getByModel, h.models.mem]
  constructor
  · rintro ⟨id, w', hw, hm, rfl⟩
    exact ⟨id, hw, hm⟩
  · rintro ⟨id, hw, hm⟩
    exact ⟨id, w, hw, hm, rfl⟩

/-- The ring of a model, counted by URL. -/
theorem Inv.count_ring {ring : HashRing}
    (hring : r.hashRings.lookup modelId = some ring) : (ring.entries.map Prod.snd).count url =
      if url ∈ (r.getByModel modelId).map Worker.url then virtualNodesPerWorker else 0 := by
  rw [h.rings, map_eq_some_iff] at hring
  rcases hring with ⟨workers, hlook, rfl⟩
  have hlist : r.getByModel modelId = workers := by rw [getByModel, bucket, hlook, getD_some]
  rw [hlist]
  apply HashRing.count_new
  rw [← hlist]
  refine Nodup.map_on ?_ (h.models.nodup modelId)
  intro w hw w' hw' hurl
  rcases h.mem_getByModel.mp hw with ⟨id, hid, -⟩
  rcases h.mem_getByModel.mp hw' with ⟨id', hid', -⟩
  cases h.url_inj hid hid' hurl
  exact some.inj (hid.symm.trans hid')

theorem Inv.agree : IndicesAgree blake3 r where
  models modelId := ⟨h.models.nodup modelId, fun _ => h.mem_getByModel⟩
  types workerType := by
    refine ⟨h.types.nodup workerType, fun id => ?_⟩
    rw [h.types.mem]
    constructor
    · rintro ⟨i, w, hw, ht, rfl⟩
      exact ⟨w, hw, ht⟩
    · rintro ⟨w, hw, ht⟩
      exact ⟨id, w, hw, ht, rfl⟩
  connections mode := by
    refine ⟨h.connections.nodup mode, fun id => ?_⟩
    rw [h.connections.mem]
    constructor
    · rintro ⟨i, w, hw, hc, rfl⟩
      exact ⟨w, hw, hc⟩
    · rintro ⟨w, hw, hc⟩
      exact ⟨id, w, hw, hc, rfl⟩
  urls := h.urls
  rings modelId ring hring url := h.count_ring hring
  hasRing modelId hne := by
    rw [h.rings]
    cases hlook : r.modelIndex.lookup modelId with
    | none => exact absurd (by rw [getByModel, bucket, hlook, getD_none]) hne
    | some workers => exact ⟨_, rfl⟩
  routed modelId ring key isHealthy url hring hfind := by
    have hpos := count_pos_iff.mpr (HashRing.findHealthyUrl_mem hfind)
    rw [h.count_ring hring] at hpos
    split at hpos
    · next hmem =>
      rcases mem_map.mp hmem with ⟨w, hw, rfl⟩
      rcases h.mem_getByModel.mp hw with ⟨id, hid, hmodel⟩
      exact ⟨id, w, hid, hmodel, rfl⟩
    · cases hpos

/-- A worker registered under the URL of a stored one: the model of the stored one lists an object that is
not stored any more, or lists the same object twice. -/
theorem Inv.not_agree_register (hid : r.workers.lookup id = some w')
    (hurl : w'.url = w.url) : ¬ IndicesAgree blake3 (WorkerRegistry.register blake3 r w).1 := by
  intro hagree
  have hknown := h.urls id w' hid
  rw [hurl] at hknown
  rcases rebuildHashRing_eq blake3 { r with
    workers := r.workers.insert id w
    urlToId := r.urlToId.insert w.url id
    modelIndex := push r.modelIndex w.modelId w } w.modelId with ⟨H, hrebuild, -⟩
  rw [WorkerRegistry.register, hknown] at hagree
  simp only [WorkerRegistry.store, hrebuild] at hagree
  have hlisted : w' ∈ bucket r.modelIndex w'.modelId := h.mem_getByModel.mpr ⟨id, hid, rfl⟩
  have hstill : w' ∈ bucket (push r.modelIndex w.modelId w) w'.modelId := by
    rw [bucket_push]
    split
    · next heq => exact mem_append_left _ (heq ▸ hlisted)
    · exact hlisted
  rcases ((hagree.models w'.modelId).2 w').mp hstill with ⟨id₂, hid₂, -⟩
  rcases lookup_insert_iff.mp hid₂ with ⟨-, rfl⟩ | ⟨hne, hold⟩
  · have hnodup := (hagree.models w'.modelId).1
    change (bucket (push r.modelIndex w'.modelId w') w'.modelId).Nodup at hnodup
    rw [bucket_push, if_pos rfl, nodup_append] at hnodup
    exact hnodup.2.2 w' hlisted w' (mem_singleton_self w') rfl
  · exact hne (h.url_inj hold hid rfl)

end

/-- **The indices agree.** In every registry reached by calls that register no worker under the URL of a
stored one, the indices agree with the stored workers; and they still do after one more call exactly if
that call does not either. -/
theorem indices_agree (h : NewUrlReachable blake3 r) :
    IndicesAgree blake3 r ∧ ∀ call, IndicesAgree blake3 (exec blake3 r call) ↔ r.NewUrl call := by
  refine ⟨h.inv.agree, ?_⟩
  intro call
  constructor
  · intro hagree
    cases call with
    | register w => exact fun id w' hid hurl => h.inv.not_agree_register hid hurl hagree
    | reserveIdForUrl url => trivial
    | remove id => trivial
    | removeByUrl url => trivial
  · intro hcall
    exact (h.inv.exec hcall).agree

/-- A worker of the model "small". -/
def smallWorker : Worker := ⟨"http://worker:30000", "small", .regular, .http, 0⟩

/-- The worker that is started later under the same URL, with another model. -/
def largeWorker : Worker := ⟨"http://worker:30000", "large", .regular, .http, 1⟩

/-- A hash for runs on fixed workers. -/
def lengthHash (bytes : List UInt8) : UInt64 := bytes.length.toUInt64

theorem indices_agree_one_worker :
    (exec lengthHash new (.register smallWorker)).getByModel "small" = [smallWorker] ∧
    IndicesAgree lengthHash (exec lengthHash new (.register smallWorker)) := by
  have hreach : NewUrlReachable lengthHash (exec lengthHash new (.register smallWorker)) := by
    refine .single ⟨.register smallWorker, ?_, rfl⟩
    intro id w hw
    cases hw
  exact ⟨rfl, (indices_agree hreach).1⟩

/-- The worker is registered, registered again with another model, and removed. No worker is stored then,
but the first model still lists the first object and has its ring. -/
theorem removed_worker_listed : ∃ r, Reachable lengthHash r ∧ r.workers = ∅ ∧
    r.getByModel "small" = [smallWorker] ∧
    r.hashRings.lookup "small" = some (.new lengthHash [smallWorker]) ∧ ¬ IndicesAgree lengthHash r := by
  let r := exec lengthHash (exec lengthHash (exec lengthHash new (.register smallWorker))
    (.register largeWorker)) (.removeByUrl "http://worker:30000")
  have hreach : Reachable lengthHash r := .tail (.tail (.single ⟨_, rfl⟩) ⟨_, rfl⟩) ⟨_, rfl⟩
  have hlisted : r.getByModel "small" = [smallWorker] := rfl
  refine ⟨r, hreach, rfl, hlisted, rfl, ?_⟩
  intro hagree
  rcases ((hagree.models "small").2 smallWorker).mp (hlisted ▸ mem_singleton_self _) with
    ⟨id, hid, -⟩
  cases hid

end WorkerRegistry

end SGLang.Gateway
