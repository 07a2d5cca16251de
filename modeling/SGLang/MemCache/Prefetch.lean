/-
# SGLang.MemCache.Prefetch — from the storage to the host part of the tree.

`prefetch_from_storage` asks for as many host slots as the page-aligned key of the prompt has units, evicts host
nodes if there are too few, and, if there still are, goes on with the slots there are. The storage is then asked
for the pages of the key, the pages found are read into the slots one after the other, and
`check_prefetch_progress` hangs what has been read below the last host node.

In the last of the three cases the key is left as it was: the operation has fewer slots than units
(`prefetch_well_formed_iff`). In all others the key, the slots and the hashes are cut alike at every point on
the way, and every node is well formed.

The slots that `evict_host` frees, the answers of the storage and the progress of the other ranks are free.
-/
import SGLang.MemCache.PageHash
import SGLang.MemCache.RadixCacheWalk

namespace SGLang.MemCache.Prefetch

open SGLang.Lib SGLang.Lib.PageTree RadixKey List

/-- The fields of a node that prefetching writes. -/
structure HostNode where
  hostValue : Option (List ℕ)
  hashValue : Option (List Digest)

abbrev HostTree := PageTree RadixKey ChildKey HostNode

/-! ## The operation -/

structure Config where
  pageSize : ℕ
  isEagle : Bool
  enableStorage : Bool
  prefetchThreshold : ℕ

/-- The host slots and the key of a `PrefetchOperation`. -/
structure Operation where
  hostIndices : List ℕ
  key : RadixKey
deriving DecidableEq

/-- `HostKVCache.alloc`. -/
def hostAlloc (freeSlots : List ℕ) (needSize : ℕ) : Option (List ℕ) :=
  if freeSlots.length < needSize then none else some (freeSlots.take needSize)

/-- The page-aligned key of the new tokens. -/
def prefetchKey (cfg : Config) (extraKey : Option String) (newInputTokens : List ℕ) : RadixKey :=
  (⟨newInputTokens, extraKey, cfg.isEagle⟩ : RadixKey).pageAligned cfg.pageSize

/-- `prefetch_from_storage`. `evicted` are the slots that `evict_host` frees. -/
def prefetchFromStorage (cfg : Config) (rateLimited : Bool) (freeSlots evicted : List ℕ)
    (extraKey : Option String) (newInputTokens : List ℕ) : Option Operation :=
  let key := prefetchKey cfg extraKey newInputTokens
  if !cfg.enableStorage ∨ key.len < cfg.prefetchThreshold ∨ rateLimited then none
  else
    match hostAlloc freeSlots key.len with
    | some hostIndices => some ⟨hostIndices, key⟩
    | none =>
      let freeSlots := freeSlots ++ evicted
      match hostAlloc freeSlots key.len with
      | some hostIndices => some ⟨hostIndices, key⟩
      | none =>
        -- `new_input_tokens` is cut here, but the key has been built from it already
        let prefetchLength := freeSlots.length - freeSlots.length % cfg.pageSize
        if cfg.prefetchThreshold ≤ prefetchLength then
          (hostAlloc freeSlots prefetchLength).map fun hostIndices => ⟨hostIndices, key⟩
        else none

/-- The pool stays too small for the key, but not for a prefetch. -/
def Shortened (cfg : Config) (rateLimited : Bool) (freeSlots evicted : List ℕ) (extraKey : Option String)
    (newInputTokens : List ℕ) : Prop :=
  let key := prefetchKey cfg extraKey newInputTokens
  let room := (freeSlots ++ evicted).length
  cfg.enableStorage ∧ rateLimited = false ∧ cfg.prefetchThreshold ≤ key.len ∧ room < key.len ∧
    cfg.prefetchThreshold ≤ room - room % cfg.pageSize

/-! ## The controller -/

/-- What is not determined by the rank itself: the backend's answers to the query, the pages that the other
ranks have found and read, and which pages of each batch are read and counted. -/
structure Outcome where
  batchExists : List Digest → Option (List Digest) → ℕ
  otherHits : List ℕ
  counted : ℕ → List Bool
  otherPages : List ℕ

/-- `hash_value` after the query and the minimum over the ranks. -/
def queried (sha256 : List UInt8 → Digest) (ps storageBatchSize : ℕ) (key : RadixKey) (lastHash : Option Digest)
    (prefixKeys : Option (List Digest)) (o : Outcome) : List Digest :=
  let r := storageHitQuery sha256 o.batchExists ps storageBatchSize key lastHash prefixKeys
  let storageHitCount := (o.otherHits.map (· * ps)).foldl min r.storageQueryCount
  r.hashValue.take (storageHitCount / ps)

/-- `_page_transfer`: `completed_tokens`. A batch counts its pages up to the first that fails, and the transfer
ends with a batch of which not all were counted. -/
def pageTransfer (ps storageBatchSize : ℕ) (counted : ℕ → List Bool) : ℕ → List Digest → ℕ
  | 0, _ => 0
  | n + 1, hashValue =>
    let batchHashes := hashValue.take storageBatchSize
    let inc := (((counted n).take batchHashes.length).takeWhile id).length
    if hashValue = [] then 0
    else if inc = batchHashes.length then
      inc * ps + pageTransfer ps storageBatchSize counted n (hashValue.drop storageBatchSize)
    else inc * ps

/-! ## The tree -/

/-- `_split_node`, on these fields. -/
def splitNode (ps : ℕ) (t : HostTree) (child splitLen : ℕ) : HostTree × ℕ :=
  splitAt ps t child splitLen
    (fun d => ⟨d.hostValue.map (List.take splitLen), (splitNodeHashValue d.hashValue splitLen ps).1⟩)
    (fun d => ⟨d.hostValue.map (List.drop splitLen), (splitNodeHashValue d.hashValue splitLen ps).2⟩)

/-- The loop of `_insert_helper_host`. -/
def insertHostLoop (ps : ℕ) : ℕ → HostTree → ℕ → RadixKey → List ℕ → List Digest → ℕ →
    Except Error (HostTree × ℕ × RadixKey × List ℕ × List Digest × ℕ)
  | 0, _, _, _, _, _, _ => .error .outOfFuel
  | fuel + 1, t, node, key, hostValue, hashValue, matched =>
    if 0 < key.len then
      match t.child node (key.childKey ps) with
      | none => .ok (t, node, key, hostValue, hashValue, matched)
      | some child => do
        let cd ← getNode t child
        let prefixLen ← cd.key.matchKey key ps
        let (t, node) := if prefixLen < cd.key.len then splitNode ps t child prefixLen else (t, child)
        insertHostLoop ps fuel t node (key.drop prefixLen) (hostValue.drop prefixLen)
          (hashValue.drop (prefixLen / ps)) (matched + prefixLen)
    else .ok (t, node, key, hostValue, hashValue, matched)

/-- `_insert_helper_host`. -/
def insertHelperHost (ps : ℕ) (t : HostTree) (node : ℕ) (key : RadixKey) (hostValue : List ℕ)
    (hashValue : List Digest) : Except Error (HostTree × ℕ) := do
  let (t, node, key, hostValue, hashValue, matched) ←
    insertHostLoop ps (key.len + 1) t node key hostValue hashValue 0
  if 0 < key.len then .ok ((t.addLeaf ps node key ⟨some hostValue, some hashValue⟩).1, matched)
  else .ok (t, matched)

/-- `check_prefetch_progress`, once the operation may end. -/
def checkPrefetchProgress (ps : ℕ) (t : HostTree) (lastHostNode : ℕ) (op : Operation) (hashValue : List Digest)
    (completedTokens : ℕ) (otherPages : List ℕ) : Except Error (HostTree × ℕ) :=
  let minCompletedTokens := (otherPages.map (· * ps)).foldl min completedTokens
  insertHelperHost ps t lastHostNode (op.key.getSlice 0 minCompletedTokens)
    (op.hostIndices.take minCompletedTokens) (hashValue.take (minCompletedTokens / ps))

/-- Whole pages, with a slot for each unit and a hash for each page, where the node has slots and hashes. -/
def Formed (ps : ℕ) (key : RadixKey) (d : HostNode) : Prop :=
  ps ∣ key.len ∧ (∀ v, d.hostValue = some v → v.length = key.len) ∧
    ∀ hs, d.hashValue = some hs → hs.length = key.len / ps

/-- What the operation should be: a slot for each unit, and whatever is read of it, every node is well formed
afterwards, the new one with slots and hashes for all that was not in the tree. -/
def WellFormed (sha256 : List UInt8 → Digest) (cfg : Config) (op : Operation) : Prop :=
  op.hostIndices.length = op.key.len ∧
  ∀ (t : HostTree) (n : ℕ) (l : List ℕ), WF cfg.pageSize t → t.Each (Formed cfg.pageSize) → t.Path n l →
  ∀ (storageBatchSize : ℕ) (lastHash : Option Digest) (prefixKeys : Option (List Digest)) (o : Outcome) (k : ℕ),
  0 < storageBatchSize →
    let hashValue := queried sha256 cfg.pageSize storageBatchSize op.key lastHash prefixKeys o
    let completed := pageTransfer cfg.pageSize storageBatchSize o.counted k hashValue
    ∃ t' matched read, checkPrefetchProgress cfg.pageSize t n op hashValue completed o.otherPages =
      .ok (t', matched) ∧
      t'.Each (Formed cfg.pageSize) ∧ read ≤ completed ∧ matched ≤ read ∧
      (matched < read → ∃ x nd v hs, t.nodes x = none ∧ t'.nodes x = some nd ∧ nd.key.len = read - matched ∧
        nd.data = ⟨some v, some hs⟩)

/-! ## Lengths -/

section Lengths

variable {sha256 : List UInt8 → Digest} {ps storageBatchSize : ℕ} {key : RadixKey} {d : HostNode} {m : ℕ}

theorem hostAlloc_eq_some {freeSlots slots : List ℕ} (h : hostAlloc freeSlots m = some slots) :
    slots.length = m := by
  unfold hostAlloc at h
  split_ifs at h
  cases h
  simp
  omega

theorem hostAlloc_eq_none {freeSlots : List ℕ} : hostAlloc freeSlots m = none ↔ freeSlots.length < m := by
  simp [hostAlloc]

/-- The query returns no more hashes than it asked for. -/
theorem length_queryLoop_le {batchExists : List Digest → Option (List Digest) → ℕ} {starts : List ℕ} :
    ∀ {lastHash : Option Digest} {prefixKeys : Option (List Digest)},
      (queryLoop sha256 batchExists ps storageBatchSize key starts lastHash prefixKeys).hashValue.length ≤
        (queryLoop sha256 batchExists ps storageBatchSize key starts lastHash
          prefixKeys).asked.flatten.length := by
  induction starts with
  | nil => simp [queryLoop]
  | cons start starts ih =>
    intro lastHash prefixKeys
    unfold queryLoop
    dsimp only
    split
    · simp
    · simp only [length_append, flatten_cons, length_take]
      exact Nat.add_le_add (Nat.min_le_right _ _) ih

theorem length_queried_le (hps : 0 < ps) (hbatch : 0 < storageBatchSize) (hd : ps ∣ key.len)
    (lastHash : Option Digest) (prefixKeys : Option (List Digest)) (o : Outcome) :
    (queried sha256 ps storageBatchSize key lastHash prefixKeys o).length * ps ≤ key.len := by
  set r := storageHitQuery sha256 o.batchExists ps storageBatchSize key lastHash prefixKeys
  have hasked : r.asked.flatten.length ≤ (chain (pageHash sha256) lastHash (pages ps key.units)).length :=
    (storageHitQuery_spec hps hbatch).1.length_le
  have hle : r.hashValue.length ≤ r.asked.flatten.length := length_queryLoop_le
  rw [length_chain, length_pages, length_units, pageCount_of_dvd hps hd] at hasked
  have htake : (queried sha256 ps storageBatchSize key lastHash prefixKeys o).length ≤ r.hashValue.length := by
    simp [queried, r]
  calc _ ≤ key.len / ps * ps := Nat.mul_le_mul_right ps (htake.trans (hle.trans hasked))
    _ = key.len := Nat.div_mul_cancel hd

/-- The transfer counts whole pages, no more than there are hashes. -/
theorem pageTransfer_spec {counted : ℕ → List Bool} : ∀ {n : ℕ} {hashValue : List Digest},
    ∃ p ≤ hashValue.length, pageTransfer ps storageBatchSize counted n hashValue = p * ps := by
  intro n
  induction n with
  | zero => exact fun {_} => ⟨0, Nat.zero_le _, (Nat.zero_mul ps).symm⟩
  | succ n ih =>
    intro hashValue
    have hinc : (((counted n).take (hashValue.take storageBatchSize).length).takeWhile id).length ≤
        (hashValue.take storageBatchSize).length :=
      (takeWhile_sublist _).length_le.trans (length_take_le _ _)
    have htake : (hashValue.take storageBatchSize).length ≤ hashValue.length := length_take_le' _ _
    unfold pageTransfer
    dsimp only
    split_ifs with hnil hall
    · exact ⟨0, Nat.zero_le _, (Nat.zero_mul ps).symm⟩
    · obtain ⟨p, hp, heq⟩ := @ih (hashValue.drop storageBatchSize)
      refine ⟨_, ?_, by rw [heq, ← Nat.add_mul]⟩
      rw [length_drop] at hp
      rw [hall, length_take]
      omega
    · exact ⟨_, hinc.trans htake, rfl⟩

/-- The minimum over the ranks is of whole pages as well. -/
theorem foldl_min_pages (ps p : ℕ) : ∀ others : List ℕ,
    ∃ q ≤ p, (others.map (· * ps)).foldl min (p * ps) = q * ps := by
  intro others
  induction others generalizing p with
  | nil => exact ⟨p, le_rfl, rfl⟩
  | cons a others ih =>
    obtain ⟨q, hq, heq⟩ := ih (min p a)
    refine ⟨q, hq.trans (Nat.min_le_left _ _), ?_⟩
    rw [map_cons, foldl_cons, ← heq, Nat.mul_min_mul_right]

/-! ## The tree -/

/-- Both halves of a well-formed node are. -/
theorem Formed.split (hps : 0 < ps) (h : Formed ps key d) (hm : m ≤ key.len) (hdm : ps ∣ m) :
    Formed ps (key.take m) ⟨d.hostValue.map (take m), (splitNodeHashValue d.hashValue m ps).1⟩ ∧
    Formed ps (key.drop m) ⟨d.hostValue.map (drop m), (splitNodeHashValue d.hashValue m ps).2⟩ := by
  obtain ⟨hd, hv, hh⟩ := h
  have hsub : (key.len - m) / ps = key.len / ps - m / ps := by
    obtain ⟨a, rfl⟩ := hdm
    rw [Nat.sub_mul_div, Nat.mul_div_cancel_left _ hps]
  have hle : m / ps ≤ key.len / ps := Nat.div_le_div_right hm
  unfold Formed
  rw [len_take, len_drop, Nat.min_eq_left hm, splitNodeHashValue_eq]
  refine ⟨⟨hdm, ?_, ?_⟩, ⟨Nat.dvd_sub hd hdm, ?_, ?_⟩⟩
  · rintro _ hsome
    obtain ⟨v, hvd, rfl⟩ := Option.map_eq_some_iff.mp hsome
    rw [length_take, hv v hvd, Nat.min_eq_left hm]
  · rintro _ hsome
    obtain ⟨hs, hdh, rfl⟩ := Option.map_eq_some_iff.mp hsome
    rw [length_take, hh hs hdh, Nat.min_eq_left hle]
  · rintro _ hsome
    obtain ⟨v, hvd, rfl⟩ := Option.map_eq_some_iff.mp hsome
    rw [length_drop, hv v hvd]
  · rintro _ hsome
    obtain ⟨hs, hdh, rfl⟩ := Option.map_eq_some_iff.mp hsome
    rw [length_drop, hh hs hdh, hsub]

end Lengths

section Insert

variable {ps fuel n matched : ℕ} {t : HostTree} {l : List ℕ} {key : RadixKey} {hostValue : List ℕ}
  {hashValue : List Digest}

/-- A key with its slots and its hashes in hand is cut like a node. -/
theorem Formed.drop {m : ℕ} (hps : 0 < ps) (h : Formed ps key ⟨some hostValue, some hashValue⟩)
    (hm : m ≤ key.len) (hdm : ps ∣ m) :
    Formed ps (key.drop m) ⟨some (hostValue.drop m), some (hashValue.drop (m / ps))⟩ := by
  have h := (h.split hps hm hdm).2
  rwa [splitNodeHashValue_eq] at h

/-- One round of the walk takes the label it matches off what is in hand. -/
theorem insertHostLoop_step {c : ℕ} (wf : WF ps t) (hf : t.Each (Formed ps)) (hl : t.Path n l)
    (hk : Formed ps key ⟨some hostValue, some hashValue⟩) (hpos : 0 < key.len)
    (hc : t.child n (key.childKey ps) = some c) :
    ∃ u x lx m, insertHostLoop ps (fuel + 1) t n key hostValue hashValue matched =
        insertHostLoop ps fuel u x (key.drop m) (hostValue.drop m) (hashValue.drop (m / ps)) (matched + m) ∧
      WF ps u ∧ u.Each (Formed ps) ∧ u.Path x lx ∧ t.next ≤ u.next ∧ 0 < m ∧ m ≤ key.len ∧
      Formed ps (key.drop m) ⟨some (hostValue.drop m), some (hashValue.drop (m / ps))⟩ := by
  obtain ⟨cd, m, hcd, hcr, hlc, hmatch, hpm, hpage⟩ := descend wf hl hk.1 hpos hc
  have hm : m ≤ cd.key.len := by simpa using hpage.le_left
  have hmk : m ≤ key.len := by simpa using hpage.le_right
  have hm₀ : 0 < m := wf.ps_pos.trans_le hpm
  have hk' := hk.drop wf.ps_pos hmk hpage.dvd
  have hget : getNode t c = .ok cd := by rw [getNode, hcd]
  simp only [insertHostLoop, if_pos hpos, hc, hget, hmatch, bind, Except.bind]
  split_ifs with hlt
  · obtain ⟨hsnd, hpath, -⟩ : (splitNode ps t c m).2 = t.next ∧
        (splitNode ps t c m).1.Path t.next (l ++ [t.next]) ∧ _ := split_below _ _ wf hcd hcr hlc
    refine ⟨_, _, l ++ [t.next], m, rfl, WF.splitAt wf hcd hcr hm₀ (by simpa using hlt) hpage.dvd, ?_,
      hsnd ▸ hpath, ?_, hm₀, hmk, hk'⟩
    · exact hf.split wf hcd hcr (fun h => (h.split wf.ps_pos hm hpage.dvd).1)
        fun h => (h.split wf.ps_pos hm hpage.dvd).2
    · rw [splitNode, splitAt_next hcd]
      omega
  · exact ⟨t, c, _, m, rfl, wf, hf, hlc, le_rfl, hm₀, hmk, hk'⟩

/-- The walk cuts key, slots and hashes alike, and keeps the nodes well formed. -/
theorem insertHostLoop_spec (hfuel : key.len < fuel) (wf : WF ps t) (hf : t.Each (Formed ps))
    (hl : t.Path n l) (hk : Formed ps key ⟨some hostValue, some hashValue⟩) :
    ∃ t' w l' key' v hs m, insertHostLoop ps fuel t n key hostValue hashValue matched =
        .ok (t', w, key', v, hs, matched + m) ∧
      WF ps t' ∧ t'.Each (Formed ps) ∧ t'.Path w l' ∧ t.next ≤ t'.next ∧ key'.len + m = key.len ∧
      Formed ps key' ⟨some v, some hs⟩ := by
  induction fuel generalizing t n l key hostValue hashValue matched with
  | zero => omega
  | succ fuel ih =>
    rcases Nat.eq_zero_or_pos key.len with hzero | hpos
    · exact ⟨t, n, l, key, hostValue, hashValue, 0, by simp [insertHostLoop, hzero], wf, hf, hl,
        le_rfl, rfl, hk⟩
    cases hc : t.child n (key.childKey ps) with
    | none =>
      exact ⟨t, n, l, key, hostValue, hashValue, 0, by simp [insertHostLoop, hpos, hc], wf, hf, hl,
        le_rfl, rfl, hk⟩
    | some c =>
      obtain ⟨u, x, lx, m, hrun, wf', hf', hx, hnext, hm₀, hmk, hk'⟩ := insertHostLoop_step wf hf hl hk hpos hc
      have hlen := len_drop key m
      obtain ⟨t', w, l', key', v, hs, k, hrun', hwf, hf, hl, hnext', hlen', hres⟩ :=
        ih (by omega) wf' hf' hx hk'
      exact ⟨t', w, l', key', v, hs, m + k, by rw [hrun, hrun', Nat.add_assoc], hwf, hf, hl, hnext.trans hnext',
        by omega, hres⟩

/-- What is read is inserted, and every node is well formed. -/
theorem insertHelperHost_spec (wf : WF ps t) (hf : t.Each (Formed ps)) (hl : t.Path n l)
    (hk : Formed ps key ⟨some hostValue, some hashValue⟩) :
    ∃ t' matched, insertHelperHost ps t n key hostValue hashValue = .ok (t', matched) ∧ t'.Each (Formed ps) ∧
      matched ≤ key.len ∧ (matched < key.len → ∃ x nd v hs, t.nodes x = none ∧ t'.nodes x = some nd ∧
        nd.key.len = key.len - matched ∧ nd.data = ⟨some v, some hs⟩) := by
  obtain ⟨t₁, w, l', key', v, hs, m, hrun, wf₁, hf₁, hl₁, hnext, hlen, hk'⟩ :=
    @insertHostLoop_spec ps (key.len + 1) n 0 t l key hostValue hashValue (Nat.lt_succ_self _) wf hf hl hk
  obtain ⟨wd, hwd⟩ := wf₁.node_of_path hl₁
  simp only [insertHelperHost, hrun, bind, Except.bind]
  split_ifs with hpos
  · refine ⟨_, _, rfl, hf₁.add wf₁ hwd hk', by omega, fun _ => ⟨t₁.next,
      ⟨w, ∅, key', ⟨some v, some hs⟩⟩, v, hs, ?_, nodes_addLeaf_new wf₁ hwd, ?_, rfl⟩⟩
    · by_contra hsome
      obtain ⟨nd, hnd⟩ := Option.ne_none_iff_exists'.mp hsome
      have := wf.lt_next hnd
      omega
    · dsimp only
      omega
  · exact ⟨t₁, _, rfl, hf₁, by omega, fun h => by omega⟩

end Insert

/-- An operation with a slot for each unit is well formed. -/
theorem wellFormed_of_length {sha256 : List UInt8 → Digest} {cfg : Config} {op : Operation}
    (hd : cfg.pageSize ∣ op.key.len) (hlen : op.hostIndices.length = op.key.len) :
    WellFormed sha256 cfg op := by
  refine ⟨hlen, fun t n l wf hf hl storageBatchSize lastHash prefixKeys o k hbatch => ?_⟩
  have hps := wf.ps_pos
  intro hashValue completed
  have hhash : hashValue.length * cfg.pageSize ≤ op.key.len := length_queried_le hps hbatch hd _ _ o
  obtain ⟨p, hp, hcompleted⟩ : ∃ p ≤ hashValue.length, completed = p * cfg.pageSize := pageTransfer_spec
  obtain ⟨q, hq, hmin⟩ := foldl_min_pages cfg.pageSize p o.otherPages
  have hread : q * cfg.pageSize ≤ op.key.len :=
    (Nat.mul_le_mul_right _ (hq.trans hp)).trans hhash
  have hkey : (op.key.getSlice 0 (q * cfg.pageSize)).len = q * cfg.pageSize :=
    (len_take op.key _).trans (Nat.min_eq_left hread)
  have hk : Formed cfg.pageSize (op.key.getSlice 0 (q * cfg.pageSize))
      ⟨some (op.hostIndices.take (q * cfg.pageSize)), some (hashValue.take q)⟩ := by
    unfold Formed
    rw [hkey]
    refine ⟨Nat.dvd_mul_left _ _, ?_, ?_⟩
    · rintro _ ⟨⟩
      rw [length_take, hlen, Nat.min_eq_left hread]
    · rintro _ ⟨⟩
      rw [length_take, Nat.mul_div_cancel _ hps, Nat.min_eq_left (hq.trans hp)]
  obtain ⟨t', matched, hrun, hf', hle, hnew⟩ := insertHelperHost_spec wf hf hl hk
  rw [hkey] at hle hnew
  refine ⟨t', matched, q * cfg.pageSize, ?_, hf', ?_, hle, hnew⟩
  · rw [checkPrefetchProgress, hcompleted, hmin, Nat.mul_div_cancel _ hps]
    exact hrun
  · rw [hcompleted]
    exact Nat.mul_le_mul_right _ hq

/-- **Prefetched nodes are well formed**, for every state of the host pool and everything that the storage
answers, unless the pool is left too small for the key and the prefetch is shortened. -/
theorem prefetch_well_formed_iff (sha256 : List UInt8 → Digest) (cfg : Config) (rateLimited : Bool)
    (freeSlots evicted : List ℕ) (extraKey : Option String) (newInputTokens : List ℕ) :
    (∀ op, prefetchFromStorage cfg rateLimited freeSlots evicted extraKey newInputTokens = some op →
      WellFormed sha256 cfg op) ↔
    ¬ Shortened cfg rateLimited freeSlots evicted extraKey newInputTokens := by
  set key := prefetchKey cfg extraKey newInputTokens with hkey
  have hd : cfg.pageSize ∣ key.len := dvd_len_pageAligned
  constructor
  · rintro h ⟨hstorage, hrate, hthreshold, hroom, hlong⟩
    rw [← hkey] at hthreshold hroom
    have hsome : hostAlloc (freeSlots ++ evicted)
        ((freeSlots ++ evicted).length - (freeSlots ++ evicted).length % cfg.pageSize) = some _ :=
      if_neg (by omega)
    have hfirst : hostAlloc freeSlots key.len = none := hostAlloc_eq_none.mpr (by
      rw [length_append] at hroom
      omega)
    have hshort := (h _ (by
      rw [prefetchFromStorage, ← hkey]
      simp only [hfirst, hostAlloc_eq_none.mpr hroom, hsome]
      rw [if_neg (by simp [hstorage, hrate, hthreshold]), if_pos hlong]
      rfl)).1
    rw [hostAlloc_eq_some hsome] at hshort
    dsimp only at hshort
    omega
  · intro hnot op hop
    rw [prefetchFromStorage, ← hkey] at hop
    dsimp only at hop
    split at hop
    · cases hop
    · next hgate =>
      simp only [not_or, Bool.not_eq_true', Bool.not_eq_true, not_lt] at hgate
      split at hop
      · next slots hslots =>
        cases hop
        exact wellFormed_of_length hd (hostAlloc_eq_some hslots)
      · split at hop
        · next slots hslots =>
          cases hop
          exact wellFormed_of_length hd (hostAlloc_eq_some hslots)
        · next hnone =>
          split_ifs at hop with hlong
          exact absurd ⟨by simpa using hgate.1, hgate.2.2, hgate.2.1, hostAlloc_eq_none.mp hnone, hlong⟩ hnot

/-- Four tokens and room for one page of two: the operation has two slots for a key of four units. -/
theorem shortened_prefetch : ∃ op,
    prefetchFromStorage ⟨2, false, true, 2⟩ false [0, 1] [] none [1, 2, 3, 4] = some op ∧
      op.hostIndices.length = 2 ∧ op.key.len = 4 :=
  ⟨⟨[0, 1], ⟨[1, 2, 3, 4], none, false⟩⟩, by decide, by decide, by decide⟩

end SGLang.MemCache.Prefetch
