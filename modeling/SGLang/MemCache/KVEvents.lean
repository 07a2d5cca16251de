/-
# SGLang.MemCache.KVEvents — the block events of the prefix caches.

The model of the event types of `kv_events.py` and of the loops of `_record_store_event` and
`_record_remove_event`, which RadixCache and the caches derived from it share. A node announces its pages
one by one, each under the first eight bytes of its chained hash and with the hash of the page before it.
`storeEvents_eq` and `removeEvents_eq` say what a node whose hashes are its chain announces.
-/
import SGLang.MemCache.PageHash

namespace SGLang.MemCache

open SGLang.Lib RadixKey List

/-- `StorageMedium`. -/
inductive StorageMedium
  | gpu | cpu | disk | external
deriving DecidableEq, Repr

/-- `BlockStored`, `BlockRemoved` and `AllBlocksCleared`. The caches put one hash into `block_hashes`, and
`lora_id` is always `None`. -/
inductive KVEvent
  | blockStored (blockHash : ℤ) (parentBlockHash : Option ℤ) (tokenIds : List Tok) (blockSize : ℕ)
      (medium : StorageMedium)
  | blockRemoved (blockHash : ℤ) (medium : StorageMedium)
  | allBlocksCleared
deriving DecidableEq, Repr

/-! ## Recording -/

/-- The tokens of a page as an event lists them: bigram pages expose pairs. -/
def RadixKey.pageTokens (key : RadixKey) (start stop : ℕ) : List Tok :=
  let raw := key.tokenIds
  if key.isBigram then
    (List.range' start (stop - start)).map fun j => .pair (raw.getD j 0) (raw.getD (j + 1) 0)
  else ((raw.take stop).drop start).map .single

section Node

variable {π : Type} (sha256 : List UInt8 → Digest) (hashOf : π → Option (List Digest)) (ps : ℕ)

variable (t : PageTree RadixKey ChildKey π)

/-- `compute_node_hash_values(node, page_size)`, for a node with this key and parent. -/
def computeHashes (parent : ℕ) (key : RadixKey) : List Digest :=
  computeNodeHashValues sha256 ps key
    (match t.nodes parent with
    | none => none
    | some pd => parentHash pd.key.len (hashOf pd.data))

/-- `node.hash_value`, computed if it is `None`. -/
def nodeHashes (nd : Node RadixKey ChildKey π) : List Digest :=
  match hashOf nd.data with
  | some hs => hs
  | none => computeHashes sha256 hashOf ps t nd.parent nd.key

/-- `node.parent.hash_value`. -/
def parentHashValue (nd : Node RadixKey ChildKey π) : Option (List Digest) :=
  match t.nodes nd.parent with
  | none => none
  | some pd => hashOf pd.data

end Node

/-- The parent hash `_record_store_event` starts from. -/
def parentBlockHash (parentIsRoot : Bool) (parentHashValue : Option (List Digest)) : Option ℤ :=
  if parentIsRoot then none
  else match parentHashValue with
    | none => none
    | some hs => hs.getLast?.map hashStrToInt64

/-- The loop of `_record_store_event`. -/
def storeLoop (ps : ℕ) (key : RadixKey) (hashValue : List Digest) (medium : StorageMedium) :
    List ℕ → ℕ → Option ℤ → List KVEvent
  | [], _, _ => []
  | start :: starts, pageIndex, parent =>
    let stop := min (start + ps) key.len
    if stop ≤ start then storeLoop ps key hashValue medium starts pageIndex parent
    else
      let tokens := key.pageTokens start stop
      let blockHash := hashStrToInt64 (hashValue.getD pageIndex [])
      .blockStored blockHash parent tokens tokens.length medium ::
        storeLoop ps key hashValue medium starts (pageIndex + 1) (some blockHash)

/-- What `_record_store_event` appends for a node with this key and these hashes. -/
def storeEvents (ps : ℕ) (key : RadixKey) (hashValue : List Digest) (medium : StorageMedium)
    (parent : Option ℤ) : List KVEvent :=
  storeLoop ps key hashValue medium (rangeStep key.len ps) 0 parent

/-- The loop of `_record_remove_event`. -/
def removeLoop (ps : ℕ) (key : RadixKey) (hashValue : List Digest) (medium : StorageMedium) :
    List ℕ → ℕ → List KVEvent
  | [], _ => []
  | start :: starts, pageIndex =>
    let stop := min (start + ps) key.len
    if stop ≤ start then removeLoop ps key hashValue medium starts pageIndex
    else
      .blockRemoved (hashStrToInt64 (hashValue.getD pageIndex [])) medium ::
        removeLoop ps key hashValue medium starts (pageIndex + 1)

/-- What `_record_remove_event` appends for a node with this key and these hashes. -/
def removeEvents (ps : ℕ) (key : RadixKey) (hashValue : List Digest) (medium : StorageMedium) :
    List KVEvent :=
  removeLoop ps key hashValue medium (rangeStep key.len ps) 0

/-! ## What is recorded -/

/-- The store events of pages that follow on a page with hash `prior`. -/
def chainEvents (sha256 : List UInt8 → Digest) (medium : StorageMedium) :
    Option Digest → List (List (Option String × Tok)) → List KVEvent
  | _, [] => []
  | prior, page :: rest =>
    let h := pageHash sha256 prior page
    .blockStored (hashStrToInt64 h) (prior.map hashStrToInt64) (page.map Prod.snd) page.length medium ::
      chainEvents sha256 medium (some h) rest

variable {sha256 : List UInt8 → Digest} {medium : StorageMedium} {prior : Option Digest}
variable {P : List (List (Option String × Tok))} {key : RadixKey} {ps : ℕ} {hs : List Digest}

/-- The tokens an event lists are those of the page's units. -/
theorem RadixKey.pageTokens_eq {start stop : ℕ} (hle : stop ≤ key.len) :
    key.pageTokens start stop = ((key.units.drop start).take (stop - start)).map Prod.snd := by
  have hunits : ((key.units.drop start).take (stop - start)).map Prod.snd =
      (key.toks.drop start).take (stop - start) := by
    rw [units, ← map_drop, ← map_take, map_map]
    exact map_id _
  rw [hunits]
  unfold pageTokens
  split
  · next hb =>
    apply ext_getElem?
    intro i
    by_cases hi : i < stop - start
    · rw [getElem?_take_of_lt hi, getElem?_drop, getElem?_toks (by omega), if_pos hb,
        getElem?_map, getElem?_range' hi, Nat.one_mul]
      rfl
    · rw [getElem?_eq_none, getElem?_eq_none]
      · rw [length_take]
        omega
      · rw [length_map, length_range']
        omega
  · next hb => rw [toks, if_neg hb, map_drop, map_take, drop_take]

theorem storeLoop_eq {starts : List ℕ} {i : ℕ} (hps : 0 < ps) (hlt : ∀ s ∈ starts, s < key.len)
    (hhs : hs.drop i = chain (pageHash sha256) prior (starts.map fun s => (key.units.drop s).take ps)) :
    storeLoop ps key hs medium starts i (prior.map hashStrToInt64) =
      chainEvents sha256 medium prior (starts.map fun s => (key.units.drop s).take ps) := by
  induction starts generalizing i prior with
  | nil => rfl
  | cons s starts ih =>
    have hs' := hlt s mem_cons_self
    have hstop : ¬ min (s + ps) key.len ≤ s := by omega
    have hpage : (key.units.drop s).take (min (s + ps) key.len - s) = (key.units.drop s).take ps := by
      rw [take_eq_take_iff, length_drop, length_units]
      omega
    have htoks : key.pageTokens s (min (s + ps) key.len) = _ :=
      pageTokens_eq (Nat.min_le_right (s + ps) key.len)
    rw [hpage] at htoks
    rw [map_cons, chain] at hhs
    have hget : hs.getD i [] = pageHash sha256 prior ((key.units.drop s).take ps) := by
      rw [getD_eq_getElem?_getD, ← Nat.add_zero i, ← getElem?_drop, hhs]
      rfl
    have hrest : hs.drop (i + 1) = (hs.drop i).drop 1 := drop_drop.symm
    rw [hhs] at hrest
    rw [storeLoop, map_cons, chainEvents]
    simp only [if_neg hstop, hget, htoks, length_map]
    rw [← ih (fun x hx => hlt x (mem_cons_of_mem s hx)) hrest, Option.map_some]

/-- A node whose hashes are its chain announces its pages one after the other. -/
theorem storeEvents_eq (hps : 0 < ps) (hhs : hs = chain (pageHash sha256) prior (pages ps key.units)) :
    storeEvents ps key hs medium (prior.map hashStrToInt64) =
      chainEvents sha256 medium prior (pages ps key.units) := by
  have hpages : pages ps key.units = (rangeStep key.len ps).map fun s => (key.units.drop s).take ps := by
    rw [rangeStep, pages, map_map, length_units]
    rfl
  rw [hpages] at hhs ⊢
  exact storeLoop_eq hps (fun s hs => mem_rangeStep hps hs) hhs

theorem removeLoop_eq {starts : List ℕ} {i : ℕ} (hps : 0 < ps) (hlt : ∀ s ∈ starts, s < key.len)
    (hlen : hs.length = i + starts.length) : removeLoop ps key hs medium starts i =
      (hs.drop i).map fun h => .blockRemoved (hashStrToInt64 h) medium := by
  induction starts generalizing i with
  | nil =>
    rw [drop_of_length_le (by rw [hlen, length_nil, Nat.add_zero])]
    rfl
  | cons s starts ih =>
    have hs' := hlt s mem_cons_self
    have hstop : ¬ min (s + ps) key.len ≤ s := by omega
    rw [length_cons] at hlen
    have hi : i < hs.length := by omega
    rw [removeLoop]
    simp only [if_neg hstop]
    rw [ih (fun x hx => hlt x (mem_cons_of_mem s hx)) (by omega), drop_eq_getElem_cons hi,
      map_cons, getD_eq_getElem _ _ hi]

/-- A node with a hash for every page takes back each of them. -/
theorem removeEvents_eq (hps : 0 < ps) (hlen : hs.length = (pages ps key.units).length) :
    removeEvents ps key hs medium = hs.map fun h => .blockRemoved (hashStrToInt64 h) medium := by
  rw [removeEvents, removeLoop_eq hps (fun s hs => mem_rangeStep hps hs), drop_zero]
  rw [hlen, length_pages, length_units, rangeStep, length_map, length_range, Nat.zero_add]

/-- **Every page is announced behind the page before it.** -/
theorem mem_chainEvents {ev : KVEvent} (h : ev ∈ chainEvents sha256 medium prior P) :
    ∃ P₁ page P₂, P = P₁ ++ page :: P₂ ∧
      ev = .blockStored (hashStrToInt64 (pageHash sha256 (lastHash (pageHash sha256) prior P₁) page))
        ((lastHash (pageHash sha256) prior P₁).map hashStrToInt64) (page.map Prod.snd) page.length
        medium := by
  induction P generalizing prior with
  | nil => exact absurd h not_mem_nil
  | cons page P ih =>
    rcases mem_cons.mp h with rfl | hrest
    · exact ⟨[], page, P, rfl, rfl⟩
    · rcases ih hrest with ⟨P₁, q, P₂, rfl, rfl⟩
      refine ⟨page :: P₁, q, P₂, rfl, ?_⟩
      rw [lastHash_cons]

section InTree

open PageTree

variable {π : Type} {t : PageTree RadixKey ChildKey π} {f : π → Option (List Digest)} {p : ℕ}
variable {pd : Node RadixKey ChildKey π} {l : List ℕ}

section

variable (h : t.Chained (pageHash sha256) ps f) (wf : PageTree.WF ps t) (hp : t.nodes p = some pd)
  (hl : t.Path p l)
include h wf hp hl

/-- A node below a hashed parent continues the parent's chain. -/
theorem computeHashes_eq (hroot : p = t.root → f pd.data = some [])
    (hhs : p ≠ t.root → ∃ hs, f pd.data = some hs) :
    computeHashes sha256 f ps t p key = hashesBelow (pageHash sha256) ps (t.labels l) key.units := by
  unfold computeHashes
  rw [hp, computeNodeHashValues_eq wf.ps_pos]
  exact congrArg (fun prior => chain (pageHash sha256) prior (pages ps key.units))
    (parentHash_eq h wf hp hl hroot hhs)

/-- The parent an event names is the last page above the node. -/
theorem parentBlockHash_eq (hhs : p ≠ t.root → ∃ hs, f pd.data = some hs) :
    parentBlockHash (p = t.root) (f pd.data) =
      (pageHashes (pageHash sha256) ps (t.labels l)).getLast?.map hashStrToInt64 := by
  rcases hl.last with ⟨hr, rfl⟩ | ⟨hne, -⟩
  · rw [labels_nil, pageHashes_nil wf.ps_pos, hr]
    simp [parentBlockHash]
  · rcases hhs hne with ⟨hs, hf⟩
    rw [← (h.getLast wf hp hne hl hf).1, hf]
    simp [parentBlockHash, hne]

end

end InTree

/-! ## The books of a consumer -/

namespace KVEvent

/-- The event announces a block with this hash. -/
def stores (h : ℤ) : KVEvent → Bool
  | .blockStored h' _ _ _ _ => h' = h
  | _ => false

/-- The event takes back a block with this hash. -/
def removes (h : ℤ) : KVEvent → Bool
  | .blockRemoved h' _ => h' = h
  | _ => false

/-- The events since the last `AllBlocksCleared`. -/
def sinceCleared (evs : List KVEvent) : List KVEvent :=
  (evs.reverse.takeWhile fun ev => ev ≠ .allBlocksCleared).reverse

/-- How many more times a block was announced than taken back since the last `AllBlocksCleared`. -/
def balance (h : ℤ) (evs : List KVEvent) : ℤ :=
  (sinceCleared evs).countP (stores h) - (sinceCleared evs).countP (removes h)

variable {h : ℤ} {evs evs' : List KVEvent}

@[simp] theorem balance_cleared : balance h (evs ++ [.allBlocksCleared]) = 0 := by
  simp [balance, sinceCleared]

theorem balance_append (hev : .allBlocksCleared ∉ evs') : balance h (evs ++ evs') =
    balance h evs + (evs'.countP (stores h) - evs'.countP (removes h)) := by
  have hsince : sinceCleared (evs ++ evs') = sinceCleared evs ++ evs' := by
    unfold sinceCleared
    rw [reverse_append, takeWhile_append_of_pos, reverse_append, reverse_reverse]
    intro ev hmem
    rw [mem_reverse] at hmem
    simp only [ne_eq, decide_not, Bool.not_eq_true', decide_eq_false_iff_not]
    rintro rfl
    exact hev hmem
  unfold balance
  rw [hsince, countP_append, countP_append]
  push_cast
  ring

end KVEvent

open KVEvent

/-- Announcing pages adds their hashes. -/
theorem countP_chainEvents (h : ℤ) : (chainEvents sha256 medium prior P).countP (stores h) =
    ((chain (pageHash sha256) prior P).map hashStrToInt64).count h ∧
    (chainEvents sha256 medium prior P).countP (removes h) = 0 ∧
    .allBlocksCleared ∉ chainEvents sha256 medium prior P := by
  induction P generalizing prior with
  | nil => exact ⟨rfl, rfl, not_mem_nil⟩
  | cons page P ih =>
    rcases @ih (some (pageHash sha256 prior page)) with ⟨hs, hr, hc⟩
    refine ⟨?_, ?_, ?_⟩
    · rw [chainEvents, chain, map_cons, countP_cons, count_cons, hs]
      simp [stores]
    · rw [chainEvents, countP_cons, hr]
      simp [removes]
    · rw [chainEvents, mem_cons]
      rintro (h | h)
      · cases h
      · exact hc h

/-- Taking pages back subtracts their hashes. -/
theorem countP_removed (h : ℤ) (hs : List Digest) :
    let evs := hs.map fun d => KVEvent.blockRemoved (hashStrToInt64 d) medium
    evs.countP (stores h) = 0 ∧ evs.countP (removes h) = (hs.map hashStrToInt64).count h ∧
      .allBlocksCleared ∉ evs := by
  refine ⟨?_, ?_, ?_⟩
  · rw [countP_map, countP_eq_zero]
    intro d _
    simp [stores]
  · rw [countP_map, count, countP_map]
    apply countP_congr
    intro d _
    simp [removes]
  · simp

end SGLang.MemCache
