/-
# SGLang.MemCache.PageHash — the keys of pages in storage and in events.

The model of `RadixKey.hash_page`, `compute_node_hash_values` and `split_node_hash_value`, with which the
tree names its pages, and of `get_hash_str` and `_storage_hit_query`, with which the storage prefetch names
the pages it asks for. Both walk over a key page by page and hash every page after the one before it, one
over raw token ids, the other over slices of slices. `computeNodeHashValues_eq` and `batchHashes_eq` say
that both compute the chain of hashes of the pages of the key's units.

SHA-256 is a parameter, and a digest stands for its hexadecimal text. Token ids are written as four bytes;
the code raises on ids that do not fit, which no vocabulary has.
-/
import SGLang.MemCache.RadixKey
import SGLang.Lib.PageTreeHashes

namespace SGLang.MemCache

open SGLang.Lib RadixKey List

/-- What `hexdigest` returns, as the bytes it spells out. -/
abbrev Digest := List UInt8

/-- `t.to_bytes(4, byteorder="little", signed=False)`. -/
def toBytes4 (t : ℕ) : List UInt8 := (List.range 4).map fun i => (t / 256 ^ i).toUInt8

/-- `hash_str_to_int64`: the first eight bytes, as a signed number. -/
def hashStrToInt64 (hashStr : Digest) : ℤ :=
  let uint64 : ℕ := (hashStr.take 8).foldl (fun acc b => acc * 256 + b.toNat) 0
  if uint64 ≥ 2 ^ 63 then (uint64 : ℤ) - 2 ^ 64 else uint64

/-- `range(0, n, step)`. -/
def rangeStep (n step : ℕ) : List ℕ := (List.range (pageCount step n)).map (· * step)

variable (sha256 : List UInt8 → Digest)

/-! ## The tree -/

/-- `RadixKey.hash_page`. -/
def RadixKey.hashPage (k : RadixKey) (start stop : ℕ) (priorHash : Option Digest) : Digest :=
  let t := k.tokenIds
  let body := (List.range' start (stop - start)).flatMap fun j =>
    if k.isBigram then toBytes4 (t.getD j 0) ++ toBytes4 (t.getD (j + 1) 0)
    else toBytes4 (t.getD j 0)
  sha256 (priorHash.getD [] ++ body)

/-- The loop of `compute_node_hash_values`. -/
def hashLoop (ps : ℕ) (key : RadixKey) : List ℕ → Option Digest → List Digest
  | [], _ => []
  | start :: starts, parentHash =>
    let stop := min (start + ps) key.len
    if stop ≤ start then hashLoop ps key starts parentHash
    else
      let hashVal := key.hashPage sha256 start stop parentHash
      hashVal :: hashLoop ps key starts (some hashVal)

/-- What `compute_node_hash_values` chains the first page to: the last hash of the parent, if it has a
label and hashes. -/
def parentHash (parentLen : ℕ) (parentHashValue : Option (List Digest)) : Option Digest :=
  match parentHashValue with
  | none => none
  | some hs => if 0 < parentLen ∧ 0 < hs.length then hs.getLast? else none

/-- `compute_node_hash_values`. -/
def computeNodeHashValues (ps : ℕ) (key : RadixKey) (parentHash : Option Digest) : List Digest :=
  hashLoop sha256 ps key (rangeStep key.len ps) parentHash

/-- `split_node_hash_value`. -/
def splitNodeHashValue (childHashValue : Option (List Digest)) (splitLen ps : ℕ) :
    Option (List Digest) × Option (List Digest) :=
  match childHashValue with
  | none => (none, none)
  | some hs =>
    let splitPages := if ps = 1 then splitLen else splitLen / ps
    (some (hs.take splitPages), some (hs.drop splitPages))

/-! ## The storage prefetch -/

/-- The bytes of one token, or of the two tokens of a bigram. -/
def tokBytes : Tok → List UInt8
  | .single t => toBytes4 t
  | .pair a b => toBytes4 a ++ toBytes4 b

/-- `get_hash_str`, on what iterating over a key yields. -/
def getHashStr (tokenIds : List Tok) (priorHash : Option Digest) : Digest :=
  sha256 (priorHash.getD [] ++ tokenIds.flatMap tokBytes)

/-- The inner loop of `_storage_hit_query`: `last_hash` runs through the pages of a batch. -/
def batchLoop (ps : ℕ) (batchTokens : RadixKey) : List ℕ → Option Digest → List Digest
  | [], _ => []
  | i :: is, lastHash =>
    let h := getHashStr sha256 (batchTokens.getSlice i (i + ps)).toks lastHash
    h :: batchLoop ps batchTokens is (some h)

def batchHashes (ps : ℕ) (batchTokens : RadixKey) (lastHash : Option Digest) : List Digest :=
  batchLoop sha256 ps batchTokens (rangeStep batchTokens.len ps) lastHash

/-- What `_storage_hit_query` returns, and the batches of keys it asked the backend for. -/
structure HitQuery where
  hashValue : List Digest
  storageQueryCount : ℕ
  asked : List (List Digest)
deriving DecidableEq, Repr

/-- The outer loop of `_storage_hit_query`. `batchExists` is the backend: how many leading keys of a batch
it has, given the keys that go before. -/
def queryLoop (batchExists : List Digest → Option (List Digest) → ℕ) (ps storageBatchSize : ℕ)
    (tokensToFetch : RadixKey) : List ℕ → Option Digest → Option (List Digest) → HitQuery
  | [], _, _ => ⟨[], 0, []⟩
  | start :: starts, lastHash, prefixKeys =>
    let stop := min (start + ps * storageBatchSize) tokensToFetch.len
    let hashes := batchHashes sha256 ps (tokensToFetch.getSlice start stop) lastHash
    let hitPageNum := batchExists hashes prefixKeys
    if hitPageNum < hashes.length then ⟨hashes.take hitPageNum, hitPageNum * ps, [hashes]⟩
    else
      let prefixKeys := prefixKeys.map fun keys => if keys = [] then keys else keys ++ hashes
      let rest := queryLoop batchExists ps storageBatchSize tokensToFetch starts
        (hashes.getLast?.or lastHash) prefixKeys
      ⟨hashes.take hitPageNum ++ rest.hashValue, hitPageNum * ps + rest.storageQueryCount,
        hashes :: rest.asked⟩

/-- `_storage_hit_query`. -/
def storageHitQuery (batchExists : List Digest → Option (List Digest) → ℕ) (ps storageBatchSize : ℕ)
    (tokensToFetch : RadixKey) (lastHash : Option Digest) (prefixKeys : Option (List Digest)) : HitQuery :=
  let prefixKeys := prefixKeys.filter fun keys => !keys.isEmpty
  queryLoop sha256 batchExists ps storageBatchSize tokensToFetch
    (rangeStep tokensToFetch.len (ps * storageBatchSize)) lastHash prefixKeys

/-! ## Both compute the chain of the pages -/

/-- The hash of a page of units after the hash of the page before it. -/
def pageHash (priorHash : Option Digest) (us : List (Option String × Tok)) : Digest :=
  sha256 (priorHash.getD [] ++ us.flatMap fun u => tokBytes u.2)

variable {sha256} {k : RadixKey} {ps start n : ℕ} {prior : Option Digest}

theorem splitNodeHashValue_eq {hs : Option (List Digest)} : splitNodeHashValue hs n ps =
    (hs.map (take (n / ps)), hs.map (drop (n / ps))) := by
  cases hs with
  | none => rfl
  | some hs =>
    have hpages : (if ps = 1 then n else n / ps) = n / ps := by
      split
      · next h => rw [h, Nat.div_one]
      · rfl
    simp [splitNodeHashValue, hpages]

/-- The `j`-th unit, from the raw tokens. -/
theorem RadixKey.getElem?_toks {j : ℕ} (h : j < k.len) : k.toks[j]? = some
    (if k.isBigram then .pair (k.tokenIds.getD j 0) (k.tokenIds.getD (j + 1) 0)
      else .single (k.tokenIds.getD j 0)) := by
  unfold len at h
  unfold toks
  split at h
  · next hb =>
    rw [if_pos hb, if_pos hb, getElem?_map, getElem?_bigrams _ _ (by split at h <;> omega), Option.map_some]
  · next hb =>
    rw [if_neg hb, if_neg hb, getElem?_map, getElem?_eq_getElem h, Option.map_some, getD_eq_getElem _ _ h]

/-- The bytes `hash_page` feeds are those of the units. -/
theorem RadixKey.hashPage_eq {stop : ℕ} (hle : stop ≤ k.len) : k.hashPage sha256 start stop prior =
    pageHash sha256 prior ((k.units.drop start).take (stop - start)) := by
  unfold hashPage pageHash
  have hbody : (k.units.drop start).take (stop - start) = (range' start (stop - start)).map fun j =>
      (k.extraKey,
        if k.isBigram then Tok.pair (k.tokenIds.getD j 0) (k.tokenIds.getD (j + 1) 0)
        else .single (k.tokenIds.getD j 0)) := by
    apply ext_getElem?
    intro i
    by_cases hi : i < stop - start
    · have hlt : start + i < k.len := by omega
      rw [getElem?_take_of_lt hi, getElem?_drop, units, getElem?_map,
        getElem?_toks hlt, getElem?_map, getElem?_range' hi, Nat.one_mul]
      rfl
    · rw [getElem?_eq_none, getElem?_eq_none]
      · simp only [length_map, length_range']
        omega
      · rw [length_take]
        omega
  show sha256 (prior.getD [] ++ flatMap _ _) = _
  rw [hbody, flatMap_map]
  congr 3
  funext j
  split <;> rfl

/-- The tree hashes the pages of a key one after the other. -/
theorem hashLoop_eq {starts : List ℕ} (hps : 0 < ps) (h : ∀ s ∈ starts, s < k.len) :
    hashLoop sha256 ps k starts prior =
      chain (pageHash sha256) prior (starts.map fun s => (k.units.drop s).take ps) := by
  induction starts generalizing prior with
  | nil => rfl
  | cons s starts ih =>
    have hs := h s mem_cons_self
    have hpage : (k.units.drop s).take (min (s + ps) k.len - s) = (k.units.drop s).take ps := by
      rw [take_eq_take_iff, length_drop, length_units]
      omega
    have hstop : ¬ min (s + ps) k.len ≤ s := by omega
    rw [hashLoop, map_cons, chain]
    simp only [if_neg hstop]
    rw [hashPage_eq (Nat.min_le_right _ _), hpage, ih fun x hx => h x (mem_cons_of_mem s hx)]

theorem mem_rangeStep {x : ℕ} (hps : 0 < ps) (h : x ∈ rangeStep n ps) : x < n := by
  rcases mem_map.mp h with ⟨q, hq, rfl⟩
  exact (lt_pageCount_iff hps).mp (mem_range.mp hq)

/-- `compute_node_hash_values` returns the chain of the pages. -/
theorem computeNodeHashValues_eq (hps : 0 < ps) : computeNodeHashValues sha256 ps k prior =
    chain (pageHash sha256) prior (pages ps k.units) := by
  rw [computeNodeHashValues, hashLoop_eq hps fun s hs => mem_rangeStep hps hs, rangeStep, pages,
    map_map, length_units]
  rfl

theorem batchLoop_eq {is : List ℕ} : batchLoop sha256 ps k is prior =
    chain (pageHash sha256) prior (is.map fun i => (k.units.drop i).take ps) := by
  induction is generalizing prior with
  | nil => rfl
  | cons i is ih =>
    have hpage : getHashStr sha256 (k.getSlice i (i + ps)).toks prior =
        pageHash sha256 prior ((k.units.drop i).take ps) := by
      have htoks : (k.units.drop i).take ps = (k.getSlice i (i + ps)).toks.map fun u => (k.extraKey, u) := by
        rw [toks_getSlice, units, map_drop, map_take, drop_take, Nat.add_sub_cancel_left]
      rw [getHashStr, pageHash, htoks, flatMap_map]
    rw [batchLoop, map_cons, chain, ih, hpage]

/-- A batch of the prefetch is the chain of its pages. -/
theorem batchHashes_eq : batchHashes sha256 ps k prior = chain (pageHash sha256) prior (pages ps k.units) := by
  rw [batchHashes, batchLoop_eq, rangeStep, pages, map_map, length_units]
  rfl

/-- One round of the query: the keys of the next batch, and what is left. -/
theorem batch_step {batch q : ℕ} (hps : 0 < ps) (hlt : q * (ps * batch) < k.len) :
    chain (pageHash sha256) prior (pages ps (k.units.drop (q * (ps * batch)))) =
      batchHashes sha256 ps (k.getSlice (q * (ps * batch)) (min (q * (ps * batch) + ps * batch) k.len)) prior ++
      chain (pageHash sha256) ((batchHashes sha256 ps (k.getSlice (q * (ps * batch))
        (min (q * (ps * batch) + ps * batch) k.len)) prior).getLast?.or prior)
        (pages ps (k.units.drop ((q + 1) * (ps * batch)))) := by
  have hnext : (q + 1) * (ps * batch) = q * (ps * batch) + ps * batch := by rw [Nat.add_mul, Nat.one_mul]
  generalize hs : q * (ps * batch) = s at hlt hnext ⊢
  have hslice : (k.getSlice s (min (s + ps * batch) k.len)).units = (k.units.drop s).take (ps * batch) := by
    rw [units_getSlice, drop_take, take_eq_take_iff, length_drop, length_units]
    omega
  have hpages : pages ps (k.units.drop s) = pages ps ((k.units.drop s).take (ps * batch)) ++
      pages ps (k.units.drop ((q + 1) * (ps * batch))) := by
    rw [hnext, ← drop_drop]
    by_cases hle : ps * batch ≤ (k.units.drop s).length
    · rw [Nat.mul_comm] at hle ⊢
      exact (pages_split hps hle).1
    · have hle' := Nat.le_of_not_le hle
      rw [take_of_length_le hle', drop_of_length_le hle', pages_nil hps, append_nil]
  rw [batchHashes_eq, hslice, hpages, chain_append, lastHash]

/-- The keys the query asks for are the first keys of the chain, in order; if the backend has all of them,
it asks for every one and returns them. -/
theorem queryLoop_spec {batch q cnt : ℕ} {batchExists : List Digest → Option (List Digest) → ℕ}
    {keys : Option (List Digest)} (hps : 0 < ps) (hbatch : 0 < batch)
    (hcnt : q + cnt = pageCount (ps * batch) k.len) :
    let r := queryLoop sha256 batchExists ps batch k ((range' q cnt).map (· * (ps * batch))) prior keys
    let C := chain (pageHash sha256) prior (pages ps (k.units.drop (q * (ps * batch))))
    r.asked.flatten <+: C ∧ ((∀ hs pk, hs ⊆ C → batchExists hs pk = hs.length) →
        r.asked.flatten = C ∧ r.hashValue = C ∧ r.storageQueryCount = C.length * ps) := by
  have hB : 0 < ps * batch := Nat.mul_pos hps hbatch
  induction cnt generalizing q prior keys with
  | zero =>
    have hend : k.units.drop (q * (ps * batch)) = [] := by
      rw [drop_eq_nil_iff, length_units, ← Nat.add_zero q, hcnt]
      exact le_pageCount_mul hB
    simp [queryLoop, hend, hps]
  | succ cnt ih =>
    have hlt : q * (ps * batch) < k.len := (lt_pageCount_iff hB).mp (by omega)
    have hC : chain (pageHash sha256) prior (pages ps (k.units.drop (q * (ps * batch)))) = _ :=
      batch_step hps hlt
    generalize hhashes : batchHashes sha256 ps (k.getSlice (q * (ps * batch))
      (min (q * (ps * batch) + ps * batch) k.len)) prior = hashes at hC
    rw [hC, range'_succ, map_cons, queryLoop, hhashes]
    dsimp only
    by_cases hmiss : batchExists hashes keys < hashes.length
    · rw [if_pos hmiss]
      refine ⟨?_, ?_⟩
      · simp
      · intro hfull
        have hall := hfull hashes keys (subset_append_left _ _)
        omega
    · rw [if_neg hmiss]
      have hnext : q + 1 + cnt = pageCount (ps * batch) k.len := by omega
      rcases @ih (hashes.getLast?.or prior) (q + 1) (keys.map fun pk =>
        if pk = [] then pk else pk ++ hashes) hnext with ⟨hasked, hrest⟩
      refine ⟨?_, ?_⟩
      · rw [flatten_cons]
        exact (List.prefix_append_right_inj _).mpr hasked
      · intro hfull
        have hall := hfull hashes keys (subset_append_left _ _)
        rcases hrest fun hs pk hsub => hfull hs pk (Subset.trans hsub (subset_append_right _ _))
          with ⟨h₁, h₂, h₃⟩
        rw [flatten_cons, h₁, h₂, h₃, hall, take_length, length_append]
        exact ⟨rfl, rfl, (Nat.add_mul _ _ _).symm⟩

/-- **What the prefetch asks for.** From any last hash: the chain of the pages of the key. -/
theorem storageHitQuery_spec {batch : ℕ} {batchExists : List Digest → Option (List Digest) → ℕ}
    {keys : Option (List Digest)} (hps : 0 < ps) (hbatch : 0 < batch) :
    let r := storageHitQuery sha256 batchExists ps batch k prior keys
    let C := chain (pageHash sha256) prior (pages ps k.units)
    r.asked.flatten <+: C ∧ ((∀ hs pk, hs ⊆ C → batchExists hs pk = hs.length) →
        r.asked.flatten = C ∧ r.hashValue = C ∧ r.storageQueryCount = C.length * ps) := by
  have hcnt : 0 + pageCount (ps * batch) k.len = pageCount (ps * batch) k.len := Nat.zero_add _
  have hspec := @queryLoop_spec sha256 k ps prior batch 0 _ batchExists
    (keys.filter fun keys => !keys.isEmpty) hps hbatch hcnt
  rw [Nat.zero_mul, drop_zero, ← range_eq_range'] at hspec
  exact hspec

/-! ## In a tree -/

section InTree

open PageTree

variable {π : Type} {t : PageTree RadixKey ChildKey π} {f : π → Option (List Digest)} {p : ℕ}
variable {pd : Node RadixKey ChildKey π} {l : List ℕ}

/-- The hashes of the pages of a node, chained from the root over the whole path. -/
def pathHashes (sha256 : List UInt8 → Digest) (ps : ℕ) (t : PageTree RadixKey ChildKey π) (n : ℕ) :
    List Digest :=
  match t.up n with
  | some (_ :: above) => hashesBelow (pageHash sha256) ps (t.labels above.reverse) (t.label n)
  | _ => []

theorem pathHashes_eq (wf : WF ps t) (hl : t.Path n (l ++ [n])) :
    pathHashes sha256 ps t n = hashesBelow (pageHash sha256) ps (t.labels l) (t.label n) := by
  rw [pathHashes, wf.up_eq hl, reverse_append]
  simp

/-- `compute_node_hash_values` continues the chain of a hashed parent. -/
theorem parentHash_eq (h : t.Chained (pageHash sha256) ps f) (wf : WF ps t) (hp : t.nodes p = some pd)
    (hl : t.Path p l) (hroot : p = t.root → f pd.data = some [])
    (hhs : p ≠ t.root → ∃ hs, f pd.data = some hs) :
    parentHash pd.key.len (f pd.data) = (pageHashes (pageHash sha256) ps (t.labels l)).getLast? := by
  rcases hl.last with ⟨hr, rfl⟩ | ⟨hne, -⟩
  · rw [hroot hr, labels_nil, pageHashes_nil wf.ps_pos]
    exact if_neg fun hlen => absurd hlen.2 (lt_irrefl 0)
  · rcases hhs hne with ⟨hs, hf⟩
    rcases h.getLast wf hp hne hl hf with ⟨hlast, hnil⟩
    have hlen : 0 < pd.key.len := by
      rw [← length_units]
      exact length_pos_of_ne_nil (wf.key_ne hp hne)
    rw [hf, ← hlast]
    exact if_pos ⟨hlen, length_pos_of_ne_nil hnil⟩

end InTree

end SGLang.MemCache
