/-
# SGLang.MemCache.BigramView — the bigram view of a key and the pairs it stands for.

In bigram mode a `RadixKey` keeps raw tokens, one more than it has pairs, and every operation finds its own end
points in them. `convert_to_bigram_key` writes the pairs out. `bigram_view_iff` says that the operations of the
view are those on the pairs, slices of slices included, except for one: `child_key` of a key that holds less
than a page reads behind the last token, where on the pairs it would take those there are.
-/
import SGLang.MemCache.PageHash

namespace SGLang.MemCache

open SGLang.Lib SGLang.Lib.PageTree RadixKey List

/-- `convert_to_bigram_key`, on token ids. -/
def convertToBigramKey (tokens : List ℕ) : List (ℕ × ℕ) :=
  if tokens.length < 2 then []
  else (List.range (tokens.length - 1)).map fun i => (tokens.getD i 0, tokens.getD (i + 1) 0)

/-- One end of a slice of step one, as `slice.indices(n)` clips it. -/
def clipIndex (n : ℕ) (i : ℤ) : ℕ := (if i < 0 then i + n else min i n).toNat

/-- A slice `[start:stop]`; `none` is an end left out. -/
abbrev Slice := Option ℤ × Option ℤ

def Slice.start (c : Slice) (n : ℕ) : ℕ := (c.1.map (clipIndex n)).getD 0

def Slice.stop (c : Slice) (n : ℕ) : ℕ := (c.2.map (clipIndex n)).getD n

/-- `RadixKey.__getitem__`. -/
def RadixKey.getItem (k : RadixKey) (c : Slice) : RadixKey := k.getSlice (c.start k.len) (c.stop k.len)

/-- A slice of a list. -/
def pySlice {α : Type} (l : List α) (c : Slice) : List α := (l.take (c.stop l.length)).drop (c.start l.length)

/-- `(t[j], t[j + 1])`; `none` is an `IndexError`. -/
def pairAt? (t : List ℕ) (j : ℕ) : Option (ℕ × ℕ) := do return (← t[j]?, ← t[j + 1]?)

/-- `plain if self.extra_key is None else (self.extra_key, plain)`. -/
def salt (extraKey : Option String) (plain : PlainKey) : ChildKey :=
  extraKey.elim (.plain plain) (.salted · plain)

/-- `RadixKey.child_key`, with its `IndexError`s. -/
def RadixKey.childKey? (ps : ℕ) (k : RadixKey) : Option ChildKey :=
  let t := k.tokenIds
  let plain : Option PlainKey :=
    if k.isBigram then
      if ps = 1 then (pairAt? t 0).map fun p => .pair p.1 p.2
      else ((List.range ps).mapM (pairAt? t)).map .pairs
    else if ps = 1 then t[0]?.map .token
    else some (.tokens (t.take ps))
  plain.map (salt k.extraKey)

/-- `child_key` of a key whose `token_ids` are pairs: `t[0]`, or `tuple(t[:page_size])`. -/
def pairKey? (ps : ℕ) (extraKey : Option String) (t : List (ℕ × ℕ)) : Option ChildKey :=
  (if ps = 1 then t[0]?.map fun p => .pair p.1 p.2 else some (.pairs (t.take ps))).map (salt extraKey)

/-- The operations of a key in bigram mode are those on the list of its pairs. -/
structure ViewsPairs (sha256 : List UInt8 → Digest) (ps : ℕ) (k : RadixKey) (pairs : List (ℕ × ℕ)) : Prop where
  len : k.len = pairs.length
  iter : k.toks = pairs.map fun p => .pair p.1 p.2
  slices : ∀ cuts : List Slice, ∃ raw, cuts.foldl getItem k = ⟨raw, k.extraKey, true⟩ ∧
    convertToBigramKey raw = cuts.foldl pySlice pairs
  halves : ∀ i, convertToBigramKey (k.getItem (none, some i)).tokenIds ++
    convertToBigramKey (k.getItem (some i, none)).tokenIds = pairs
  aligned : convertToBigramKey (k.pageAligned ps).tokenIds = pairs.take (pairs.length / ps * ps)
  matched : ∀ tokens', ∃ m, k.matchKey ⟨tokens', k.extraKey, true⟩ ps = .ok m ∧
    IsPageMatch ps pairs (convertToBigramKey tokens') m
  hashed : ∀ start stop prior, stop ≤ pairs.length → k.hashPage sha256 start stop prior =
    getHashStr sha256 (((pairs.take stop).drop start).map fun p => .pair p.1 p.2) prior
  childKey : k.childKey? ps = pairKey? ps k.extraKey pairs

variable {t : List ℕ} {e : Option String} {ps : ℕ}

theorem convertToBigramKey_eq (t : List ℕ) : convertToBigramKey t = bigrams t := by
  unfold convertToBigramKey
  split
  · next h =>
    have hlen := length_bigrams t
    exact (eq_nil_of_length_eq_zero (by omega)).symm
  · next h => rw [← bigrams_page (by omega), take_of_length_le (length_bigrams t).le]

/-! ## Slices -/

theorem toks_bigram : toks ⟨t, e, true⟩ = (bigrams t).map fun p => .pair p.1 p.2 := rfl

theorem bigrams_getSlice (start stop : ℕ) :
    bigrams (getSlice ⟨t, e, true⟩ start stop).tokenIds = ((bigrams t).take stop).drop start := by
  have h := toks_getSlice ⟨t, e, true⟩ start stop
  rw [toks_bigram, ← map_take, ← map_drop] at h
  exact map_injective_iff.mpr pair_injective h

theorem bigrams_getItem (c : Slice) : bigrams (getItem ⟨t, e, true⟩ c).tokenIds = pySlice (bigrams t) c := by
  rw [getItem, bigrams_getSlice, pySlice, ← length_toks, toks_bigram, length_map]

/-- Slices of slices. -/
theorem bigrams_foldl (cuts : List Slice) : ∃ raw, cuts.foldl getItem ⟨t, e, true⟩ = ⟨raw, e, true⟩ ∧
    bigrams raw = cuts.foldl pySlice (bigrams t) := by
  induction cuts generalizing t with
  | nil => exact ⟨t, rfl, rfl⟩
  | cons c cuts ih =>
    rw [foldl_cons, foldl_cons, ← bigrams_getItem]
    exact ih

theorem pySlice_halves {α : Type} (l : List α) (i : ℤ) :
    pySlice l (none, some i) ++ pySlice l (some i, none) = l := by
  simp [pySlice, Slice.start, Slice.stop]

/-! ## First pages -/

theorem pairAt?_eq (t : List ℕ) : pairAt? t = fun j => (bigrams t)[j]? := by
  funext j
  by_cases h : j + 1 < t.length
  · rw [getElem?_bigrams t j h]
    simp [pairAt?, getElem?_eq_getElem h, getElem?_eq_getElem (Nat.lt_of_succ_lt h)]
  · rw [getElem?_eq_none (by rw [length_bigrams]; omega)]
    simp [pairAt?, getElem?_eq_none (not_lt.mp h)]

/-- Reading the first `n` elements one by one. -/
theorem mapM_getElem? {α : Type} (l : List α) (n : ℕ) :
    ((range n).mapM fun j => l[j]?) = if n ≤ l.length then some (l.take n) else none := by
  induction n with
  | zero => rfl
  | succ n ih =>
    rw [range_succ, mapM_append, ih]
    rcases lt_or_ge n l.length with h | h
    · rw [if_pos h.le, if_pos (Nat.succ_le_of_lt h), take_add_one]
      simp [h]
    · rw [if_neg (not_le.mpr (Nat.lt_succ_of_le h))]
      split <;> simp [h]

/-- The first page of the view is that of the pairs if it is a whole one. -/
theorem childKey?_eq_iff :
    childKey? ps ⟨t, e, true⟩ = pairKey? ps e (bigrams t) ↔ ps = 1 ∨ ps ≤ (bigrams t).length := by
  simp only [childKey?, pairKey?, ↓reduceIte, pairAt?_eq]
  by_cases h1 : ps = 1
  · simp [h1]
  · rw [if_neg h1, if_neg h1, mapM_getElem?]
    split <;> simp_all

/-- **The bigram view is the list of pairs**, if the page size is one or there is a page of pairs; on a shorter
key `child_key` raises. -/
theorem bigram_view_iff (sha256 : List UInt8 → Digest) (tokens : List ℕ) (extraKey : Option String)
    (hps : 0 < ps) : ViewsPairs sha256 ps ⟨tokens, extraKey, true⟩ (convertToBigramKey tokens) ↔
      ps = 1 ∨ ps ≤ (convertToBigramKey tokens).length := by
  have hlen : len ⟨tokens, extraKey, true⟩ = (bigrams tokens).length := by
    rw [← length_toks, toks_bigram, length_map]
  refine ⟨fun h => ?_, fun h => ?_⟩
  · have hchild := h.childKey
    rw [convertToBigramKey_eq] at hchild ⊢
    exact childKey?_eq_iff.mp hchild
  · rw [convertToBigramKey_eq] at h ⊢
    refine ⟨hlen, rfl, ?_, fun i => ?_, ?_, fun tokens' => ?_, fun start stop prior hle => ?_,
      childKey?_eq_iff.mpr h⟩
    · simp only [convertToBigramKey_eq]
      exact bigrams_foldl
    · rw [convertToBigramKey_eq, convertToBigramKey_eq, bigrams_getItem, bigrams_getItem, pySlice_halves]
    · rw [convertToBigramKey_eq, pageAligned]
      split
      · next h1 => simp [h1]
      · rw [RadixKey.take, bigrams_getSlice, hlen, drop_zero]
    · obtain ⟨m, hm, hmatch⟩ := @matchKey_bigram ⟨tokens, extraKey, true⟩ ⟨tokens', extraKey, true⟩ ps
        hps rfl rfl rfl
      rw [convertToBigramKey_eq]
      exact ⟨m, hm, (isPageMatch_map pair_injective).mp hmatch⟩
    · rw [hashPage_eq (hlen ▸ hle), pageHash, getHashStr, drop_take]
      simp [units, toks_bigram, flatMap_map, ← map_take, ← map_drop]

/-- Two tokens are one pair: with pages of two, the view has no child key where the list of pairs has one. -/
theorem childKey_of_short_view :
    childKey? 2 ⟨[1, 2], none, true⟩ = none ∧
      pairKey? 2 none (convertToBigramKey [1, 2]) = some (.plain (.pairs [(1, 2)])) ∧
      ¬ ViewsPairs id 2 ⟨[1, 2], none, true⟩ (convertToBigramKey [1, 2]) :=
  ⟨rfl, rfl, fun h => by cases h.childKey⟩

theorem bigram_view_of_page : ViewsPairs id 2 ⟨[1, 2, 3], none, true⟩ [(1, 2), (2, 3)] :=
  (bigram_view_iff id [1, 2, 3] none (by decide)).mpr (.inr (by decide))

end SGLang.MemCache
