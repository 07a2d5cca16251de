/-
# SGLang.MemCache.RadixKey — the keys of the radix caches.

A key is a list of raw token ids with an optional namespace (`extra_key`: a LoRA id, a cache salt)
and a flag for the bigram view EAGLE uses, in which `N + 1` raw tokens stand for `N` overlapping
pairs. The namespace and the view are folded into the *units* of a key (`RadixKey.units`), so that
two keys share a prefix of units exactly when they share a prefix of logical tokens, in one view and
under one `extra_key`. Against that reading the module proves that slicing cuts units, that child
keys name first pages, and that `RadixKey.matchKey` counts whole common pages.
-/
import SGLang.Lib.Dict
import SGLang.Lib.PageTreeStore

namespace SGLang.MemCache

open SGLang.Lib SGLang.Lib.PageTree List
open Bool (false_eq_true)

/-! ## Keys as the code has them -/

/-- `RadixKey`: with `isBigram`, `tokenIds` holds the raw tokens, one more than there are bigrams. -/
structure RadixKey where
  tokenIds : List ℕ
  extraKey : Option String
  isBigram : Bool
deriving DecidableEq, Repr

/-- What the cache raises. -/
inductive Error
  /-- `RadixKey operations require matching extra_key, but got ... != ...` -/
  | extraKeyMismatch (own other : Option String)
  /-- A failed `assert`, with its message. -/
  | assertion (message : String)
  /-- A `RuntimeError`, with its message. -/
  | runtimeError (message : String)
  /-- An attribute of `None`, or an object that is no longer there. -/
  | missingNode
  /-- A loop of the model ran out of fuel; the source has no such error. -/
  | outOfFuel
deriving DecidableEq, Repr

/-- The overlapping pairs of a token list. -/
def bigrams : List ℕ → List (ℕ × ℕ)
  | a :: b :: t => (a, b) :: bigrams (b :: t)
  | _ => []

namespace RadixKey

variable (k : RadixKey)

/-- `RadixKey.__len__`. -/
def len : ℕ :=
  if k.isBigram then (if 0 < k.tokenIds.length then k.tokenIds.length - 1 else 0)
  else k.tokenIds.length

/-- `RadixKey.__getitem__` on a slice `[start:stop]` of step one. -/
def getSlice (start stop : ℕ) : RadixKey :=
  let start := min start k.len
  let stop := min stop k.len
  if k.isBigram then
    -- bigrams [start, stop) span raw tokens [start, stop + 1)
    let raw := if start < stop then (k.tokenIds.take (stop + 1)).drop start else []
    ⟨raw, k.extraKey, true⟩
  else ⟨(k.tokenIds.take stop).drop start, k.extraKey, false⟩

/-- `key[:n]`. -/
def take (n : ℕ) : RadixKey := k.getSlice 0 n

/-- `key[n:]`. -/
def drop (n : ℕ) : RadixKey := k.getSlice n k.len

/-- `RadixKey.page_aligned`. -/
def pageAligned (pageSize : ℕ) : RadixKey :=
  if pageSize = 1 then k else k.take (k.len / pageSize * pageSize)

/-- `RadixKey.maybe_to_bigram_view`; the value is paired with raw tokens and truncated. -/
def maybeToBigramView {α : Type} (k : RadixKey) (isEagle : Bool) (value : List α) : RadixKey × List α :=
  if isEagle && !k.isBigram then
    let k : RadixKey := { k with isBigram := true }
    (k, value.take k.len)
  else (k, value)

/-- How far two token lists agree: `for a, b in zip(t0, t1): if a != b: break; i += 1`. -/
def zipMatch : List ℕ → List ℕ → ℕ
  | a :: as, b :: bs => if a = b then zipMatch as bs + 1 else 0
  | _, _ => 0

/-- `while i < min_len: if t0[i:i+p] != t1[i:i+p]: break; i += p`. Every round adds a page, so
`minLen` rounds are enough. -/
def pageLoop (pageSize minLen : ℕ) (t₀ t₁ : List ℕ) : ℕ → ℕ → ℕ
  | 0, i => i
  | fuel + 1, i =>
    if i < minLen then
      if (t₀.drop i).take pageSize ≠ (t₁.drop i).take pageSize then i
      else pageLoop pageSize minLen t₀ t₁ fuel (i + pageSize)
    else i

/-- `RadixKey.match`: the number of common leading units, rounded down to pages. -/
def matchKey (k other : RadixKey) (pageSize : ℕ) : Except Error ℕ :=
  if k.extraKey ≠ other.extraKey then .error (.extraKeyMismatch k.extraKey other.extraKey)
  else
    let t₀ := k.tokenIds
    let t₁ := other.tokenIds
    if k.isBigram then
      -- L matching tokens are L - 1 matching bigrams
      let matched := min (zipMatch t₀ t₁ - 1) (min k.len other.len)
      .ok (if 1 < pageSize then matched / pageSize * pageSize else matched)
    else if pageSize = 1 then .ok (zipMatch t₀ t₁)
    else
      let minLen := min k.len other.len
      .ok (pageLoop pageSize minLen t₀ t₁ minLen 0)

/-- The part of a child key that does not name the namespace. -/
inductive PlainKey
  | token (t : ℕ)
  | tokens (ts : List ℕ)
  | pair (a b : ℕ)
  | pairs (ps : List (ℕ × ℕ))
deriving DecidableEq, Repr

/-- The dictionary keys of `TreeNode.children`. -/
inductive ChildKey
  | plain (p : PlainKey)
  | salted (extraKey : String) (p : PlainKey)
deriving DecidableEq, Repr

/-- The first page of a key without its namespace. -/
def plainKey (pageSize : ℕ) (k : RadixKey) : PlainKey :=
  let t := k.tokenIds
  if k.isBigram then
    if pageSize = 1 then .pair (t.getD 0 0) (t.getD 1 0)
    else .pairs ((List.range pageSize).map fun j => (t.getD j 0, t.getD (j + 1) 0))
  else if pageSize = 1 then .token (t.getD 0 0)
  else .tokens (t.take pageSize)

/-- `RadixKey.child_key`, read on keys that hold at least one page. -/
def childKey (pageSize : ℕ) (k : RadixKey) : ChildKey :=
  match k.extraKey with
  | none => .plain (k.plainKey pageSize)
  | some e => .salted e (k.plainKey pageSize)

/-! ## Units -/

/-- One logical unit of a key, in its view and namespace. -/
inductive Tok
  | single (t : ℕ)
  | pair (a b : ℕ)
deriving DecidableEq, Repr

/-- The logical tokens of a key: what `RadixKey.__iter__` yields. -/
def toks (k : RadixKey) : List Tok :=
  if k.isBigram then (bigrams k.tokenIds).map fun p => .pair p.1 p.2 else k.tokenIds.map .single

/-- The units of a key: its logical tokens under its namespace. -/
def units (k : RadixKey) : List (Option String × Tok) := k.toks.map fun u => (k.extraKey, u)

end RadixKey

section Bigrams

theorem bigrams_cons_cons (a b : ℕ) (t : List ℕ) : bigrams (a :: b :: t) = (a, b) :: bigrams (b :: t) := rfl

@[simp] theorem length_bigrams (t : List ℕ) : (bigrams t).length = t.length - 1 := by
  induction t with
  | nil => rfl
  | cons a t ih => cases t <;> simp_all [bigrams]

theorem bigrams_drop (t : List ℕ) (n : ℕ) : bigrams (t.drop n) = (bigrams t).drop n := by
  induction n generalizing t with
  | zero => rfl
  | succ n ih =>
    match t with
    | [] => rfl
    | [a] => simp [bigrams]
    | a :: b :: t => rw [bigrams_cons_cons, drop_succ_cons, drop_succ_cons, ih]

theorem bigrams_take (t : List ℕ) (n : ℕ) : bigrams (t.take (n + 1)) = (bigrams t).take n := by
  induction n generalizing t with
  | zero =>
    match t with
    | [] => rfl
    | a :: t => simp [bigrams]
  | succ n ih =>
    match t with
    | [] => rfl
    | [a] => simp [bigrams]
    | a :: b :: t =>
      have := ih (b :: t)
      rw [take_succ_cons] at this
      rw [take_succ_cons, take_succ_cons, bigrams_cons_cons, bigrams_cons_cons, take_succ_cons, this]

theorem getElem?_bigrams (t : List ℕ) (j : ℕ) (h : j + 1 < t.length) :
    (bigrams t)[j]? = some (t.getD j 0, t.getD (j + 1) 0) := by
  induction j generalizing t with
  | zero =>
    match t with
    | [] | [a] => simp at h
    | a :: b :: t => simp [bigrams]
  | succ j ih =>
    match t with
    | [] | [a] => simp at h
    | a :: b :: t =>
      rw [bigrams_cons_cons, getElem?_cons_succ, ih (b :: t) (by simpa using h)]
      simp

/-- A token list is determined, from the first token on, by its bigrams. -/
theorem take_eq_of_bigrams {t t' : List ℕ} {n : ℕ} (hn : 0 < n) (ht : n < t.length) (ht' : n < t'.length) :
    (bigrams t).take n = (bigrams t').take n ↔ t.take (n + 1) = t'.take (n + 1) := by
  constructor
  · intro h
    induction n generalizing t t' with
    | zero => exact absurd hn (lt_irrefl _)
    | succ n ih =>
      match t, t' with
      | a :: b :: t, a' :: b' :: t' =>
        rw [bigrams_cons_cons, bigrams_cons_cons, take_succ_cons, take_succ_cons, cons.injEq,
          Prod.mk.injEq] at h
        obtain ⟨⟨rfl, rfl⟩, h⟩ := h
        rw [take_succ_cons, take_succ_cons]
        congr 1
        rcases Nat.eq_zero_or_pos n with rfl | hpos
        · simp
        · exact ih hpos (by simpa using ht) (by simpa using ht') h
      | [], _ | [_], _ => simp at ht
      | _, [] | _, [_] => simp at ht'
  · intro h
    rw [← bigrams_take, ← bigrams_take, h]

end Bigrams

namespace RadixKey

variable {k k' : RadixKey} {ps n m : ℕ}

variable (k)

theorem len_eq : k.len = if k.isBigram then k.tokenIds.length - 1 else k.tokenIds.length := by
  unfold len
  split
  · split <;> omega
  · rfl

@[simp] theorem length_toks : k.toks.length = k.len := by
  rw [len_eq]
  unfold toks
  split <;> simp

@[simp] theorem length_units : k.units.length = k.len := by
  simp [units]

/-- Clipping the ends of a slice to the length changes nothing. -/
theorem slice_clip {α : Type} (l : List α) (start stop : ℕ) :
    (l.take (min stop l.length)).drop (min start l.length) = (l.take stop).drop start := by
  rw [← take_eq_take_min]
  rcases le_total start l.length with h | h
  · rw [min_eq_left h]
  · rw [min_eq_right h, drop_of_length_le (by simp), drop_of_length_le (by simp; omega)]

/-- A slice cuts the logical tokens. -/
theorem toks_getSlice (start stop : ℕ) : (k.getSlice start stop).toks = (k.toks.take stop).drop start := by
  rw [← slice_clip, length_toks]
  unfold getSlice
  by_cases hb : k.isBigram
  · simp only [toks, hb, ↓reduceIte]
    split
    · rw [bigrams_drop, bigrams_take, map_drop, map_take]
    · next hle =>
      rw [drop_of_length_le (by rw [length_take]; omega)]
      rfl
  · simp [toks, hb]

@[simp] theorem extraKey_getSlice (start stop : ℕ) : (k.getSlice start stop).extraKey = k.extraKey := by
  unfold getSlice
  split <;> rfl

theorem units_getSlice (start stop : ℕ) : (k.getSlice start stop).units = (k.units.take stop).drop start := by
  rw [units, units, extraKey_getSlice, toks_getSlice, map_drop, map_take]

theorem toks_take (n : ℕ) : (k.take n).toks = k.toks.take n := toks_getSlice k 0 n

theorem toks_drop (n : ℕ) : (k.drop n).toks = k.toks.drop n := by
  rw [drop, toks_getSlice, take_of_length_le (length_toks k).le]

@[simp] theorem isBigram_take (n : ℕ) : (k.take n).isBigram = k.isBigram := by
  obtain ⟨t, e, b⟩ := k
  cases b <;> rfl

instance : PagedKey RadixKey (Option String × Tok) ChildKey where
  units := units
  take := take
  drop := drop
  childKey := childKey

@[simp] theorem pagedKey_units : PagedKey.units k = k.units := rfl

theorem len_take (n : ℕ) : (k.take n).len = min n k.len := by
  rw [← length_toks, toks_take, length_take, length_toks]

theorem len_drop (n : ℕ) : (k.drop n).len = k.len - n := by
  rw [← length_toks, toks_drop, length_drop, length_toks]

variable {k}

/-! ## First pages -/

theorem bigrams_page {t : List ℕ} (h : n < t.length) :
    (bigrams t).take n = (range n).map fun j => (t.getD j 0, t.getD (j + 1) 0) := by
  refine ext_getElem? fun j => ?_
  rcases lt_or_ge j n with hj | hj
  · rw [getElem?_take_of_lt hj, getElem?_bigrams t j (by omega)]
    simp [hj]
  · rw [getElem?_eq_none (by simp; omega), getElem?_eq_none (by simpa)]

/-- A plain first token is no bigram. -/
theorem plainKey_ne_bigram {t t' : List ℕ} {e e' : Option String} (hps : 0 < ps) (hk : ps ≤ len ⟨t, e, false⟩)
    (hk' : ps ≤ len ⟨t', e', true⟩) : plainKey ps ⟨t, e, false⟩ ≠ plainKey ps ⟨t', e', true⟩ ∧
      (toks ⟨t, e, false⟩).take ps ≠ (toks ⟨t', e', true⟩).take ps := by
  simp only [len, false_eq_true, ↓reduceIte] at hk hk'
  match t, t' with
  | a :: t, a' :: b' :: t' =>
    obtain ⟨p, rfl⟩ : ∃ p, ps = p + 1 := ⟨ps - 1, by omega⟩
    simp only [plainKey, toks, false_eq_true, ↓reduceIte, bigrams_cons_cons, map_cons, take_succ_cons]
    split <;> simp
  | [], _ => simp at hk; omega
  | _, [] | _, [_] => simp at hk'; omega

theorem pair_injective : Function.Injective fun p : ℕ × ℕ => Tok.pair p.1 p.2 := fun _ _ h =>
  Prod.ext (Tok.pair.inj h).1 (Tok.pair.inj h).2

theorem plainKey_inj (hps : 0 < ps) (hk : ps ≤ k.len) (hk' : ps ≤ k'.len) :
    k.plainKey ps = k'.plainKey ps ↔ k.toks.take ps = k'.toks.take ps := by
  obtain ⟨t, e, b⟩ := k
  obtain ⟨t', e', b'⟩ := k'
  cases b <;> cases b'
  · simp only [len, false_eq_true, ↓reduceIte] at hk hk'
    simp only [plainKey, toks, false_eq_true, ↓reduceIte, ← map_take]
    rw [(map_injective_iff.mpr fun _ _ h => Tok.single.inj h).eq_iff]
    split
    · next h1 =>
      subst h1
      match t, t' with
      | a :: t, a' :: t' => simp
      | [], _ => simp at hk
      | _, [] => simp at hk'
    · simp
  · obtain ⟨hkey, htoks⟩ := plainKey_ne_bigram hps hk hk'
    exact iff_of_false hkey htoks
  · obtain ⟨hkey, htoks⟩ := plainKey_ne_bigram hps hk' hk
    exact iff_of_false hkey.symm htoks.symm
  · simp only [len_eq, ↓reduceIte] at hk hk'
    simp only [plainKey, toks, ↓reduceIte, ← map_take]
    rw [(map_injective_iff.mpr pair_injective).eq_iff, bigrams_page (by omega), bigrams_page (by omega)]
    split
    · next h1 =>
      subst h1
      simp
    · simp

theorem units_take_eq_iff (hn : 0 < n) (hk : n ≤ k.len) (hk' : n ≤ k'.len) :
    k.units.take n = k'.units.take n ↔ k.extraKey = k'.extraKey ∧ k.toks.take n = k'.toks.take n := by
  rw [← length_toks] at hk hk'
  rw [units, units, ← map_take, ← map_take]
  constructor
  · intro h
    have htoks := congrArg (map Prod.snd) h
    simp only [map_map, Function.comp_def, map_id'] at htoks
    refine ⟨?_, htoks⟩
    have hhead := congrArg head? h
    match hka : k.toks, hkb : k'.toks with
    | a :: as, b :: bs =>
      obtain ⟨p, rfl⟩ : ∃ p, n = p + 1 := ⟨n - 1, by omega⟩
      rw [hka, hkb] at hhead
      simp only [take_succ_cons, map_cons, head?_cons, Option.some.injEq, Prod.mk.injEq] at hhead
      exact hhead.1
    | [], _ => rw [hka] at hk; simp at hk; omega
    | _, [] => rw [hkb] at hk'; simp at hk'; omega
  · rintro ⟨he, ht⟩
    rw [he, ht]

instance : LawfulPagedKey RadixKey where
  units_take k n := by
    exact units_getSlice k 0 n
  units_drop k n := by
    change (k.drop n).units = k.units.drop n
    rw [drop, units_getSlice, List.take_of_length_le (length_units k).le]
  childKey_inj {ps k k'} hps hk hk' := by
    change childKey ps k = childKey ps k' ↔ k.units.take ps = k'.units.take ps
    rw [pagedKey_units, length_units] at hk hk'
    rw [units_take_eq_iff hps hk hk', ← plainKey_inj hps hk hk']
    unfold childKey
    cases k.extraKey <;> cases k'.extraKey <;> simp

/-! ## Matching -/

theorem zipMatch_le (t t' : List ℕ) : zipMatch t t' ≤ t.length ∧ zipMatch t t' ≤ t'.length := by
  induction t generalizing t' with
  | nil => simp [zipMatch]
  | cons a t ih =>
    cases t' with
    | nil => simp [zipMatch]
    | cons b t' =>
      simp only [zipMatch]
      split
      · simpa using ih t'
      · simp

theorem le_zipMatch_iff {t t' : List ℕ} (h : n ≤ t.length) (h' : n ≤ t'.length) :
    n ≤ zipMatch t t' ↔ t.take n = t'.take n := by
  induction n generalizing t t' with
  | zero => simp
  | succ n ih =>
    match t, t' with
    | a :: t, b :: t' =>
      have : n ≤ zipMatch t t' ↔ t.take n = t'.take n :=
        ih (by simpa using h) (by simpa using h')
      simp only [zipMatch, take_succ_cons, cons.injEq]
      split
      · next hab => simp [hab, this]
      · next hab => simp [hab]
    | [], _ => simp at h
    | _, [] => simp at h'

/-- Where the paged comparison loop stops, from a page boundary up to which both lists agree. -/
theorem pageLoop_spec (t t' : List ℕ) {minLen fuel i : ℕ} (hps : 0 < ps) (hmin : ps ∣ minLen)
    (hi : ps ∣ i) (hle : i ≤ minLen) (htake : t.take i = t'.take i) (hfuel : minLen ≤ i + fuel) :
    ∃ r, pageLoop ps minLen t t' fuel i = r ∧ ps ∣ r ∧ r ≤ minLen ∧
      t.take r = t'.take r ∧ (r < minLen → (t.drop r).take ps ≠ (t'.drop r).take ps) := by
  induction fuel generalizing i with
  | zero => exact ⟨i, rfl, hi, hle, htake, fun h => by omega⟩
  | succ fuel ih =>
    simp only [pageLoop]
    split
    · next hlt =>
      split
      · next hne => exact ⟨i, rfl, hi, hle, htake, fun _ => hne⟩
      · next heq =>
        rw [not_not] at heq
        have hstep : i + ps ≤ minLen := by
          have := Nat.le_of_dvd (by omega) (Nat.dvd_sub hmin hi)
          omega
        have htake' : t.take (i + ps) = t'.take (i + ps) := by
          rw [take_add, take_add, htake, heq]
        exact ih (Nat.dvd_add hi dvd_rfl) hstep htake' (by omega)
    · next hge => exact ⟨i, rfl, hi, hle, htake, fun h => absurd h hge⟩

theorem isBigram_eq_of_page (hps : 0 < ps) (hk : ps ≤ k.len) (hk' : ps ≤ k'.len)
    (h : k.toks.take ps = k'.toks.take ps) : k.isBigram = k'.isBigram := by
  rw [← plainKey_inj hps hk hk'] at h
  unfold plainKey at h
  revert h
  cases k.isBigram <;> cases k'.isBigram <;> by_cases h1 : ps = 1 <;> simp [h1]

/-- Two bigram keys, whatever their lengths. -/
theorem matchKey_bigram (hps : 0 < ps) (hextra : k.extraKey = k'.extraKey) (hb : k.isBigram = true)
    (hb' : k'.isBigram = true) : ∃ m, k.matchKey k' ps = .ok m ∧ IsPageMatch ps k.toks k'.toks m := by
  have hl : k.len = k.tokenIds.length - 1 := by rw [len_eq, if_pos hb]
  have hl' : k'.len = k'.tokenIds.length - 1 := by rw [len_eq, if_pos hb']
  refine ⟨min (zipMatch k.tokenIds k'.tokenIds - 1) (min k.len k'.len) / ps * ps, ?_,
    .floor (by simp) (by simp) fun j hj _ hjk hjk' => ?_⟩
  · simp only [matchKey, hextra, hb, ne_eq, not_true_eq_false, ↓reduceIte]
    split
    · rfl
    · obtain rfl : ps = 1 := by omega
      rw [Nat.div_one, Nat.mul_one]
  · -- `j` bigrams agree when `j + 1` raw tokens do
    rw [length_toks] at hjk hjk'
    simp only [toks, hb, hb', ↓reduceIte, ← map_take]
    rw [(map_injective_iff.mpr pair_injective).eq_iff, take_eq_of_bigrams hj (by omega) (by omega),
      ← le_zipMatch_iff (by omega) (by omega)]
    omega

/-- Two plain keys of whole pages. -/
theorem matchKey_plain (hps : 0 < ps) (hextra : k.extraKey = k'.extraKey) (hb : k.isBigram = false)
    (hb' : k'.isBigram = false) (hk : ps ∣ k.len) (hk' : ps ∣ k'.len) :
    ∃ m, k.matchKey k' ps = .ok m ∧ IsPageMatch ps k.toks k'.toks m := by
  have hl : k.len = k.tokenIds.length := by simp [len, hb]
  have hl' : k'.len = k'.tokenIds.length := by simp [len, hb']
  have hsingle : Function.Injective Tok.single := fun _ _ h => Tok.single.inj h
  simp only [toks, hb, hb', false_eq_true, ↓reduceIte]
  by_cases h1 : ps = 1
  · subst h1
    obtain ⟨hle, hle'⟩ := zipMatch_le k.tokenIds k'.tokenIds
    have hfloor := @IsPageMatch.floor ℕ 1 _ _ _ hle hle' fun j _ _ hj hj' => le_zipMatch_iff hj hj'
    rw [Nat.div_one, Nat.mul_one] at hfloor
    exact ⟨_, by simp [matchKey, hextra, hb], (isPageMatch_map hsingle).mpr hfloor⟩
  · have hmin : ps ∣ min k.len k'.len := by
      rcases min_choice k.len k'.len with h | h <;> rw [h] <;> assumption
    obtain ⟨r, hr, hd, hrle, htake, hstop⟩ := pageLoop_spec k.tokenIds k'.tokenIds hps hmin
      (dvd_zero _) (Nat.zero_le _) rfl (Nat.zero_add (min k.len k'.len)).ge
    refine ⟨r, by simp [matchKey, hextra, hb, h1, hr],
      (isPageMatch_map hsingle).mpr ⟨hd, by omega, by omega, htake, ?_⟩⟩
    intro j hjd hjk hjk' heq
    by_contra hlt
    have hstep : r + ps ≤ j := by
      have := Nat.le_of_dvd (by omega) (Nat.dvd_sub hjd hd)
      omega
    refine hstop (by omega) ?_
    have := congrArg (fun l => (l.take (r + ps)).drop r) heq
    simpa [take_take, min_eq_left hstep, drop_take] using this

/-- **`RadixKey.match` counts whole common pages.** On page-aligned keys that share their first page
it raises nothing and returns the longest common prefix in pages. -/
theorem matchKey_spec (hps : 0 < ps) (hk : ps ∣ k.len) (hk' : ps ∣ k'.len) (hlen : ps ≤ k.len)
    (hlen' : ps ≤ k'.len) (hpage : k.units.take ps = k'.units.take ps) :
    ∃ m, k.matchKey k' ps = .ok m ∧ ps ≤ m ∧ IsPageMatch ps k.units k'.units m := by
  obtain ⟨hextra, htoks⟩ := (units_take_eq_iff hps hlen hlen').mp hpage
  have hbig := isBigram_eq_of_page hps hlen hlen' htoks
  obtain ⟨m, hm, hmatch⟩ : ∃ m, k.matchKey k' ps = .ok m ∧ IsPageMatch ps k.toks k'.toks m := by
    cases hb : k.isBigram with
    | true => exact matchKey_bigram hps hextra hb (hbig ▸ hb)
    | false => exact matchKey_plain hps hextra hb (hbig ▸ hb) hk hk'
  refine ⟨m, hm, hmatch.greatest ps dvd_rfl (by simpa) (by simpa) htoks, ?_⟩
  rw [units, units, ← hextra]
  exact (isPageMatch_map fun _ _ h => (Prod.mk.inj h).2).mpr hmatch

/-! ## Alignment -/

theorem len_pageAligned : (k.pageAligned ps).len = k.len / ps * ps := by
  unfold pageAligned
  split
  · next h => simp [h]
  · rw [len_take, min_eq_left (Nat.div_mul_le_self _ _)]

theorem dvd_len_pageAligned : ps ∣ (k.pageAligned ps).len := by
  rw [len_pageAligned]
  exact Nat.dvd_mul_left _ _

theorem units_pageAligned : (k.pageAligned ps).units = k.units.take (k.len / ps * ps) := by
  unfold pageAligned
  split
  · next h => simp [h, ← length_units]
  · exact units_take k _

end RadixKey

end SGLang.MemCache
