/-
# SGLang.Gateway.NodeText — the texts of the gateway's prefix tree, in characters and in bytes.

The tree counts characters, but its texts are UTF-8. The functions that cut and compare texts have a fast path
that works on bytes when these are ASCII and a slow one that goes character by character. Here a text is the
list of its characters, its bytes are their encodings, and a slice by byte index exists only at a character
boundary. Each function is modelled as it works, with both paths, and is shown to be the plain operation on
characters that its callers take it for.
-/
import SGLang.Lib.PageTree

namespace SGLang.Gateway

open SGLang.Lib List
open String (utf8EncodeChar)
open UInt8 (toNat_ofNat')

abbrev Text := List Char

namespace Text

/-- `as_bytes`. -/
def bytes (s : Text) : List UInt8 := s.flatMap utf8EncodeChar

/-- `len`, in bytes. -/
def len (s : Text) : ℕ := s.bytes.length

/-- `[u8]::is_ascii`. -/
def isAscii (bs : List UInt8) : Bool := bs.all fun b => decide (b.toNat < 128)

/-- `char_indices`, for a text that starts at byte `start`. -/
def charIndicesFrom (start : ℕ) : Text → List (ℕ × Char)
  | [] => []
  | c :: s => (start, c) :: charIndicesFrom (start + c.utf8Size) s

def charIndices (s : Text) : List (ℕ × Char) := charIndicesFrom 0 s

/-- `&s[i..]`; `none` is the panic at a byte that is not a boundary. -/
def sliceFrom (s : Text) : ℕ → Option Text
  | 0 => some s
  | i + 1 =>
    match s with
    | [] => none
    | c :: s => if c.utf8Size ≤ i + 1 then sliceFrom s (i + 1 - c.utf8Size) else none
termination_by s.length

/-- `&s[..i]`; `none` is the panic at a byte that is not a boundary. -/
def sliceTo (s : Text) : ℕ → Option Text
  | 0 => some []
  | i + 1 =>
    match s with
    | [] => none
    | c :: s =>
      if c.utf8Size ≤ i + 1 then (sliceTo s (i + 1 - c.utf8Size)).map (c :: ·) else none
termination_by s.length

/-- `advance_by_chars`. -/
def advanceByChars (s : Text) (n : ℕ) : Option Text :=
  if n = 0 then some s
  else if s.len ≤ n then some []
  else if isAscii (s.bytes.take n) then s.sliceFrom n
  else
    match s.charIndices[n]? with
    | some (idx, _) => s.sliceFrom idx
    | none => some []

/-- `take_chars`. -/
def takeChars (s : Text) (n : ℕ) : Option Text :=
  if n = 0 then some []
  else
    match s.charIndices[n]? with
    | some (idx, _) => s.sliceTo idx
    | none => some s

/-- `shared_prefix_count_chars`. -/
def sharedPrefixCountChars (a b : Text) : ℕ :=
  ((a.zip b).takeWhile fun p => p.1 == p.2).length

/-- `shared_prefix_count`. -/
def sharedPrefixCount (a b : Text) : ℕ :=
  let commonByteLen := ((a.bytes.zip b.bytes).findIdx? fun p => p.1 != p.2).getD
    (min a.bytes.length b.bytes.length)
  if isAscii (a.bytes.take commonByteLen) then commonByteLen else sharedPrefixCountChars a b

/-! ## Encodings -/

variable {c : Char} {s : Text}

theorem utf8EncodeChar_ascii (h : c.val.toNat ≤ 127) : utf8EncodeChar c = [UInt8.ofNat c.val.toNat] := by
  exact if_pos h

/-- Every byte of a character outside ASCII has its high bit set. -/
theorem utf8EncodeChar_high (h : ¬ c.val.toNat ≤ 127) {b : UInt8} (hb : b ∈ utf8EncodeChar c) :
    128 ≤ b.toNat := by
  unfold utf8EncodeChar at hb
  simp only [if_neg h] at hb
  split at hb
  · simp only [mem_cons, not_mem_nil, or_false] at hb
    rcases hb with rfl | rfl <;> simp only [toNat_ofNat'] <;> omega
  · split at hb
    · simp only [mem_cons, not_mem_nil, or_false] at hb
      rcases hb with rfl | rfl | rfl <;> simp only [toNat_ofNat'] <;> omega
    · simp only [mem_cons, not_mem_nil, or_false] at hb
      rcases hb with rfl | rfl | rfl | rfl <;> simp only [toNat_ofNat'] <;> omega

/-- The first byte of a character, and the rest. -/
theorem utf8EncodeChar_cons (c : Char) : ∃ b bs, utf8EncodeChar c = b :: bs := by
  have h := String.length_utf8EncodeChar c
  have hpos := c.utf8Size_pos
  cases hc : utf8EncodeChar c with
  | nil =>
    rw [hc, length_nil] at h
    omega
  | cons b bs => exact ⟨b, bs, rfl⟩

theorem utf8Size_ascii (h : c.val.toNat ≤ 127) : c.utf8Size = 1 := by
  rw [← String.length_utf8EncodeChar, utf8EncodeChar_ascii h, length_singleton]

theorem bytes_cons (c : Char) (s : Text) : bytes (c :: s) = utf8EncodeChar c ++ bytes s := rfl

theorem len_cons (c : Char) (s : Text) : len (c :: s) = c.utf8Size + len s := by
  unfold len
  rw [bytes_cons, length_append, String.length_utf8EncodeChar]

theorem length_le_len (s : Text) : s.length ≤ s.len := by
  induction s with
  | nil => exact Nat.le_refl 0
  | cons c s ih =>
    have hpos := c.utf8Size_pos
    rw [len_cons, length_cons]
    omega

theorem isAscii_cons (b : UInt8) (bs : List UInt8) :
    isAscii (b :: bs) = (decide (b.toNat < 128) && isAscii bs) := rfl

/-! ## Slices -/

theorem sliceFrom_cons {i : ℕ} (h : c.utf8Size ≤ i) : sliceFrom (c :: s) i = sliceFrom s (i - c.utf8Size) := by
  have hpos := c.utf8Size_pos
  cases i with
  | zero => omega
  | succ i =>
    rw [sliceFrom]
    exact if_pos h

theorem sliceTo_cons {i : ℕ} (h : c.utf8Size ≤ i) :
    sliceTo (c :: s) i = (sliceTo s (i - c.utf8Size)).map (c :: ·) := by
  have hpos := c.utf8Size_pos
  cases i with
  | zero => omega
  | succ i =>
    rw [sliceTo]
    exact if_pos h

@[simp] theorem sliceFrom_zero (s : Text) : sliceFrom s 0 = some s := by
  rw [sliceFrom]

@[simp] theorem sliceTo_zero (s : Text) : sliceTo s 0 = some [] := by
  rw [sliceTo]

/-- The end of the first `n` characters is a boundary. -/
theorem sliceFrom_len_take (s : Text) (n : ℕ) : s.sliceFrom (len (s.take n)) = some (s.drop n) := by
  induction s generalizing n with
  | nil =>
    rw [take_nil, drop_nil]
    exact sliceFrom_zero []
  | cons c s ih =>
    cases n with
    | zero => exact sliceFrom_zero _
    | succ n =>
      rw [take_succ_cons, drop_succ_cons, len_cons,
        sliceFrom_cons (Nat.le_add_right _ _), Nat.add_sub_cancel_left]
      exact ih n

theorem sliceTo_len_take (s : Text) (n : ℕ) : s.sliceTo (len (s.take n)) = some (s.take n) := by
  induction s generalizing n with
  | nil =>
    rw [take_nil]
    exact sliceTo_zero []
  | cons c s ih =>
    cases n with
    | zero => exact sliceTo_zero _
    | succ n =>
      rw [take_succ_cons, len_cons, sliceTo_cons (Nat.le_add_right _ _),
        Nat.add_sub_cancel_left, ih n, Option.map_some]

theorem charIndicesFrom_getElem? (start : ℕ) (s : Text) (n : ℕ) :
    (charIndicesFrom start s)[n]? = s[n]?.map fun c => (start + len (s.take n), c) := by
  induction s generalizing start n with
  | nil => rfl
  | cons c s ih =>
    cases n with
    | zero => rfl
    | succ n =>
      rw [charIndicesFrom, getElem?_cons_succ, getElem?_cons_succ, ih, take_succ_cons, len_cons, Nat.add_assoc]

theorem charIndices_getElem? (s : Text) (n : ℕ) :
    s.charIndices[n]? = s[n]?.map fun c => (len (s.take n), c) := by
  unfold charIndices
  rw [charIndicesFrom_getElem?]
  simp

/-- Where the first `n` bytes are ASCII they are the first `n` characters. -/
theorem len_take_of_isAscii {n : ℕ} (hn : n ≤ s.len) (h : isAscii (s.bytes.take n) = true) :
    len (s.take n) = n := by
  induction n generalizing s with
  | zero => rfl
  | succ n ih =>
    cases s with
    | nil =>
      have : len ([] : Text) = 0 := rfl
      omega
    | cons c s =>
      obtain ⟨b, bs, hc⟩ := utf8EncodeChar_cons c
      rw [bytes_cons, hc, cons_append, take_succ_cons, isAscii_cons, Bool.and_eq_true, decide_eq_true_eq] at h
      have hascii : c.val.toNat ≤ 127 := by
        by_contra hhigh
        have hb := utf8EncodeChar_high hhigh (hc ▸ mem_cons_self)
        omega
      have hbs : bs = [] := by
        rw [utf8EncodeChar_ascii hascii] at hc
        exact (cons.inj hc).2.symm
      have hsize := utf8Size_ascii hascii
      rw [len_cons] at hn
      rw [hbs, nil_append] at h
      rw [take_succ_cons, len_cons, ih (by omega) h.2]
      omega

/-- `advance_by_chars` drops characters, on both paths. -/
theorem advanceByChars_eq (s : Text) (n : ℕ) : s.advanceByChars n = some (s.drop n) := by
  unfold advanceByChars
  by_cases h0 : n = 0
  · rw [if_pos h0, h0, drop_zero]
  rw [if_neg h0]
  by_cases hlen : s.len ≤ n
  · rw [if_pos hlen, drop_eq_nil_of_le ((length_le_len s).trans hlen)]
  rw [if_neg hlen]
  by_cases hascii : isAscii (s.bytes.take n) = true
  · have h := sliceFrom_len_take s n
    rw [len_take_of_isAscii (Nat.le_of_not_le hlen) hascii] at h
    rw [if_pos hascii, h]
  · rw [if_neg hascii, charIndices_getElem?]
    cases hn : s[n]? with
    | none =>
      have hle := getElem?_eq_none_iff.mp hn
      rw [drop_eq_nil_of_le hle]
      rfl
    | some c => exact sliceFrom_len_take s n

/-- `take_chars` takes characters. -/
theorem takeChars_eq (s : Text) (n : ℕ) : s.takeChars n = some (s.take n) := by
  unfold takeChars
  by_cases h0 : n = 0
  · rw [if_pos h0, h0, take_zero]
  rw [if_neg h0, charIndices_getElem?]
  cases hn : s[n]? with
  | none =>
    have hle := getElem?_eq_none_iff.mp hn
    rw [take_of_length_le hle]
    rfl
  | some c => exact sliceTo_len_take s n

/-! ## Shared prefixes -/

theorem sharedPrefixCountChars_cons (c d : Char) (a b : Text) :
    sharedPrefixCountChars (c :: a) (d :: b) = if c = d then sharedPrefixCountChars a b + 1 else 0 := by
  unfold sharedPrefixCountChars
  rw [zip_cons_cons, takeWhile_cons]
  by_cases h : c = d
  · simp [h]
  · simp [h]

/-- The length of the common prefix of two byte strings. -/
def commonByteLen (as bs : List UInt8) : ℕ :=
  ((as.zip bs).findIdx? fun p => p.1 != p.2).getD (min as.length bs.length)

theorem commonByteLen_cons (x y : UInt8) (as bs : List UInt8) :
    commonByteLen (x :: as) (y :: bs) = if x = y then commonByteLen as bs + 1 else 0 := by
  unfold commonByteLen
  rw [zip_cons_cons, findIdx?_cons]
  by_cases h : x = y
  · subst h
    simp only [bne_self_eq_false, Bool.false_eq_true, if_false, if_true, length_cons, Nat.succ_min_succ]
    cases (as.zip bs).findIdx? fun p => p.1 != p.2 with
    | none => rfl
    | some i => rfl
  · simp [h]

/-- A common prefix in ASCII has as many characters as bytes. -/
theorem commonByteLen_of_isAscii (a b : Text)
    (h : isAscii (a.bytes.take (commonByteLen a.bytes b.bytes)) = true) :
    commonByteLen a.bytes b.bytes = sharedPrefixCountChars a b := by
  induction a generalizing b with
  | nil => simp [commonByteLen, bytes, sharedPrefixCountChars]
  | cons c a ih =>
    cases b with
    | nil => simp [commonByteLen, bytes, sharedPrefixCountChars]
    | cons d b =>
      obtain ⟨x, xs, hc⟩ := utf8EncodeChar_cons c
      obtain ⟨y, ys, hd⟩ := utf8EncodeChar_cons d
      rw [bytes_cons, bytes_cons, hc, hd, cons_append, cons_append, commonByteLen_cons] at h ⊢
      rw [sharedPrefixCountChars_cons]
      by_cases hxy : x = y
      · -- the first bytes agree: they are in the common prefix, so both characters are ASCII
        subst hxy
        rw [if_pos rfl] at h ⊢
        rw [take_succ_cons, isAscii_cons, Bool.and_eq_true, decide_eq_true_eq] at h
        have hca : c.val.toNat ≤ 127 := by
          by_contra hhigh
          have := utf8EncodeChar_high hhigh (hc ▸ mem_cons_self)
          omega
        have hda : d.val.toNat ≤ 127 := by
          by_contra hhigh
          have := utf8EncodeChar_high hhigh (hd ▸ mem_cons_self)
          omega
        rw [utf8EncodeChar_ascii hca] at hc
        rw [utf8EncodeChar_ascii hda] at hd
        obtain ⟨hx, hxs⟩ := cons.inj hc
        obtain ⟨hy, hys⟩ := cons.inj hd
        have hcd : c = d := by
          have hval := congrArg UInt8.toNat (hx.trans hy.symm)
          rw [toNat_ofNat', toNat_ofNat', Nat.mod_eq_of_lt (by omega), Nat.mod_eq_of_lt (by omega)] at hval
          exact Char.ext (UInt32.toNat_inj.mp hval)
        rw [← hxs, ← hys, nil_append, nil_append] at h ⊢
        rw [if_pos hcd, ih b h.2]
      · have hcd : c ≠ d := by
          rintro rfl
          rw [hc] at hd
          exact hxy (cons.inj hd).1
        rw [if_neg hxy, if_neg hcd]

/-- `shared_prefix_count` counts characters, on both paths. -/
theorem sharedPrefixCount_eq (a b : Text) : sharedPrefixCount a b = sharedPrefixCountChars a b := by
  show (if isAscii (a.bytes.take (commonByteLen a.bytes b.bytes)) then _ else _) = _
  by_cases h : isAscii (a.bytes.take (commonByteLen a.bytes b.bytes)) = true
  · rw [if_pos h]
    exact commonByteLen_of_isAscii a b h
  · rw [if_neg h]

/-- The shared prefix is no longer than either text. -/
theorem sharedPrefixCount_le (a b : Text) :
    sharedPrefixCount a b ≤ a.length ∧ sharedPrefixCount a b ≤ b.length := by
  have hle := (takeWhile_sublist (fun p : Char × Char => p.1 == p.2) (l := a.zip b)).length_le
  rw [length_zip, le_min_iff] at hle
  rwa [sharedPrefixCount_eq]

/-- Texts that begin with the same character share it. -/
theorem sharedPrefixCount_pos {a b : Text} (ha : a.head? = some c) (hb : b.head? = some c) :
    0 < sharedPrefixCount a b := by
  rw [sharedPrefixCount_eq]
  cases a with
  | nil => cases ha
  | cons x a =>
    cases b with
    | nil => cases hb
    | cons y b =>
      cases ha
      cases hb
      rw [sharedPrefixCountChars_cons, if_pos rfl]
      exact Nat.succ_pos _

end Text

/-! ## `NodeText` -/

/-- A node's text with its cached character count. -/
structure NodeText where
  text : Text
  charCount : ℕ
  deriving DecidableEq

namespace NodeText

def new (text : Text) : NodeText := ⟨text, text.length⟩

def empty : NodeText := ⟨[], 0⟩

def firstChar (nt : NodeText) : Option Char := nt.text.head?

/-- `split_at_char`; `none` is the panic of a slice. -/
def splitAtChar (nt : NodeText) (charIdx : ℕ) : Option (NodeText × NodeText) :=
  if charIdx = 0 then some (empty, nt)
  else if nt.charCount ≤ charIdx then some (nt, empty)
  else do
    let byteIdx := (nt.text.charIndices[charIdx]?.map Prod.fst).getD nt.text.len
    let head ← nt.text.sliceTo byteIdx
    let tail ← nt.text.sliceFrom byteIdx
    some (⟨head, charIdx⟩, ⟨tail, nt.charCount - charIdx⟩)

/-- Texts as labels of a page tree, with pages of one character. -/
instance : PagedKey NodeText Char Text where
  units nt := nt.text
  take nt n := ⟨nt.text.take n, n⟩
  drop nt n := ⟨nt.text.drop n, nt.charCount - n⟩
  childKey ps nt := nt.text.take ps

instance : LawfulPagedKey NodeText where
  units_take _ _ := rfl
  units_drop _ _ := rfl
  childKey_inj _ _ _ := Iff.rfl

/-- The two halves of a text are what is taken and what is dropped. -/
theorem splitAtChar_eq {nt : NodeText} {n : ℕ} (h0 : 0 < n) (hn : n < nt.charCount) :
    nt.splitAtChar n = some (PagedKey.take nt n, PagedKey.drop nt n) := by
  unfold splitAtChar
  rw [if_neg (Nat.ne_of_gt h0), if_neg (Nat.not_le_of_lt hn)]
  have hidx : (nt.text.charIndices[n]?.map Prod.fst).getD nt.text.len = Text.len (nt.text.take n) := by
    rw [Text.charIndices_getElem?]
    cases hc : nt.text[n]? with
    | none =>
      rw [take_of_length_le (getElem?_eq_none_iff.mp hc)]
      rfl
    | some c => rfl
  simp only [hidx, Text.sliceTo_len_take, Text.sliceFrom_len_take]
  rfl

end NodeText

end SGLang.Gateway
