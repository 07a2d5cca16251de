/-
# SGLang.MemCache.Allocator — the allocators of device slots.

`TokenToKVPoolAllocator` (pages of one slot) and `PagedTokenToKVPoolAllocator` hand out slots and
take them back by page. A page is an index from `1` on: page `0` takes the writes of padded tokens.
The two triton kernels are modelled program by program; program `i` reads the free pages behind
those of the programs before it.

The result about allocation is `laid_extendProgram`: behind a prefix that is laid out on pages, the
new slots continue the layout on the pages taken. About `free` it is `pages_free`: what is given
back as a layout comes back page by page.
-/
import SGLang.Lib.Paging

namespace SGLang.MemCache

open SGLang.Lib List

/-! ## The two allocators -/

/-- `BaseTokenToKVPoolAllocator`, without the pool it manages. -/
structure Allocator where
  pageSize : ℕ
  needSort : Bool
  freePages : List ℕ
  releasePages : List ℕ
  isNotInFreeGroup : Bool
  freeGroup : List (List ℕ)
deriving DecidableEq, Repr

/-- `torch.unique`. -/
def unique (l : List ℕ) : List ℕ := l.dedup.insertionSort (· ≤ ·)

/-- What an allocation kernel reads about a request. -/
structure ExtendReq where
  prefixLen : ℕ
  seqLen : ℕ
  lastLoc : ℤ
deriving DecidableEq, Repr

/-- The pages the extension of a request takes. -/
def ExtendReq.numNewPages (ps : ℕ) (r : ExtendReq) : ℕ :=
  pageCount ps r.seqLen - pageCount ps r.prefixLen

namespace Allocator

/-- The allocator after `clear`. -/
def clear (pageSize : ℕ) (needSort : Bool) (numPages : ℕ) : Allocator :=
  ⟨pageSize, needSort, List.range' 1 numPages, [], true, []⟩

variable (a : Allocator)

/-- `available_size`. -/
def availableSize : ℕ := (a.freePages.length + a.releasePages.length) * a.pageSize

/-- `merge_and_sort_free`. -/
def mergeAndSortFree : Allocator :=
  if 0 < a.releasePages.length then
    { a with
      freePages := (a.freePages ++ a.releasePages).insertionSort (· ≤ ·)
      releasePages := [] }
  else a

/-- `merge_and_sort_free`, when pages are kept sorted and `wanted` are not there. -/
def mergeIfShort (wanted : ℕ) : Allocator :=
  if a.needSort ∧ a.freePages.length < wanted then a.mergeAndSortFree else a

/-- `TokenToKVPoolAllocator.alloc`. -/
def alloc (needSize : ℕ) : Allocator × Option (List ℕ) :=
  let a := a.mergeIfShort needSize
  if a.freePages.length < needSize then (a, none)
  else ({ a with freePages := a.freePages.drop needSize }, some (a.freePages.take needSize))

/-- `PagedTokenToKVPoolAllocator.alloc`: whole pages. -/
def allocPages (needSize : ℕ) : Allocator × Option (List ℕ) :=
  let numPages := needSize / a.pageSize
  let a := a.mergeIfShort numPages
  if a.freePages.length < numPages then (a, none)
  else ({ a with freePages := a.freePages.drop numPages },
    some (expand a.pageSize (a.freePages.take numPages)))

/-- One program of `alloc_extend_kernel`; `pages` are the free pages from `new_page_start_loc` on. -/
def extendProgram (ps : ℕ) (r : ExtendReq) (pages : List ℕ) : List ℕ :=
  -- part 1: fill the old partial page
  let numPart1 := min r.seqLen (pageCount ps r.prefixLen * ps) - r.prefixLen
  let out := (List.range numPart1).map fun i : ℕ => (r.lastLoc + 1 + i).toNat
  if r.prefixLen + numPart1 = r.seqLen then out
  else
    -- part 2: fill the new full pages
    let numPart2 := r.seqLen / ps * ps - pageCount ps r.prefixLen * ps
    let out := out ++ (List.range numPart2).map fun i => pages.getD (i / ps) 0 * ps + i % ps
    if r.prefixLen + numPart1 + numPart2 = r.seqLen then out
    else
      -- part 3: fill the new partial page
      let numPart3 := r.seqLen - r.seqLen / ps * ps
      out ++ (List.range numPart3).map fun i => pages.getD (r.numNewPages ps - 1) 0 * ps + i

/-- `alloc_extend_kernel`: the outputs of the programs one behind the other. -/
def allocExtendKernel (ps : ℕ) : List ExtendReq → List ℕ → List ℕ
  | [], _ => []
  | r :: rs, pages =>
    extendProgram ps r pages ++ allocExtendKernel ps rs (pages.drop (r.numNewPages ps))

/-- `PagedTokenToKVPoolAllocator.alloc_extend`. -/
def allocExtend (a : Allocator) (rs : List ExtendReq) (extendNumTokens : ℕ) : Allocator × Option (List ℕ) :=
  let a := a.mergeIfShort (extendNumTokens / a.pageSize + rs.length + 1)
  let outIndices := allocExtendKernel a.pageSize rs a.freePages
  let numNewPages := (rs.map (ExtendReq.numNewPages a.pageSize)).sum
  if a.freePages.length < numNewPages then (a, none)
  else ({ a with freePages := a.freePages.drop numNewPages }, some outIndices)

/-- One program of `alloc_decode_kernel`, which writes a single slot. -/
def decodeProgram (ps : ℕ) (seqLen : ℕ) (lastLoc : ℤ) (pages : List ℕ) : ℕ :=
  if pageCount ps seqLen - pageCount ps (seqLen - 1) = 0 then (lastLoc + 1).toNat
  else pages.getD 0 0 * ps

/-- `alloc_decode_kernel`, on pairs of a sequence length and a last location. -/
def allocDecodeKernel (ps : ℕ) : List (ℕ × ℤ) → List ℕ → List ℕ
  | [], _ => []
  | (seqLen, lastLoc) :: rs, pages =>
    decodeProgram ps seqLen lastLoc pages ::
      allocDecodeKernel ps rs (pages.drop (pageCount ps seqLen - pageCount ps (seqLen - 1)))

/-- `PagedTokenToKVPoolAllocator.alloc_decode`. -/
def allocDecode (a : Allocator) (rs : List (ℕ × ℤ)) : Allocator × Option (List ℕ) :=
  let a := a.mergeIfShort rs.length
  let outIndices := allocDecodeKernel a.pageSize rs a.freePages
  let numNewPages := rs.countP fun r => r.1 % a.pageSize = 1
  if a.freePages.length < numNewPages then (a, none)
  else ({ a with freePages := a.freePages.drop numNewPages }, some outIndices)

/-- `free`: token by token with pages of one slot, else page by page. -/
def free (a : Allocator) (freeIndex : List ℕ) : Allocator :=
  if freeIndex = [] then a
  else if a.isNotInFreeGroup then
    if a.pageSize = 1 then
      if a.needSort then { a with releasePages := a.releasePages ++ freeIndex }
      else { a with freePages := a.freePages ++ freeIndex }
    else
      let freePageIndices := unique (freeIndex.map (· / a.pageSize))
      if a.needSort then { a with releasePages := freePageIndices ++ a.releasePages }
      else { a with freePages := freePageIndices ++ a.freePages }
  else { a with freeGroup := a.freeGroup ++ [freeIndex] }

/-- The pages the allocator holds. -/
def pages (a : Allocator) : Multiset ℕ := (a.freePages : Multiset ℕ) + a.releasePages

end Allocator

open Allocator

/-! ## What the kernels write -/

section Extend

variable {ps i : ℕ} {r : ExtendReq} {P vs pages : List ℕ}

/-- The slot the extension puts at position `prefixLen + i`: the next one on the partial page, or one
on a new page. -/
def extendSlot (ps : ℕ) (r : ExtendReq) (pages : List ℕ) (i : ℕ) : ℕ :=
  if r.prefixLen + i < pageCount ps r.prefixLen * ps then (r.lastLoc + 1 + i).toNat
  else pages.getD ((r.prefixLen + i) / ps - pageCount ps r.prefixLen) 0 * ps + (r.prefixLen + i) % ps

/-- `num_part1`: what is left on the old partial page. -/
def ExtendReq.numPart1 (ps : ℕ) (r : ExtendReq) : ℕ :=
  min r.seqLen (pageCount ps r.prefixLen * ps) - r.prefixLen

/-- What a request has at position `prefixLen + i`, on the old page or at a place on a new one. -/
def ExtendReq.cell {β : Type} (ps : ℕ) (r : ExtendReq) (old : ℕ → β) (new : ℕ → ℕ → β) (i : ℕ) : β :=
  if r.prefixLen + i < pageCount ps r.prefixLen * ps then old i
  else new ((r.prefixLen + i) / ps - pageCount ps r.prefixLen) ((r.prefixLen + i) % ps)

/-- The same, written in three parts. -/
def ExtendReq.inParts {α β : Type} (ps : ℕ) (r : ExtendReq) (put : ℕ → β → α) (old : ℕ → β) (new : ℕ → ℕ → β) :
    List α :=
  let numPart1 := r.numPart1 ps
  let numPart2 := r.seqLen / ps * ps - pageCount ps r.prefixLen * ps
  let out := (List.range numPart1).map fun i => put i (old i)
  let out' := out ++ (List.range numPart2).map fun i => put (numPart1 + i) (new (i / ps) (i % ps))
  if r.prefixLen + numPart1 = r.seqLen then out
  else if r.prefixLen + numPart1 + numPart2 = r.seqLen then out'
  else out' ++ (List.range (r.seqLen - r.seqLen / ps * ps)).map fun i =>
    put (numPart1 + numPart2 + i) (new (r.numNewPages ps - 1) i)

theorem map_range_add {α : Type} (f : ℕ → α) (a b : ℕ) :
    (range a).map f ++ (range b).map (fun i => f (a + i)) = (range (a + b)).map f := by
  rw [range_add, map_append, map_map]
  rfl

/-- The three parts fill the positions one after the other. -/
theorem inParts_eq {α β : Type} (hps : 0 < ps) (hle : r.prefixLen ≤ r.seqLen) (put : ℕ → β → α) (old : ℕ → β)
    (new : ℕ → ℕ → β) :
    r.inParts ps put old new = (range (r.seqLen - r.prefixLen)).map fun i => put i (r.cell ps old new i) := by
  obtain ⟨pre, seq, lastLoc⟩ := r
  generalize hf : (fun i => put i (ExtendReq.cell ps ⟨pre, seq, lastLoc⟩ old new i)) = f
  dsimp only at hle
  have hA : pre ≤ pageCount ps pre * ps := le_pageCount_mul hps
  have hB : seq / ps * ps ≤ seq := Nat.div_mul_le_self seq ps
  have h₁ : ∀ n, pre + n ≤ pageCount ps pre * ps → ((range n).map fun i => put i (old i)) =
      (range n).map f := by
    intro n hn
    refine map_congr_left fun i hi => ?_
    rw [mem_range] at hi
    rw [← hf]
    dsimp only [ExtendReq.cell]
    rw [if_pos (by omega)]
  have h₂ : ∀ i, put (pageCount ps pre * ps - pre + i) (new (i / ps) (i % ps)) =
      f (pageCount ps pre * ps - pre + i) := by
    intro i
    have hj : pre + (pageCount ps pre * ps - pre + i) = i + pageCount ps pre * ps := by omega
    rw [← hf]
    dsimp only [ExtendReq.cell]
    rw [hj, if_neg (by omega), Nat.add_mul_div_right _ _ hps, Nat.add_sub_cancel, Nat.add_mul_mod_self_right]
  unfold ExtendReq.inParts ExtendReq.numPart1
  dsimp only
  rcases le_or_gt seq (pageCount ps pre * ps) with hsA | hsA
  · rw [min_eq_left hsA, if_pos (by omega), h₁ _ (by omega)]
  · have hdiv : pageCount ps pre ≤ seq / ps := (Nat.le_div_iff_mul_le hps).mpr hsA.le
    have hAB : pageCount ps pre * ps ≤ seq / ps * ps := Nat.mul_le_mul_right ps hdiv
    simp only [min_eq_right hsA.le, h₁ _ (Nat.add_sub_cancel' hA).le, h₂, map_range_add]
    rw [if_neg (by omega)]
    split
    · next hs => congr 2; omega
    · next hs =>
      have h₃ : ((range (seq - seq / ps * ps)).map fun i =>
          put (pageCount ps pre * ps - pre + (seq / ps * ps - pageCount ps pre * ps) + i)
            (new (ExtendReq.numNewPages ps ⟨pre, seq, lastLoc⟩ - 1) i)) =
          (range (seq - seq / ps * ps)).map fun i =>
            f (pageCount ps pre * ps - pre + (seq / ps * ps - pageCount ps pre * ps) + i) := by
        refine map_congr_left fun i hi => ?_
        have hi' : i < ps := by
          have := Nat.lt_div_mul_add (a := seq) hps
          rw [mem_range] at hi
          omega
        rw [Nat.add_assoc, ← h₂, ← Nat.sub_mul, Nat.add_comm _ i, Nat.add_mul_div_right _ _ hps,
          Nat.div_eq_of_lt hi', Nat.zero_add, Nat.add_mul_mod_self_right, Nat.mod_eq_of_lt hi',
          ExtendReq.numNewPages, pageCount_of_lt hps (by omega : seq / ps * ps < seq), Nat.succ_sub hdiv]
        rfl
      rw [h₃, map_range_add]
      congr 2
      omega

theorem extendProgram_eq (hps : 0 < ps) (hle : r.prefixLen ≤ r.seqLen) :
    extendProgram ps r pages = (range (r.seqLen - r.prefixLen)).map (extendSlot ps r pages) :=
  inParts_eq hps hle (fun _ v => v) (fun i => (r.lastLoc + 1 + i).toNat) fun q o => pages.getD q 0 * ps + o

/-- Inside a page the extension takes the slot behind the one before. -/
theorem extendSlot_succ (hps : 0 < ps) (hlast : r.prefixLen % ps ≠ 0 → 0 ≤ r.lastLoc)
    (hm : (r.prefixLen + (i + 1)) % ps ≠ 0) :
    extendSlot ps r pages (i + 1) = extendSlot ps r pages i + 1 := by
  obtain ⟨hdiv, hrem⟩ := succ_div_mod (m := r.prefixLen + i) hm
  unfold extendSlot
  by_cases hold : r.prefixLen + (i + 1) < pageCount ps r.prefixLen * ps
  · have hpart : r.prefixLen % ps ≠ 0 := fun h₀ => by
      have hdvd := Nat.dvd_of_mod_eq_zero h₀
      rw [pageCount_of_dvd hps hdvd, Nat.div_mul_cancel hdvd] at hold
      omega
    rw [if_pos hold, if_pos (by omega)]
    push_cast
    omega
  · have hne : r.prefixLen + (i + 1) ≠ pageCount ps r.prefixLen * ps := fun heq => hm (by
      rw [heq, Nat.mul_mod_left])
    rw [if_neg hold, if_neg (by omega), ← Nat.add_assoc, hdiv, hrem, Nat.add_assoc]

theorem length_extendProgram (hps : 0 < ps) (hle : r.prefixLen ≤ r.seqLen) :
    (extendProgram ps r pages).length = r.seqLen - r.prefixLen := by
  rw [extendProgram_eq hps hle, length_map, length_range]

/-- **The extension continues the layout.** Behind a prefix laid out on the pages `P`, with its last
slot as `lastLoc`, the new slots lie on `P` and on the new pages, in order. -/
theorem laid_extendProgram (hps : 0 < ps) (h : Laid ps vs P) (hpre : r.prefixLen = vs.length)
    (hle : r.prefixLen ≤ r.seqLen) (hlast : ∀ v, vs.getLast? = some v → r.lastLoc = v)
    (hnum : r.numNewPages ps ≤ pages.length) :
    Laid ps (vs ++ extendProgram ps r pages) (P ++ pages.take (r.numNewPages ps)) := by
  have hcount : P.length = pageCount ps r.prefixLen := by rw [hpre, h.count]
  have hlen : (vs ++ extendProgram ps r pages).length = r.seqLen := by
    rw [length_append, length_extendProgram hps hle]
    omega
  refine laid_of_getElem? hps ?_ fun j hj => ?_
  · have hmono : pageCount ps r.prefixLen ≤ pageCount ps r.seqLen := pageCount_mono hle
    rw [hlen, length_append, length_take, min_eq_left hnum, hcount, ExtendReq.numNewPages]
    omega
  · rw [hlen] at hj
    rcases lt_or_ge j vs.length with hjv | hjv
    · have hjP : j / ps < P.length := h.count ▸ div_lt_pageCount hps hjv
      rw [getElem?_append_left hjv, getElem?_append_left hjP, h.getElem? hps hjv]
    · -- position `j` is number `j - prefixLen` of the extension
      have hslot : (vs ++ extendProgram ps r pages)[j]? = some (extendSlot ps r pages (j - vs.length)) := by
        rw [getElem?_append_right hjv, extendProgram_eq hps hle, getElem?_map, getElem?_range (by omega)]
        rfl
      have hpos : r.prefixLen + (j - vs.length) = j := by omega
      rw [hslot, extendSlot, hpos]
      split
      · next hold =>
        -- the old partial page: `j` and the last slot of the prefix share it
        obtain ⟨m, hm⟩ : ∃ m, vs.length = m + 1 := by
          refine Nat.exists_eq_succ_of_ne_zero fun hz => ?_
          rw [hpre, hz, pageCount_zero hps, Nat.zero_mul] at hold
          exact Nat.not_lt_zero _ hold
        rw [hpre, hm, pageCount_succ hps] at hold
        have hdiv : j / ps = m / ps :=
          le_antisymm (Nat.lt_succ_iff.mp ((Nat.div_lt_iff_lt_mul hps).mpr hold))
            (Nat.div_le_div_right (by omega))
        have hjmod : j % ps = m % ps + (j - m) := by
          have hmod := Nat.div_add_mod m ps
          have hmod' := Nat.div_add_mod j ps
          rw [hdiv] at hmod'
          omega
        have hjP : m / ps < P.length := h.count ▸ div_lt_pageCount hps (by omega)
        have hget := h.getElem? hps (show m < vs.length by omega)
        rw [hdiv, getElem?_append_left hjP, getElem?_eq_getElem hjP, Option.map_some, hjmod]
        rw [getElem?_eq_getElem hjP, Option.map_some] at hget
        have hl : r.lastLoc = ((P[m / ps] * ps + m % ps : ℕ) : ℤ) :=
          hlast _ (by rw [getLast?_eq_getElem?, hm, Nat.add_sub_cancel, hget])
        rw [hl]
        congr 1
        omega
      · next hnew =>
        have hP : P.length ≤ j / ps := by
          rw [hcount]
          exact (Nat.le_div_iff_mul_le hps).mpr (by omega)
        have hidx : j / ps - pageCount ps r.prefixLen < r.numNewPages ps := by
          have := div_lt_pageCount hps hj
          rw [ExtendReq.numNewPages]
          omega
        rw [getElem?_append_right hP, hcount, getElem?_take_of_lt hidx,
          getElem?_eq_getElem (hidx.trans_le hnum), Option.map_some,
          getD_eq_getElem _ _ (hidx.trans_le hnum)]

/-- With pages of one slot the kernel copies free pages. -/
theorem extendProgram_one (hle : r.prefixLen ≤ r.seqLen) (hnum : r.numNewPages 1 ≤ pages.length) :
    extendProgram 1 r pages = pages.take (r.numNewPages 1) := by
  have hone : ∀ n, pageCount 1 n = n := fun n => by simp [pageCount]
  have hnew : r.numNewPages 1 = r.seqLen - r.prefixLen := by rw [ExtendReq.numNewPages, hone, hone]
  rw [hnew] at hnum ⊢
  rw [extendProgram_eq Nat.one_pos hle]
  refine ext_getElem (by simpa using hnum) fun i hi hi' => ?_
  rw [length_map, length_range] at hi
  simp only [getElem_map, getElem_range, getElem_take, extendSlot, hone, Nat.mul_one,
    Nat.div_one, Nat.mod_one, Nat.add_zero]
  rw [if_neg (by omega), Nat.add_sub_cancel_left, getD_eq_getElem _ _ (by omega)]

theorem allocExtendKernel_one {rs : List ExtendReq} (hle : ∀ r ∈ rs, r.prefixLen ≤ r.seqLen)
    (hnum : (rs.map (ExtendReq.numNewPages 1)).sum ≤ pages.length) :
    allocExtendKernel 1 rs pages = pages.take (rs.map (ExtendReq.numNewPages 1)).sum := by
  induction rs generalizing pages with
  | nil => rfl
  | cons r rs ih =>
    rw [map_cons, sum_cons] at hnum ⊢
    rw [allocExtendKernel, extendProgram_one (hle r mem_cons_self) (by omega),
      ih (fun r' hr' => hle r' (mem_cons_of_mem _ hr')) (by rw [length_drop]; omega), take_add]

end Extend

section Decode

variable {ps n : ℕ} {lastLoc : ℤ} {pages : List ℕ}

/-- A decode step as an extension by one token. -/
def decodeReq (r : ℕ × ℤ) : ExtendReq := ⟨r.1 - 1, r.1, r.2⟩

theorem numNewPages_decodeReq (hps : 1 < ps) (hn : 0 < n) :
    (decodeReq (n, lastLoc)).numNewPages ps = if n % ps = 1 then 1 else 0 := by
  have hp : 0 < ps := by omega
  have hdm := Nat.div_add_mod (n - 1) ps
  have hup : pageCount ps n = (n - 1) / ps + 1 := by
    rw [← pageCount_succ hp, Nat.sub_add_cancel hn]
  simp only [decodeReq, ExtendReq.numNewPages, hup]
  rcases Nat.eq_zero_or_pos ((n - 1) % ps) with hz | hpos
  · have hd : ps ∣ n - 1 := Nat.dvd_of_mod_eq_zero hz
    have hmod : n % ps = 1 := by
      obtain ⟨q, hq⟩ := hd
      rw [show n = 1 + ps * q by omega, Nat.add_mul_mod_self_left, Nat.mod_eq_of_lt hps]
    rw [pageCount_of_dvd hp hd, if_pos hmod]
    omega
  · have hmod : n % ps ≠ 1 := by
      intro h1
      have := Nat.div_add_mod n ps
      have hd : n - 1 = ps * (n / ps) := by omega
      rw [hd, Nat.mul_mod_right] at hpos
      exact lt_irrefl _ hpos
    have hdown : pageCount ps (n - 1) = (n - 1) / ps + 1 := pageCount_of_lt hp (by
      rw [mul_comm]
      omega)
    rw [hdown, if_neg hmod, Nat.sub_self]

/-- A decode program writes what the extension by one token writes. -/
theorem decodeProgram_eq (hps : 0 < ps) (hn : 0 < n) :
    [decodeProgram ps n lastLoc pages] = extendProgram ps (decodeReq (n, lastLoc)) pages := by
  have hone : n - (n - 1) = 1 := by omega
  rw [extendProgram_eq hps (Nat.sub_le n 1), decodeProgram]
  simp only [decodeReq, hone, range_one, map_cons, map_nil, extendSlot, Nat.add_zero]
  congr 1
  have hiff : n - 1 < pageCount ps (n - 1) * ps ↔ pageCount ps n - pageCount ps (n - 1) = 0 := by
    rw [Nat.sub_eq_zero_iff_le]
    constructor
    · intro h
      by_contra hgt
      have := (lt_pageCount_iff hps).mp (not_le.mp hgt)
      omega
    · intro h
      have := le_pageCount_mul (n := n) hps
      have := Nat.mul_le_mul_right ps h
      omega
  simp only [hiff]
  split
  · simp
  · next hne =>
    -- the position starts a page
    have hge : pageCount ps (n - 1) * ps ≤ n - 1 := not_lt.mp fun h => hne (hiff.mp h)
    have heq : n - 1 = pageCount ps (n - 1) * ps := le_antisymm (le_pageCount_mul hps) hge
    rw [show (n - 1) / ps = pageCount ps (n - 1) by
      conv_lhs => rw [heq]
      exact Nat.mul_div_cancel _ hps]
    rw [show (n - 1) % ps = 0 by
      rw [heq]
      exact Nat.mul_mod_left _ _]
    simp

theorem allocDecodeKernel_eq (hps : 0 < ps) {rs : List (ℕ × ℤ)} (hpos : ∀ r ∈ rs, 0 < r.1) :
    allocDecodeKernel ps rs pages = allocExtendKernel ps (rs.map decodeReq) pages := by
  induction rs generalizing pages with
  | nil => rfl
  | cons r rs ih =>
    obtain ⟨n, lastLoc⟩ := r
    rw [map_cons, allocExtendKernel, ← decodeProgram_eq hps (hpos _ mem_cons_self),
      allocDecodeKernel, ih fun r hr => hpos r (mem_cons_of_mem _ hr)]
    rfl

theorem countP_decode (hps : 1 < ps) {rs : List (ℕ × ℤ)} (hpos : ∀ r ∈ rs, 0 < r.1) :
    (rs.countP fun r => r.1 % ps = 1) = ((rs.map decodeReq).map (ExtendReq.numNewPages ps)).sum := by
  induction rs with
  | nil => rfl
  | cons r rs ih =>
    obtain ⟨n, lastLoc⟩ := r
    rw [map_cons, map_cons, sum_cons, numNewPages_decodeReq hps (hpos _ mem_cons_self), countP_cons,
      ih fun r hr => hpos r (mem_cons_of_mem _ hr), Nat.add_comm]
    simp

end Decode

/-! ## Pages in, pages out -/

namespace Allocator

variable {a a' : Allocator} {n : ℕ} {out vs P : List ℕ}

/-- Without sorting, freed pages are free at once. -/
def Released (a : Allocator) : Prop := a.needSort = false → a.releasePages = []

/-- An allocator with pages of `ps` slots, outside of a free group. -/
structure Settled (ps : ℕ) (a : Allocator) : Prop where
  pageSize_eq : a.pageSize = ps
  no_group : a.isNotInFreeGroup = true
  released : a.Released

/-- The settings stay. -/
structure SameSettings (a a' : Allocator) : Prop where
  pageSize_eq : a'.pageSize = a.pageSize
  group_eq : a'.isNotInFreeGroup = a.isNotInFreeGroup
  released : a.Released → a'.Released

theorem SameSettings.refl (a : Allocator) : SameSettings a a := ⟨rfl, rfl, id⟩

theorem SameSettings.trans {a₂ : Allocator} (h : SameSettings a a') (h' : SameSettings a' a₂) :
    SameSettings a a₂ :=
  ⟨h'.1.trans h.1, h'.2.trans h.2, h'.3 ∘ h.3⟩

theorem Settled.same {ps : ℕ} (h : a.Settled ps) (hs : SameSettings a a') : a'.Settled ps :=
  ⟨hs.1.trans h.1, hs.2.trans h.2, hs.3 h.3⟩

/-- `a'` is `a` without the first `n` pages of `F`, the free list it took them from. -/
structure Takes (a a' : Allocator) (n : ℕ) (F : List ℕ) : Prop where
  le : n ≤ F.length
  pages_eq : a.pages = (F.take n : Multiset ℕ) + a'.pages
  same : SameSettings a a'

theorem pages_mergeIfShort : (a.mergeIfShort n).pages = a.pages := by
  unfold mergeIfShort mergeAndSortFree pages
  split
  · split
    · simp only [Multiset.coe_nil, add_zero, Multiset.coe_add, Multiset.coe_eq_coe]
      exact perm_insertionSort _ _
    · rfl
  · rfl

theorem same_mergeIfShort : SameSettings a (a.mergeIfShort n) := by
  unfold mergeIfShort mergeAndSortFree
  split
  · split
    · exact ⟨rfl, rfl, fun _ _ => rfl⟩
    · exact .refl a
  · exact .refl a

@[simp] theorem pageSize_mergeIfShort : (a.mergeIfShort n).pageSize = a.pageSize := same_mergeIfShort.1

/-- Cutting the free list takes its first pages. -/
theorem takes_drop {k m : ℕ} (h : ¬ (a.mergeIfShort k).freePages.length < n) (hm : m = n) :
    Takes a { a.mergeIfShort k with freePages := (a.mergeIfShort k).freePages.drop n } m
      (a.mergeIfShort k).freePages := by
  subst hm
  refine ⟨not_lt.mp h, ?_, { same_mergeIfShort with }⟩
  rw [← pages_mergeIfShort (n := k)]
  simp only [pages, ← add_assoc]
  rw [Multiset.coe_add (take m _), take_append_drop]

theorem alloc_spec (h : a.alloc n = (a', some out)) : ∃ F, Takes a a' n F ∧ out = F.take n := by
  simp only [alloc] at h
  split at h
  · cases h
  · next hle =>
    cases h
    exact ⟨_, takes_drop hle rfl, rfl⟩

theorem allocExtend_spec {rs : List ExtendReq} {m : ℕ} (h : a.allocExtend rs m = (a', some out)) :
    ∃ F, Takes a a' (rs.map (ExtendReq.numNewPages a.pageSize)).sum F ∧
      out = allocExtendKernel a.pageSize rs F := by
  simp only [allocExtend] at h
  split at h
  · cases h
  · next hle =>
    cases h
    exact ⟨_, takes_drop hle (by rw [pageSize_mergeIfShort]), by rw [pageSize_mergeIfShort]⟩

theorem allocDecode_spec {rs : List (ℕ × ℤ)} (hps : 1 < a.pageSize) (hpos : ∀ r ∈ rs, 0 < r.1)
    (h : a.allocDecode rs = (a', some out)) :
    ∃ F, Takes a a' ((rs.map decodeReq).map (ExtendReq.numNewPages a.pageSize)).sum F ∧
      out = allocExtendKernel a.pageSize (rs.map decodeReq) F := by
  simp only [allocDecode] at h
  split at h
  · cases h
  · next hle =>
    cases h
    refine ⟨_, takes_drop hle ?_, by rw [pageSize_mergeIfShort, allocDecodeKernel_eq (by omega) hpos]⟩
    rw [← countP_decode hps hpos, pageSize_mergeIfShort]

theorem coe_unique (l : List ℕ) : ((unique l : List ℕ) : Multiset ℕ) = l.toFinset.val := by
  rw [unique, toFinset_val, Multiset.coe_eq_coe]
  exact perm_insertionSort _ _

theorem same_free : SameSettings a (a.free vs) := by
  unfold free
  repeat' split
  all_goals exact ⟨rfl, rfl, by simp_all [Released]⟩

/-- What `free` gives back: the slots themselves, or each page that one of them is on. -/
theorem pages_free_eq (hgroup : a.isNotInFreeGroup = true) : (a.free vs).pages =
    (if a.pageSize = 1 then vs else unique (vs.map (· / a.pageSize)) : List ℕ) + a.pages := by
  unfold free
  split
  · next hnil => split <;> simp [hnil, unique]
  · split <;> split
    all_goals
      simp only [pages, ← Multiset.coe_add]
      abel

/-- **Slots laid out on distinct pages come back as those pages.** -/
theorem pages_free {ps : ℕ} (ha : a.Settled ps) (hps : 0 < ps) (h : Laid ps vs P) (hP : P.Nodup) :
    (a.free vs).pages = P + a.pages := by
  obtain rfl := ha.pageSize_eq
  rw [pages_free_eq ha.no_group]
  split
  · next hone =>
    -- with pages of one slot a layout is its list of pages
    have hvs : vs = P := by
      have := h.eq_expand hps (hone ▸ one_dvd _)
      rw [this, hone]
      simp [expand]
    rw [hvs]
  · rw [coe_unique, show (vs.map (· / a.pageSize)).toFinset = P.toFinset from h.touched hps,
      toFinset_val, dedup_eq_self.mpr hP]

theorem pages_le_free (hgroup : a.isNotInFreeGroup = true) : a.pages ≤ (a.free vs).pages := by
  rw [pages_free_eq hgroup]
  exact le_add_of_nonneg_left (Multiset.zero_le _)

/-- The page of a slot that is freed is in the pool. -/
theorem mem_pages_free {slot : ℕ} (hgroup : a.isNotInFreeGroup = true) (h : slot ∈ vs) :
    slot / a.pageSize ∈ (a.free vs).pages := by
  rw [pages_free_eq hgroup]
  apply Multiset.mem_add.mpr
  left
  split
  · next hone => rwa [hone, Nat.div_one]
  · rw [coe_unique]
    exact mem_toFinset.mpr (mem_map_of_mem h)

end Allocator

end SGLang.MemCache
