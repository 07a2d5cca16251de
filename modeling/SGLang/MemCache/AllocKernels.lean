/-
# SGLang.MemCache.AllocKernels — `alloc_extend`, lane by lane.

`alloc_extend_kernel` runs one program per request; each finds its part of `out_indices` and of the free
pages by reductions over masked lanes, and fills it by masked stores and a blocked loop.
`alloc_extend_naive` walks over the requests with cumulative sums and slice assignments. Both are
modelled as the stores they make. Body by body they make the same stores (`naiveBody_eq`), the programs own
consecutive parts of the array (`map_fst_extendKernel`), and so neither the order of the programs nor the
choice between the two functions matters.

On the host side the same layout is read off `Allocator.allocExtend`, which the kernel refines
(`values_extendKernel`).
-/
import SGLang.Lib.Stores
import SGLang.MemCache.KVRoom

namespace SGLang.MemCache

open SGLang.Lib List Nat ExtendReq
open Allocator (allocExtendKernel extendProgram)
open Function (comp_def)
open Option (bind_some getD_some map_some)

/-- What a masked-out lane holds. -/
def ExtendReq.masked : ExtendReq := ⟨0, 0, 0⟩

/-- `extend_lens`. -/
def ExtendReq.extendLen (r : ExtendReq) : ℕ := r.seqLen - r.prefixLen

/-! ## The kernel -/

/-- `tl.store` of `width` lanes, the first `active` of them unmasked. -/
def maskedStore (width active start : ℕ) (value : ℕ → ℤ) : List (ℕ × ℤ) :=
  ((List.range width).filter (· < active)).map fun o => (start + o, value o)

/-- `BLOCK_EXTEND`. -/
def blockExtend : ℕ := 4096

/-- The three parts of `alloc_extend_kernel`. -/
def extendKernelBody (ps : ℕ) (r : ExtendReq) (freePages : List ℕ)
    (outputStartLoc newPageStartLoc : ℕ) : List (ℕ × ℤ) :=
  let numPart1 := r.numPart1 ps
  let part1 := maskedStore ps numPart1 outputStartLoc fun o => r.lastLoc + 1 + o
  if r.prefixLen + numPart1 = r.seqLen then part1
  else
    let numPart2 := r.seqLen / ps * ps - pageCount ps r.prefixLen * ps
    let numBlocks := (numPart2 + blockExtend - 1) / blockExtend
    let part2 := (List.range numBlocks).flatMap fun blockId =>
      (((List.range blockExtend).map (blockId * blockExtend + ·)).filter (· < numPart2)).map fun offset =>
        (outputStartLoc + numPart1 + offset,
          ((freePages.getD (newPageStartLoc + offset / ps) 0 * ps + offset % ps : ℕ) : ℤ))
    if r.prefixLen + numPart1 + numPart2 = r.seqLen then part1 ++ part2
    else
      let numPart3 := r.seqLen - r.seqLen / ps * ps
      let startLoc := freePages.getD (newPageStartLoc + r.numNewPages ps - 1) 0
      part1 ++ part2 ++ maskedStore ps numPart3 (outputStartLoc + numPart1 + numPart2) fun o =>
        ((startLoc * ps + o : ℕ) : ℤ)

/-- The lanes program `pid` loads: the requests up to its own. -/
def lanes (bsUpper : ℕ) (rs : List ExtendReq) (pid : ℕ) : List ExtendReq :=
  (List.range bsUpper).map fun o => if o ≤ pid then rs.getD o .masked else .masked

/-- Program `pid` of `alloc_extend_kernel`. -/
def extendKernel (ps bsUpper : ℕ) (rs : List ExtendReq) (freePages : List ℕ) (pid : ℕ) : List (ℕ × ℤ) :=
  let r := rs.getD pid .masked
  let sumExtendLens := ((lanes bsUpper rs pid).map ExtendReq.extendLen).sum
  let sumNumNewPages := ((lanes bsUpper rs pid).map (numNewPages ps)).sum
  extendKernelBody ps r freePages (sumExtendLens - r.extendLen) (sumNumNewPages - r.numNewPages ps)

/-! ## `alloc_extend_naive` -/

/-- `out_indices[start:stop] = values`; torch raises if the lengths differ. -/
def assignSlice (start stop : ℕ) (values : List ℤ) : Option (List (ℕ × ℤ)) :=
  if values.length = stop - start then some (values.mapIdx fun i v => (start + i, v)) else none

/-- `if num: out_indices[start:stop] = values`; `values` is none if computing it raises. -/
def assignPart (num start stop : ℕ) (values : Option (List ℤ)) : Option (List (ℕ × ℤ)) :=
  if num ≠ 0 then values.bind (assignSlice start stop) else some []

/-- One round of the loop. `num_full_new_pages` is read only where it is not negative. -/
def naiveBody (ps : ℕ) (r : ExtendReq) (freePages : List ℕ)
    (startPos endPos startNewPages endNewPages : ℕ) : Option (List (ℕ × ℤ)) := do
  let posInPage := List.range ps
  let numFullNewPages := r.seqLen / ps - pageCount ps r.prefixLen
  let needPage := r.numNewPages ps - numFullNewPages
  let num1 := r.numPart1 ps
  let part1 ← assignPart num1 startPos (startPos + num1)
    (some ((posInPage.take num1).map fun o : ℕ => r.lastLoc + 1 + o))
  if r.prefixLen + num1 = r.seqLen then some part1
  else
    let num2 := (r.seqLen / ps - pageCount ps r.prefixLen) * ps
    let pages := (freePages.take (endNewPages - needPage)).drop startNewPages
    let part2 ← assignPart num2 (startPos + num1) (startPos + num1 + num2)
      (some ((expand ps pages).map (↑)))
    if r.prefixLen + num1 + num2 = r.seqLen then some (part1 ++ part2)
    else
      let num3 := r.seqLen - r.seqLen / ps * ps
      let part3 ← assignPart num3 (endPos - num3) endPos (freePages[endNewPages - 1]?.map fun page =>
        (posInPage.take num3).map fun o => ((page * ps + o : ℕ) : ℤ))
      some (part1 ++ part2 ++ part3)

/-- `torch.cumsum` of a quantity of the requests, at request `i`. -/
def cumsum (f : ExtendReq → ℕ) (rs : List ExtendReq) (i : ℕ) : ℕ := ((rs.take (i + 1)).map f).sum

/-- Round `i` of `alloc_extend_naive`. -/
def naiveRound (ps : ℕ) (rs : List ExtendReq) (freePages : List ℕ) (i : ℕ) : Option (List (ℕ × ℤ)) :=
  let r := rs.getD i .masked
  let endPos := cumsum ExtendReq.extendLen rs i
  let endNewPages := cumsum (numNewPages ps) rs i
  naiveBody ps r freePages (endPos - r.extendLen) endPos (endNewPages - r.numNewPages ps) endNewPages

/-- `alloc_extend_naive`. -/
def allocExtendNaive (ps : ℕ) (rs : List ExtendReq) (freePages : List ℕ) : Option (List (ℕ × ℤ)) :=
  ((List.range rs.length).mapM (naiveRound ps rs freePages)).map List.flatten

/-! ## One request -/

section Body

variable {ps : ℕ} {r : ExtendReq} {freePages : List ℕ} {start pageStart : ℕ}

theorem maskedStore_eq {width active : ℕ} {value : ℕ → ℤ} (h : active ≤ width) :
    maskedStore width active start value = (range active).map fun o => (start + o, value o) := by
  rw [maskedStore, filter_lt_range h]

/-- The blocked loop stores at every offset once, in order. -/
theorem blocks_eq {n : ℕ} (f : ℕ → ℕ × ℤ) : ((range ((n + blockExtend - 1) / blockExtend)).flatMap fun b =>
      (((range blockExtend).map (b * blockExtend + ·)).filter (· < n)).map f) = (range n).map f := by
  have hblock : 0 < blockExtend := by decide
  rw [← map_flatMap, ← filter_flatMap, flatMap_blocks]
  congr 1
  exact filter_lt_range (le_pageCount_mul hblock)

/-- A slice assignment that is skipped when it is empty. -/
theorem assignPart_range (start n : ℕ) (f : ℕ → ℤ) :
    assignPart n start (start + n) (some ((range n).map f)) =
      some ((range n).map fun o => (start + o, f o)) := by
  unfold assignPart
  split
  · have hidx : ((range n).map f).mapIdx (fun i v => (start + i, v)) =
        (range n).map fun o => (start + o, f o) := by
      apply ext_getElem <;> simp
    rw [bind_some, assignSlice, if_pos (by simp), hidx]
  · next h =>
    obtain rfl : n = 0 := by omega
    rfl

variable (hps : 0 < ps)

include hps

/-- What does not fill a page is less than one. -/
theorem tail_le {n : ℕ} : n - n / ps * ps ≤ ps := by
  have hmod := div_add_mod' n ps
  have hlt := mod_lt n hps
  omega

theorem numPart1_le : r.numPart1 ps ≤ ps := by
  have h : pageCount ps r.prefixLen * ps ≤ r.prefixLen + ps - 1 := div_mul_le_self _ ps
  unfold numPart1
  omega

/-- The slots of pages that are free, read off the free list. -/
theorem map_expand_slice {n : ℕ} (hn : pageStart + n ≤ freePages.length) :
    (expand ps ((freePages.take (pageStart + n)).drop pageStart)).map ((↑) : ℕ → ℤ) =
      (range (n * ps)).map fun o =>
        ((freePages.getD (pageStart + o / ps) 0 * ps + o % ps : ℕ) : ℤ) := by
  refine ext_getElem? fun j => ?_
  rw [getElem?_map, getElem?_expand hps, getElem?_drop, getElem?_map]
  rcases lt_or_ge j (n * ps) with hj | hj
  · have hdiv : j / ps < n := (div_lt_iff_lt_mul hps).mpr hj
    rw [getElem?_take_of_lt (by omega), getElem?_range hj, getElem?_eq_getElem (by omega),
      map_some, map_some, map_some, getD_eq_getElem?_getD,
      getElem?_eq_getElem (by omega), getD_some]
  · have hdiv : n ≤ j / ps := (le_div_iff_mul_le hps).mpr hj
    rw [getElem?_eq_none (by simp; omega), getElem?_eq_none (by simpa)]
    rfl

variable (hle : r.prefixLen ≤ r.seqLen)

include hle

/-- The last page is a new one if it is not full. -/
theorem numNewPages_pos
    (hrest : r.prefixLen + r.numPart1 ps + (r.seqLen / ps * ps - pageCount ps r.prefixLen * ps) ≠ r.seqLen) :
    0 < r.numNewPages ps := by
  have hA : r.prefixLen ≤ pageCount ps r.prefixLen * ps := le_pageCount_mul hps
  have hB := div_mul_le_self r.seqLen ps
  unfold numPart1 at hrest
  have hdiv : pageCount ps r.prefixLen ≤ r.seqLen / ps := (le_div_iff_mul_le hps).mpr (by omega)
  unfold numNewPages
  rw [pageCount_of_lt hps (by omega : r.seqLen / ps * ps < r.seqLen)]
  omega

/-- **Body by body the two functions make the same stores.** -/
theorem naiveBody_eq (hpages : pageStart + r.numNewPages ps ≤ freePages.length) :
    naiveBody ps r freePages start (start + r.extendLen) pageStart (pageStart + r.numNewPages ps) =
      some (extendKernelBody ps r freePages start pageStart) := by
  have hA : r.prefixLen ≤ pageCount ps r.prefixLen * ps := le_pageCount_mul hps
  have hone := numPart1_le (r := r) hps
  have hpart1 := assignPart_range start (r.numPart1 ps) fun o => r.lastLoc + 1 + o
  unfold naiveBody extendKernelBody
  dsimp only
  rw [take_range, min_eq_left hone, hpart1, Option.bind_eq_bind, bind_some, maskedStore_eq hone]
  split
  · rfl
  · next hmore =>
    -- the old page is full, so the rest begins on a new page
    have hfull : pageCount ps r.prefixLen * ps ≤ r.seqLen := by
      by_contra hlt
      rw [numPart1, min_eq_left (by omega)] at hmore
      omega
    have hdiv : pageCount ps r.prefixLen ≤ r.seqLen / ps := (le_div_iff_mul_le hps).mpr hfull
    have hnum2 : (r.seqLen / ps - pageCount ps r.prefixLen) * ps =
        r.seqLen / ps * ps - pageCount ps r.prefixLen * ps := Nat.sub_mul _ _ _
    have hfloor : r.seqLen / ps ≤ pageCount ps r.seqLen := Nat.div_le_div_right (by omega)
    have hslice : pageStart + r.numNewPages ps -
        (r.numNewPages ps - (r.seqLen / ps - pageCount ps r.prefixLen)) =
        pageStart + (r.seqLen / ps - pageCount ps r.prefixLen) := by
      unfold numNewPages
      omega
    have hroom : pageStart + (r.seqLen / ps - pageCount ps r.prefixLen) ≤ freePages.length := by
      omega
    rw [hslice, map_expand_slice hps hroom, assignPart_range, bind_some, blocks_eq, ← hnum2]
    split
    · rfl
    · next hrest =>
      have hthree := tail_le (n := r.seqLen) hps
      have hmod := div_mul_le_self r.seqLen ps
      have hlast : pageStart + r.numNewPages ps - 1 < freePages.length := by
        have hself : 0 < r.numNewPages ps := numNewPages_pos hps hle (hnum2 ▸ hrest)
        omega
      have hAB := mul_le_mul_right ps hdiv
      have hstart : start + r.extendLen - (r.seqLen - r.seqLen / ps * ps) =
          start + r.numPart1 ps + (r.seqLen / ps - pageCount ps r.prefixLen) * ps := by
        rw [hnum2, numPart1, min_eq_right hfull, extendLen]
        omega
      have hstop : start + r.extendLen = start + r.numPart1 ps +
          (r.seqLen / ps - pageCount ps r.prefixLen) * ps + (r.seqLen - r.seqLen / ps * ps) := by
        rw [← hstart, extendLen]
        omega
      rw [getElem?_eq_getElem hlast,
        take_range, min_eq_left hthree, hstart, map_some]
      rw [hstop, assignPart_range, bind_some, maskedStore_eq hthree,
        getD_eq_getElem?_getD, getElem?_eq_getElem hlast, getD_some]

/-- A program writes its part of the array, position by position. -/
theorem extendKernelBody_eq :
    extendKernelBody ps r freePages start pageStart = (range r.extendLen).map fun i =>
      (start + i, r.cell ps (fun o => r.lastLoc + 1 + o)
        (fun q o => ((freePages.getD (pageStart + q) 0 * ps + o : ℕ) : ℤ)) i) := by
  refine .trans ?_ (inParts_eq hps hle (fun i v => (start + i, v)) _ _)
  unfold extendKernelBody inParts
  dsimp only
  rw [maskedStore_eq (numPart1_le hps), maskedStore_eq (tail_le hps), blocks_eq]
  simp only [add_assoc start]
  split
  · rfl
  · split
    · rfl
    · next hrest => rw [Nat.add_sub_assoc (numNewPages_pos hps hle hrest)]

theorem map_fst_extendKernelBody :
    (extendKernelBody ps r freePages start pageStart).map Prod.fst = (range r.extendLen).map (start + ·) := by
  rw [extendKernelBody_eq hps hle, map_map]
  rfl

/-- The values are those of the program of `Allocator.allocExtendKernel`. -/
theorem values_extendKernelBody :
    (extendKernelBody ps r freePages start pageStart).map (fun s => s.2.toNat) =
      extendProgram ps r (freePages.drop pageStart) := by
  rw [extendKernelBody_eq hps hle, map_map, extendProgram_eq hps hle]
  refine map_congr_left fun i _ => ?_
  simp only [comp_def, cell, extendSlot]
  split
  · rfl
  · rw [Int.toNat_natCast]
    simp [getD_eq_getElem?_getD]

end Body

/-! ## A batch -/

section Batch

variable {ps bsUpper i : ℕ} {rs : List ExtendReq} {freePages : List ℕ} {f : ExtendReq → ℕ}

section

variable (hi : i < rs.length)

include hi

theorem cumsum_eq : cumsum f rs i = ((rs.take i).map f).sum + f (rs.getD i .masked) := by
  rw [cumsum, take_add_one, map_append, sum_append_nat, getD_eq_getElem?_getD, getElem?_eq_getElem hi]
  simp

theorem getD_mem : rs.getD i .masked ∈ rs := by
  rw [getD_eq_getElem?_getD, getElem?_eq_getElem hi]
  exact getElem_mem hi

variable (hbs : rs.length ≤ bsUpper)

include hbs

theorem lanes_eq : lanes bsUpper rs i = rs.take (i + 1) ++ replicate (bsUpper - (i + 1)) .masked := by
  refine ext_getElem? fun o => ?_
  rw [lanes, getElem?_map]
  rcases lt_or_ge o (i + 1) with ho | ho
  · rw [getElem?_append_left (by simp; omega), getElem?_take_of_lt ho,
      getElem?_range (by omega), map_some, if_pos (by omega), getD_eq_getElem?_getD,
      getElem?_eq_getElem (by omega), getD_some]
  · have hlen : (rs.take (i + 1)).length = i + 1 := by simp; omega
    rw [getElem?_append_right (by omega), hlen, getElem?_replicate]
    rcases lt_or_ge o bsUpper with hlt | hge
    · rw [getElem?_range hlt, map_some, if_neg (by omega), if_pos (by omega)]
    · rw [getElem?_eq_none (by simpa), if_neg (by omega)]
      rfl

/-- The reductions over masked lanes are the cumulative sums. -/
theorem sum_lanes (hf : f .masked = 0) : ((lanes bsUpper rs i).map f).sum = cumsum f rs i := by
  simp [lanes_eq hi hbs, hf, cumsum]

theorem extendKernel_eq :
    extendKernel ps bsUpper rs freePages i = extendKernelBody ps (rs.getD i .masked) freePages
      ((rs.take i).map extendLen).sum ((rs.take i).map (numNewPages ps)).sum := by
  have hpages : numNewPages ps .masked = 0 := Nat.sub_self _
  unfold extendKernel
  dsimp only
  rw [sum_lanes hi hbs rfl, sum_lanes hi hbs hpages, cumsum_eq hi, cumsum_eq hi, Nat.add_sub_cancel,
    Nat.add_sub_cancel]

end

/-- The programs together write every position once. -/
theorem map_fst_extendKernel (hps : 0 < ps) (hle : ∀ r ∈ rs, r.prefixLen ≤ r.seqLen)
    (hbs : rs.length ≤ bsUpper) :
    ((range rs.length).flatMap (extendKernel ps bsUpper rs freePages)).map Prod.fst =
      range (rs.map extendLen).sum := by
  rw [map_flatMap, ← flatMap_parts extendLen rs .masked]
  refine flatMap_congr fun i hi => ?_
  have hi := mem_range.mp hi
  rw [extendKernel_eq hi hbs, map_fst_extendKernelBody hps (hle _ (getD_mem hi))]

/-- `alloc_extend_naive` makes the stores of the programs in the order of the requests. -/
theorem allocExtendNaive_eq (hps : 0 < ps) (hle : ∀ r ∈ rs, r.prefixLen ≤ r.seqLen)
    (hbs : rs.length ≤ bsUpper) (hpages : (rs.map (numNewPages ps)).sum ≤ freePages.length) :
    allocExtendNaive ps rs freePages =
      some ((range rs.length).flatMap (extendKernel ps bsUpper rs freePages)) := by
  have hround : ∀ i ∈ range rs.length,
      naiveRound ps rs freePages i = some (extendKernel ps bsUpper rs freePages i) := by
    intro i hi
    have hi := mem_range.mp hi
    have hsum : cumsum (numNewPages ps) rs i ≤ (rs.map (numNewPages ps)).sum := by
      rw [cumsum, map_take]
      exact (take_sublist _ _).sum_le_sum fun _ _ => zero_le _
    unfold naiveRound
    dsimp only
    rw [extendKernel_eq hi hbs, cumsum_eq hi, cumsum_eq hi, Nat.add_sub_cancel, Nat.add_sub_cancel]
    apply naiveBody_eq hps (hle _ (getD_mem hi))
    rw [← cumsum_eq hi]
    exact hsum.trans hpages
  rw [allocExtendNaive, mapM_eq_map hround, map_some, flatMap]

/-- **The array does not depend on which function writes it.** With enough free pages,
`alloc_extend_naive` raises nothing and leaves the array that the programs of `alloc_extend_kernel` leave,
run once each in any order; both write every position of `out_indices` exactly once. -/
theorem naive_writes_kernel_array (hps : 1 ≤ ps) (hle : ∀ r ∈ rs, r.prefixLen ≤ r.seqLen)
    (hbs : rs.length ≤ bsUpper) (hpages : (rs.map (numNewPages ps)).sum ≤ freePages.length)
    {order : List ℕ} (horder : order.Perm (List.range rs.length)) {out : List ℤ}
    (hout : out.length = (rs.map ExtendReq.extendLen).sum) :
    ∃ stores, allocExtendNaive ps rs freePages = some stores ∧
      run stores out = run (order.flatMap (extendKernel ps bsUpper rs freePages)) out ∧
      (stores.map Prod.fst).Perm (List.range out.length) ∧
      ((order.flatMap (extendKernel ps bsUpper rs freePages)).map Prod.fst).Perm (List.range out.length) := by
  have hperm := horder.flatMap_right (extendKernel ps bsUpper rs freePages)
  have hfst : ((range rs.length).flatMap (extendKernel ps bsUpper rs freePages)).map Prod.fst = _ :=
    map_fst_extendKernel hps hle hbs
  refine ⟨_, allocExtendNaive_eq hps hle hbs hpages, run_perm hperm.symm ?_ out, ?_, ?_⟩
  · rw [hfst]
    exact nodup_range
  · rw [hfst, hout]
  · rw [hout, ← hfst]
    exact hperm.map _

/-- Pages of two slots: the first request fills its page and takes a new one, the second does not grow,
the third starts a page. The programs run in another order. -/
theorem naive_writes_kernel_array_of_three :
    allocExtendNaive 2 [⟨1, 4, 6⟩, ⟨2, 2, 9⟩, ⟨0, 1, -1⟩] [5, 3] = some [(0, 7), (1, 10), (2, 11), (3, 6)] ∧
    run ([2, 0, 1].flatMap (extendKernel 2 4 [⟨1, 4, 6⟩, ⟨2, 2, 9⟩, ⟨0, 1, -1⟩] [5, 3])) [0, 0, 0, 0] =
      [7, 10, 11, 6] := by
  have hnaive : allocExtendNaive 2 [⟨1, 4, 6⟩, ⟨2, 2, 9⟩, ⟨0, 1, -1⟩] [5, 3] =
      some [(0, 7), (1, 10), (2, 11), (3, 6)] := by decide
  obtain ⟨stores, h, hrun, -⟩ := @naive_writes_kernel_array 2 4 [⟨1, 4, 6⟩, ⟨2, 2, 9⟩, ⟨0, 1, -1⟩] [5, 3]
    (by decide) (by decide) (by decide) (by decide) [2, 0, 1] (by decide) [0, 0, 0, 0] (by decide)
  obtain rfl : _ = stores := Option.some.inj (hnaive.symm.trans h)
  exact ⟨hnaive, hrun.symm.trans (by decide)⟩

/-- Request by request, each from the free pages behind those before it. -/
theorem allocExtendKernel_eq : allocExtendKernel ps rs freePages =
    (range rs.length).flatMap fun i => extendProgram ps (rs.getD i .masked)
      (freePages.drop ((rs.take i).map (numNewPages ps)).sum) := by
  induction rs generalizing freePages with
  | nil => rfl
  | cons r rs ih =>
    rw [allocExtendKernel, ih, length_cons, range_succ_eq_map, flatMap_cons, flatMap_map]
    simp [drop_drop]

/-- The kernel, lane by lane, returns what `Allocator.allocExtendKernel` says. -/
theorem values_extendKernel (hps : 0 < ps) (hle : ∀ r ∈ rs, r.prefixLen ≤ r.seqLen)
    (hbs : rs.length ≤ bsUpper) :
    ((range rs.length).flatMap (extendKernel ps bsUpper rs freePages)).map (fun s => s.2.toNat) =
      allocExtendKernel ps rs freePages := by
  rw [map_flatMap, allocExtendKernel_eq]
  refine flatMap_congr fun i hi => ?_
  have hi := mem_range.mp hi
  rw [extendKernel_eq hi hbs, values_extendKernelBody hps (hle _ (getD_mem hi))]

/-- A request on a partial page, one without new tokens, and a new one. -/
theorem values_extendKernel_of_three :
    ((range 3).flatMap (extendKernel 2 4 [⟨1, 4, 6⟩, ⟨2, 2, 9⟩, ⟨0, 1, -1⟩] [5, 3])).map
    (fun s => s.2.toNat) = allocExtendKernel 2 [⟨1, 4, 6⟩, ⟨2, 2, 9⟩, ⟨0, 1, -1⟩] [5, 3] :=
  values_extendKernel (by decide) (by decide) (by decide)

end Batch

/-! ## Layout -/

/-- How the slots of one request lie: `pages` are its new pages, `slots` its new slots, those of the
positions `prefixLen + i`. -/
structure Placed (ps : ℕ) (r : ExtendReq) (pages slots : List ℕ) : Prop where
  count_pages : pages.length = r.numNewPages ps
  count_slots : slots.length = r.extendLen
  congruent : ∀ i < r.extendLen, slots.getD i 0 % ps = (r.prefixLen + i) % ps
  consecutive : ∀ i, i + 1 < r.extendLen → (r.prefixLen + i + 1) % ps ≠ 0 →
    slots.getD (i + 1) 0 = slots.getD i 0 + 1
  continues : ∀ i < r.extendLen, r.prefixLen + i < pageCount ps r.prefixLen * ps →
    (slots.getD i 0 : ℤ) = r.lastLoc + 1 + i
  on_new : ∀ i < r.extendLen, pageCount ps r.prefixLen * ps ≤ r.prefixLen + i →
    slots.getD i 0 / ps = pages.getD ((r.prefixLen + i) / ps - pageCount ps r.prefixLen) 0

section Layout

variable {ps : ℕ} {r : ExtendReq} {pages : List ℕ}

theorem placed_extendProgram (hps : 0 < ps) (hle : r.prefixLen ≤ r.seqLen)
    (hnum : r.numNewPages ps ≤ pages.length) (hloc : -1 ≤ r.lastLoc)
    (hlast : (r.lastLoc + 1) % ps = (r.prefixLen % ps : ℕ)) :
    Placed ps r (pages.take (r.numNewPages ps)) (extendProgram ps r pages) := by
  obtain ⟨x, hx⟩ := Int.eq_ofNat_of_zero_le (show 0 ≤ r.lastLoc + 1 by omega)
  have hmod : x % ps = r.prefixLen % ps := by
    rw [hx] at hlast
    exact_mod_cast hlast
  have hslot : ∀ i < r.extendLen, (extendProgram ps r pages).getD i 0 = extendSlot ps r pages i := by
    intro i hi
    unfold extendLen at hi
    rw [extendProgram_eq hps hle, getD_eq_getElem?_getD, getElem?_map, getElem?_range hi, map_some, getD_some]
  refine ⟨by simp [hnum], length_extendProgram hps hle, ?_, ?_, ?_, ?_⟩
  · intro i hi
    rw [hslot i hi, extendSlot, hx]
    split
    · exact ModEq.add_right i hmod
    · rw [mul_add_mod_self_right, mod_mod]
  · intro i hi hnext
    rw [hslot (i + 1) hi, hslot i (by omega)]
    refine extendSlot_succ hps (fun hne => ?_) hnext
    have hpos : x ≠ 0 := fun h => hne (by rw [← hmod, h, zero_mod])
    omega
  · intro i hi hold
    rw [hslot i hi, extendSlot, if_pos hold, hx]
    rfl
  · intro i hi hnew
    have hlt : (r.prefixLen + i) / ps - pageCount ps r.prefixLen < r.numNewPages ps := by
      have hi' : r.prefixLen + i < r.seqLen := by unfold extendLen at hi; omega
      have h₁ := div_lt_pageCount hps hi'
      have h₂ : pageCount ps r.prefixLen ≤ (r.prefixLen + i) / ps := (le_div_iff_mul_le hps).mpr hnew
      unfold numNewPages
      omega
    rw [hslot i hi, extendSlot, if_neg (by omega), mul_comm, mul_add_div hps,
      div_eq_of_lt (mod_lt _ hps), add_zero]
    simp [getElem?_take_of_lt hlt]

/-- The new pages of the requests, one behind the other, are the first free pages. -/
theorem flatMap_newPages (ps : ℕ) (rs : List ExtendReq) (F : List ℕ) : ((range rs.length).flatMap fun i =>
      (F.drop ((rs.take i).map (numNewPages ps)).sum).take ((rs.getD i .masked).numNewPages ps)) =
      F.take (rs.map (numNewPages ps)).sum := by
  induction rs generalizing F with
  | nil => simp
  | cons r rs ih =>
    rw [length_cons, range_succ_eq_map, flatMap_cons, flatMap_map, map_cons, sum_cons, take_add, ← ih]
    simp [drop_drop]

end Layout

namespace Allocator

variable {a a' : Allocator} {rs : List ExtendReq} {n : ℕ} {out : List ℕ}

theorem snd_eq_none_iff (p : Allocator × Option (List ℕ)) : p.2 = none ↔ ¬ ∃ a' out, p = (a', some out) := by
  obtain ⟨a, _ | out⟩ := p <;> simp

theorem allocExtend_none_iff (hrel : a.Released) (hps : 0 < a.pageSize)
    (hle : ∀ r ∈ rs, r.prefixLen ≤ r.seqLen) :
    (a.allocExtend rs (rs.map extendLen).sum).2 = none ↔ a.freePages.length + a.releasePages.length <
        (rs.map (numNewPages a.pageSize)).sum := by
  have hsum : (rs.map (numNewPages a.pageSize)).sum ≤
      (rs.map extendLen).sum / a.pageSize + rs.length := sum_numNewPages_le hps hle
  have hcard : Multiset.card a.pages = a.freePages.length + a.releasePages.length := by simp [pages]
  rw [snd_eq_none_iff, allocExtend_isSome_iff hrel (by omega), hcard]
  omega

/-- The slots of a batch and the pages they lie on. -/
theorem allocExtend_placed (hps : 0 < a.pageSize) (hle : ∀ r ∈ rs, r.prefixLen ≤ r.seqLen)
    (hlast : ∀ r ∈ rs, -1 ≤ r.lastLoc ∧ (r.lastLoc + 1) % a.pageSize = (r.prefixLen % a.pageSize : ℕ))
    (h : a.allocExtend rs n = (a', some out)) :
    ∃ newPages slots : ℕ → List ℕ, out = (range rs.length).flatMap slots ∧
      (∀ i < rs.length, Placed a.pageSize (rs.getD i .masked) (newPages i) (slots i)) ∧
      a.pages = (((range rs.length).flatMap newPages : List ℕ) : Multiset ℕ) + a'.pages := by
  obtain ⟨F, htakes, rfl⟩ := allocExtend_spec h
  refine ⟨fun i => (F.drop ((rs.take i).map (numNewPages a.pageSize)).sum).take
    ((rs.getD i .masked).numNewPages a.pageSize), _, allocExtendKernel_eq, fun i hi => ?_, ?_⟩
  · have hmem := getD_mem hi
    have hroom : ((rs.take i).map (numNewPages a.pageSize)).sum +
        (rs.getD i .masked).numNewPages a.pageSize ≤ F.length := by
      rw [← cumsum_eq hi, cumsum, map_take]
      exact ((take_sublist _ _).sum_le_sum fun _ _ => zero_le _).trans htakes.le
    apply placed_extendProgram hps (hle _ hmem) _ (hlast _ hmem).1 (hlast _ hmem).2
    rw [length_drop]
    omega
  · rw [flatMap_newPages]
    exact htakes.pages_eq

/-- The two merge thresholds have the same effect unless only the larger one is missed. -/
theorem mergeIfShort_eq {v w : ℕ} (hvw : v ≤ w)
    (h : ¬ (a.needSort ∧ a.releasePages ≠ [] ∧ v ≤ a.freePages.length ∧ a.freePages.length < w)) :
    a.mergeIfShort v = a.mergeIfShort w := by
  have hnil : a.releasePages = [] → a.mergeAndSortFree = a := fun hrel => by
    simp [mergeAndSortFree, hrel]
  unfold mergeIfShort
  split
  · next hv => rw [if_pos ⟨hv.1, hv.2.trans_le hvw⟩]
  · next hv =>
    split
    · next hw =>
      refine (hnil ?_).symm
      by_contra hrel
      exact h ⟨hw.1, hrel, not_lt.mp fun hlt => hv ⟨hw.1, hlt⟩, hw.2⟩
    · rfl

variable {ds : List (ℕ × ℤ)}

theorem extendLen_decodeReq (hpos : ∀ d ∈ ds, 0 < d.1) :
    ((ds.map decodeReq).map extendLen).sum = ds.length := by
  induction ds with
  | nil => rfl
  | cons d ds ih =>
    have hd := hpos d mem_cons_self
    rw [map_cons, map_cons, sum_cons, ih fun x hx => hpos x (mem_cons_of_mem _ hx),
      length_cons, extendLen, decodeReq]
    dsimp only
    omega

/-- `alloc_decode` fails exactly when the extension by one token fails. -/
theorem allocDecode_none_iff (hrel : a.Released) (hps : 1 < a.pageSize) (hpos : ∀ d ∈ ds, 0 < d.1) :
    (a.allocDecode ds).2 = none ↔ (a.allocExtend (ds.map decodeReq) ds.length).2 = none := by
  have hle : ∀ r ∈ ds.map decodeReq, r.prefixLen ≤ r.seqLen := by
    intro r hr
    obtain ⟨d, -, rfl⟩ := mem_map.mp hr
    exact sub_le _ _
  have hcard : Multiset.card a.pages = a.freePages.length + a.releasePages.length := by simp [pages]
  conv_rhs => rw [← extendLen_decodeReq hpos]
  rw [allocExtend_none_iff hrel (by omega) hle, ← countP_decode hps hpos, ← hcard]
  obtain ⟨-, -, ⟨hshort, hnone, -⟩ | ⟨hroom, ⟨out, hsome⟩, -⟩⟩ := allocDecode_cases hrel ds
  · exact iff_of_true hnone hshort
  · exact iff_of_false (by simp [hsome]) hroom

theorem allocDecode_eq (hps : 1 < a.pageSize) (hpos : ∀ d ∈ ds, 0 < d.1)
    (h : ¬ (a.needSort ∧ a.releasePages ≠ [] ∧ ds.length ≤ a.freePages.length ∧
      a.freePages.length < ds.length / a.pageSize + ds.length + 1)) :
    a.allocDecode ds = a.allocExtend (ds.map decodeReq) ds.length := by
  simp only [allocDecode, allocExtend, pageSize_mergeIfShort, length_map]
  rw [mergeIfShort_eq ((le_add_left _ _).trans (le_succ _)) h, countP_decode hps hpos,
    allocDecodeKernel_eq (by omega) hpos]

/-- **Paged allocation layout.** `alloc_extend` fails exactly if the pages in both lists are fewer than the
batch needs. Otherwise every position of every request gets a slot congruent to it modulo the page size,
consecutive inside a page, the first ones continuing the last page of the request and the others on its new
pages; the new pages are distinct, disjoint across the requests, and gone from the lists. `alloc_decode`
fails when `alloc_extend` by one token does, and returns the same slots unless pages wait in
`release_pages` and the free ones are enough for the batch but fewer than `alloc_extend` wants to see before
it leaves them unmerged. -/
theorem paged_allocation_layout (hps : 2 ≤ a.pageSize) (hrel : a.Released) (hnodup : a.pages.Nodup)
    (hle : ∀ r ∈ rs, r.prefixLen ≤ r.seqLen) (hlast : ∀ r ∈ rs, -1 ≤ r.lastLoc ∧
      (r.lastLoc + 1) % a.pageSize = (r.prefixLen % a.pageSize : ℕ)) :
    ((a.allocExtend rs (rs.map ExtendReq.extendLen).sum).2 = none ↔ a.freePages.length + a.releasePages.length <
        (rs.map (numNewPages a.pageSize)).sum) ∧
    (∀ a' out, a.allocExtend rs (rs.map ExtendReq.extendLen).sum = (a', some out) →
      ∃ newPages slots : ℕ → List ℕ, out = (List.range rs.length).flatMap slots ∧
        (∀ i < rs.length, Placed a.pageSize (rs.getD i .masked) (newPages i) (slots i)) ∧
        ((List.range rs.length).flatMap newPages).Nodup ∧
        a.pages = (((List.range rs.length).flatMap newPages : List ℕ) : Multiset ℕ) + a'.pages) ∧
    ∀ ds : List (ℕ × ℤ), (∀ d ∈ ds, 0 < d.1) →
      ((a.allocDecode ds).2 = none ↔ (a.allocExtend (ds.map decodeReq) ds.length).2 = none) ∧
      (¬ (a.needSort ∧ a.releasePages ≠ [] ∧ ds.length ≤ a.freePages.length ∧
          a.freePages.length < ds.length / a.pageSize + ds.length + 1) →
        a.allocDecode ds = a.allocExtend (ds.map decodeReq) ds.length) := by
  refine ⟨allocExtend_none_iff hrel (by omega) hle, ?_, fun ds hpos =>
    ⟨allocDecode_none_iff hrel hps hpos, allocDecode_eq hps hpos⟩⟩
  intro a' out h
  obtain ⟨newPages, slots, hout, hplaced, hpages⟩ := allocExtend_placed (by omega) hle hlast h
  refine ⟨newPages, slots, hout, hplaced, ?_, hpages⟩
  rw [hpages, Multiset.nodup_add] at hnodup
  exact Multiset.coe_nodup.mp hnodup.1

/-- An allocator of five pages that sorts: four were handed out, one of them came back. -/
def onePageEach : Allocator :=
  ((Allocator.clear 2 true 5).allocExtend [⟨0, 8, -1⟩] 8).1.free [6, 7]

/-- Three positions behind a page that is half full: one on it, two on the new page. -/
theorem paged_allocation_layout_behind_prefix :
    (onePageEach.allocExtend [⟨1, 4, 14⟩] 3).2 = some [15, 6, 7] ∧
    ∃ newPages slots : ℕ → List ℕ, [15, 6, 7] = (List.range 1).flatMap slots ∧
      Placed 2 ⟨1, 4, 14⟩ (newPages 0) (slots 0) := by
  obtain ⟨newPages, slots, hout, hplaced, -⟩ := (@paged_allocation_layout onePageEach
    [⟨1, 4, 14⟩] (by decide) (fun h => by cases h) (by decide) (by decide) (by decide)).2.1 _ _ rfl
  exact ⟨rfl, newPages, slots, hout, hplaced 0 (by decide)⟩

/-- `alloc_decode` leaves the released page where it is and hands out page 5; `alloc_extend` by the same
token sorts first and hands out page 3. -/
theorem allocDecode_ne_allocExtend :
    onePageEach = ⟨2, true, [5], [3], true, []⟩ ∧ (onePageEach.allocDecode [(1, -1)]).2 = some [10] ∧
    (onePageEach.allocExtend ([(1, -1)].map decodeReq) 1).2 = some [6] := by
  refine ⟨rfl, rfl, rfl⟩

end Allocator

end SGLang.MemCache
