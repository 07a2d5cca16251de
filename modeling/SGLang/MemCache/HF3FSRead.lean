/-
# SGLang.MemCache.HF3FSRead — which buffer a page of an HF3FS file is read into.

`_batch_get` asks the metadata for the pages of its keys and collects the offsets of those that it finds. The
buffers are not collected along with them: the batches take offsets and buffers by position, so the page of
the `j`-th key found lands in buffer `j`, whichever key that buffer is for. The positions agree exactly as
long as no key is found behind a missing one (`batchGet_reads_right_iff`).

A client is assumed to fill its `i`-th buffer from its `i`-th offset; the number of bytes it reports is free.
-/
import SGLang.MemCache.HF3FS

namespace SGLang.MemCache.HF3FS

open Option List

variable {Key β : Type}

/-- The client: `content` is what a read at an offset puts into the buffer, `returned` the number of bytes that
it reports. -/
structure Client (β : Type) where
  content : ℕ → β
  returned : ℕ → ℕ

namespace Client

/-- `batch_read`: the buffers afterwards and the numbers of bytes. -/
def batchRead (c : Client β) : List ℕ → List β → List β × List ℕ
  | offset :: offsets, _ :: tensors =>
    let r := c.batchRead offsets tensors
    (c.content offset :: r.1, c.returned offset :: r.2)
  | _, tensors => (tensors, [])

/-- The reads at `i` in `range(0, len(batch_indices), entries)`, of the slices from `i` to `i + entries`. -/
def readBatches (c : Client β) (entries : ℕ) : ℕ → List ℕ → List β → List β × List ℕ
  | 0, _, fileResults => (fileResults, [])
  | n + 1, fileOffsets, fileResults =>
    if fileOffsets = [] then (fileResults, [])
    else
      let r := c.batchRead (fileOffsets.take entries) (fileResults.take entries)
      let rest := c.readBatches entries n (fileOffsets.drop entries) (fileResults.drop entries)
      (r.1 ++ rest.1, r.2 ++ rest.2)

variable {c : Client β} {entries : ℕ}

theorem batchRead_eq : ∀ {offsets : List ℕ} {tensors : List β}, offsets.length ≤ tensors.length →
    c.batchRead offsets tensors = (offsets.map c.content ++ tensors.drop offsets.length, offsets.map c.returned)
  | [], _, _ => by simp [batchRead]
  | _ :: _, [], h => by simp at h
  | _ :: offsets, _ :: tensors, h => by
    simp [batchRead, batchRead_eq (Nat.le_of_succ_le_succ h)]

/-- The batches make one read: offset `j` goes to buffer `j`. -/
theorem readBatches_eq (hentries : 1 ≤ entries) : ∀ {n : ℕ} {offsets : List ℕ} {tensors : List β},
    offsets.length ≤ n → offsets.length ≤ tensors.length → c.readBatches entries n offsets tensors =
      (offsets.map c.content ++ tensors.drop offsets.length, offsets.map c.returned) := by
  intro n
  induction n with
  | zero =>
    intro offsets tensors hn _
    simp [readBatches, length_eq_zero_iff.mp (Nat.le_zero.mp hn)]
  | succ n ih =>
    intro offsets tensors hn hlen
    by_cases hnil : offsets = []
    · simp [readBatches, hnil]
    · have hbatch : c.batchRead (offsets.take entries) (tensors.take entries) = _ :=
        batchRead_eq (by simp; omega)
      have hrest : c.readBatches entries n (offsets.drop entries) (tensors.drop entries) = _ :=
        ih (by simp; omega) (by simp; omega)
      rw [readBatches, if_neg hnil, hbatch, hrest]
      refine Prod.ext ?_ (by simp)
      rcases le_or_gt entries offsets.length with hle | hgt
      · simp [hle, ← append_assoc]
      · -- the last batch: buffers behind the offsets are left
        have hsplit := take_append_drop (entries - offsets.length) (tensors.drop offsets.length)
        rw [drop_drop, Nat.add_sub_of_le hgt.le] at hsplit
        rw [take_of_length_le hgt.le, drop_of_length_le hgt.le]
        simpa [drop_take] using hsplit

end Client

/-! ## `_batch_get` -/

/-- `batch_indices` with `file_offsets`. -/
def located (bytesPerPage : ℕ) (pageIndices : List (Option ℕ)) : List (ℕ × ℕ) :=
  pageIndices.zipIdx.filterMap fun (page, i) => page.map fun page => (i, page * bytesPerPage)

/-- The last loop. -/
def marked (bytesPerPage : ℕ) (batchIndices readResults : List ℕ) (results : List Bool) : List Bool :=
  (batchIndices.zip readResults).foldl
    (fun results (i, r) => if r = bytesPerPage then results.set i true else results) results

/-- `HiCacheHF3FS._batch_get`: the results and the buffers afterwards. -/
def batchGet [DecidableEq Key] (c : Client β) (bytesPerPage entries : ℕ) (m : RankMetadata Key)
    (keys : List Key) (values : List β) : List Bool × List β :=
  let pageIndices := (m.getPageIndices keys).1
  if pageIndices.length ≠ keys.length then (keys.map fun _ => false, values)
  else
    let found := located bytesPerPage pageIndices
    let r := c.readBatches entries found.length (found.map Prod.snd) values
    (marked bytesPerPage (found.map Prod.fst) r.2 (keys.map fun _ => false), r.1)

/-- Positions reported are filled with their page; those of missing keys are left and not reported. -/
def ReadsRight [DecidableEq Key] (c : Client β) (bytesPerPage : ℕ) (m : RankMetadata Key) (keys : List Key)
    (values : List β) (out : List Bool × List β) : Prop :=
  ∀ (i : ℕ) key, keys[i]? = some key →
    (out.1[i]? = some true →
      ∃ page, m.keyToIndex.get? key = some page ∧ out.2[i]? = some (c.content (page * bytesPerPage))) ∧
    (m.keyToIndex.get? key = none → out.1[i]? = some false ∧ out.2[i]? = values[i]?)

section

variable {bytesPerPage : ℕ}

theorem length_located (L : List (Option ℕ)) : (located bytesPerPage L).length = L.countP isSome := by
  have hfst : L.countP isSome = (L.zipIdx.map Prod.fst).countP isSome := by
    rw [zipIdx_map_fst]
  rw [located, length_filterMap_eq_countP, hfst, countP_map]
  simp [Function.comp_def]

/-- Found keys first: they are located one after the other. -/
theorem located_found_first (pages : List ℕ) (n : ℕ) :
    (located bytesPerPage (pages.map some ++ replicate n none)).map Prod.fst = range pages.length ∧
    (located bytesPerPage (pages.map some ++ replicate n none)).map Prod.snd =
      pages.map (· * bytesPerPage) := by
  have hnone : ∀ k, ((replicate n (none : Option ℕ)).zipIdx k).filterMap
      (fun (page, i) => page.map fun page => (i, page * bytesPerPage)) = [] := by
    intro k
    rw [filterMap_eq_nil_iff]
    rintro ⟨page, i⟩ hmem
    obtain rfl : page = none := eq_of_mem_replicate (fst_mem_of_mem_zipIdx hmem)
    rfl
  have hfound : located bytesPerPage (pages.map some ++ replicate n none) =
      pages.zipIdx.map fun (page, i) => (i, page * bytesPerPage) := by
    rw [located, zipIdx_append, filterMap_append, hnone, append_nil, zipIdx_map, filterMap_map]
    simp [← filterMap_eq_map']
  rw [hfound, List.map_map, List.map_map]
  constructor
  · exact (zipIdx_map_snd 0 pages).trans range_eq_range'.symm
  · calc pages.zipIdx.map _ = (pages.zipIdx.map Prod.fst).map (· * bytesPerPage) := by
          rw [List.map_map]
          rfl
      _ = _ := by rw [zipIdx_map_fst]

/-- A position that was not read keeps its result. -/
theorem marked_of_notMem {i : ℕ} : ∀ {is rs : List ℕ} {results : List Bool}, i ∉ is →
    (marked bytesPerPage is rs results)[i]? = results[i]? := by
  intro is
  induction is with
  | nil => intros; rfl
  | cons j is ih =>
    intro rs results hi
    rw [mem_cons, not_or] at hi
    obtain ⟨hne, hi⟩ := hi
    cases rs with
    | nil => rfl
    | cons r rs =>
      refine (ih hi : (marked bytesPerPage is rs _)[i]? = _).trans ?_
      dsimp only
      split
      · rw [getElem?_set_ne (Ne.symm hne)]
      · rfl

theorem found_first_of_pairwise : ∀ {L : List (Option ℕ)}, L.Pairwise (fun a b => a = none → b = none) →
    ∃ (pages : List ℕ) (n : ℕ), L = pages.map some ++ replicate n none
  | [], _ => ⟨[], 0, rfl⟩
  | none :: L, h => by
    refine ⟨[], L.length + 1, ?_⟩
    have hL : L = replicate L.length none :=
      eq_replicate_of_mem fun b hb => (pairwise_cons.mp h).1 b hb rfl
    rw [map_nil, nil_append, replicate_succ, ← hL]
  | some page :: L, h => by
    obtain ⟨pages, n, rfl⟩ := found_first_of_pairwise (pairwise_cons.mp h).2
    exact ⟨page :: pages, n, rfl⟩

/-- Where the first `countP` are the found ones, no key is found behind a missing one. -/
theorem pairwise_of_take {L : List (Option ℕ)} (h : ∀ a ∈ L.take (L.countP isSome), a.isSome) :
    L.Pairwise fun a b => a = none → b = none := by
  set t := L.countP isSome with ht
  have htake : (L.take t).countP isSome = t := by
    rw [countP_eq_length.mpr h, length_take, min_eq_left countP_le_length]
  have hsum : (L.take t).countP isSome + (L.drop t).countP isSome = t := by
    rw [← countP_append, take_append_drop]
  have hdrop : ∀ b ∈ L.drop t, b = none := by
    have hzero : (L.drop t).countP isSome = 0 := by omega
    intro b hb
    simpa using countP_eq_zero.mp hzero b hb
  rw [← take_append_drop t L, pairwise_append]
  refine ⟨?_, ?_, fun _ _ b hb _ => hdrop b hb⟩
  · refine pairwise_of_forall_mem_list fun a ha b _ hnone => ?_
    simpa [hnone] using h a ha
  · exact pairwise_of_forall_mem_list fun a _ b hb _ => hdrop b hb

end

/-- **The pages go to the right buffers**, whatever the file holds and the reads report, exactly when no key
is found behind a missing one. -/
theorem batchGet_reads_right_iff [DecidableEq Key] [Nontrivial β] (bytesPerPage : ℕ) {entries : ℕ}
    (hentries : 1 ≤ entries) (m : RankMetadata Key) (keys : List Key) :
    (∀ (c : Client β) (values : List β), values.length = keys.length →
      ReadsRight c bytesPerPage m keys values (batchGet c bytesPerPage entries m keys values)) ↔
    keys.Pairwise fun key key' => m.keyToIndex.get? key = none → m.keyToIndex.get? key' = none := by
  set L := keys.map m.keyToIndex.get? with hL
  have hindices : (m.getPageIndices keys).1 = L := (m.getPageIndices_spec keys).1
  have hout : ∀ (c : Client β) (values : List β), values.length = keys.length →
      batchGet c bytesPerPage entries m keys values =
        (marked bytesPerPage ((located bytesPerPage L).map Prod.fst)
            (((located bytesPerPage L).map Prod.snd).map c.returned) (keys.map fun _ => false),
          ((located bytesPerPage L).map Prod.snd).map c.content ++ values.drop (L.countP isSome)) := by
    intro c values hlen
    have hcount : L.countP isSome ≤ values.length := by
      simpa [hlen, hL] using countP_le_length (p := isSome) (l := L)
    rw [batchGet]
    dsimp only
    rw [hindices, if_neg (by simp [hL]), Client.readBatches_eq hentries (by simp)
      (by simpa [length_located] using hcount)]
    simp [length_located]
  rw [show (keys.Pairwise fun key key' => m.keyToIndex.get? key = none → m.keyToIndex.get? key' = none) ↔
    L.Pairwise fun a b => a = none → b = none by rw [hL, pairwise_map]]
  constructor
  · intro h
    -- a file of `b` only, read over buffers of `a` only
    obtain ⟨a, b, hab⟩ := exists_pair_ne β
    have hright := h ⟨fun _ => b, fun _ => bytesPerPage⟩ (keys.map fun _ => a) (by simp)
    rw [hout _ _ (by simp)] at hright
    refine pairwise_of_take fun x hx => ?_
    obtain ⟨i, hi⟩ := mem_iff_getElem?.mp hx
    rw [getElem?_take] at hi
    split_ifs at hi with hlt
    rw [hL, getElem?_map] at hi
    obtain ⟨key, hkey, rfl⟩ := map_eq_some_iff.mp hi
    by_contra hnone
    obtain ⟨-, hkept⟩ := (hright i key hkey).2 (by simpa using hnone)
    rw [getElem?_append_left (by simpa [length_located] using hlt)] at hkept
    have hkeys : i < keys.length := (List.getElem?_eq_some_iff.mp hkey).1
    simp [length_located, hlt, hkeys, hab.symm] at hkept
  · intro hpair c values hlen i key hkey
    obtain ⟨pages, n, hpages⟩ := found_first_of_pairwise hpair
    obtain ⟨hfst, hsnd⟩ : _ ∧ (located bytesPerPage _).map Prod.snd = _ := located_found_first pages n
    have hcount : L.countP isSome = pages.length := by
      rw [hpages]
      simp [Function.comp_def]
    have hget : L[i]? = some (m.keyToIndex.get? key) := by simp [hL, hkey]
    rw [hout c values hlen, hcount, hpages, hfst, hsnd]
    rcases lt_or_ge i pages.length with hi | hi
    · -- position `i` holds the page of its own key
      have hpage : m.keyToIndex.get? key = some pages[i] := by
        rw [hpages, getElem?_append_left (by simpa using hi)] at hget
        simpa [hi] using hget.symm
      refine ⟨fun _ => ⟨pages[i], hpage, ?_⟩, fun hnone => ?_⟩
      · rw [getElem?_append_left (by simpa using hi)]
        simp [hi]
      · rw [hpage] at hnone
        cases hnone
    · have hfalse : (marked bytesPerPage (range pages.length)
          ((pages.map (· * bytesPerPage)).map c.returned) (keys.map fun _ => false))[i]? = some false := by
        have hkeys : i < keys.length := (List.getElem?_eq_some_iff.mp hkey).1
        rw [marked_of_notMem (by simpa using hi)]
        simp [hkeys]
      refine ⟨fun htrue => ?_, fun _ => ⟨hfalse, ?_⟩⟩
      · rw [hfalse] at htrue
        cases htrue
      · rw [getElem?_append_right (by simpa using hi)]
        simp [Nat.add_sub_of_le hi]

/-- One key is in the file, on page 0. -/
def oneKey : RankMetadata String := ⟨1, [], ⟨[("b", 0)], by decide⟩⟩

/-- Found first, the key gets its page and the buffer of the missing one is left. -/
theorem batchGet_reads_right_found_first :
    ReadsRight ⟨fun offset => offset + 7, fun _ => 4⟩ 4 oneKey ["b", "a"] [0, 1]
        (batchGet ⟨fun offset => offset + 7, fun _ => 4⟩ 4 8 oneKey ["b", "a"] [0, 1]) ∧
      batchGet ⟨fun offset => offset + 7, fun _ => 4⟩ 4 8 oneKey ["b", "a"] [0, 1] = ([true, false], [7, 1]) :=
  ⟨(batchGet_reads_right_iff 4 (by decide) oneKey ["b", "a"]).mpr (by decide) _ _ rfl, by decide⟩

/-- Found behind the missing one, it is reported as read, but its page is in the other buffer. With one entry a
call the client gets as many buffers as offsets, so its own check passes. -/
theorem batchGet_reads_wrong_buffer :
    batchGet ⟨fun offset => offset + 7, fun _ => 4⟩ 4 1 oneKey ["a", "b"] [0, 1] = ([false, true], [7, 1]) ∧
      ¬ ReadsRight ⟨fun offset => offset + 7, fun _ => 4⟩ 4 oneKey ["a", "b"] [0, 1]
        ([false, true], [7, 1]) := by
  refine ⟨by decide, fun h => ?_⟩
  obtain ⟨-, hkept⟩ := (h 0 "a" rfl).2 (by decide)
  cases hkept

end SGLang.MemCache.HF3FS
