/-
# SGLang.Gateway.BucketPolicy — routing by the length of the request.

A bucket has, for the workers of one model, a list of length ranges, each owned by a worker, and the characters
recently sent to each worker. A request goes to the owner of its length's range, or to a least-loaded worker
when the loads are imbalanced. Both the ranges and the loads are about the workers that the bucket was told of;
the answer is where the worker stands in the list of the call. So the policy answers exactly if the workers that
its state assigns the request to are in the list (`selectWorker_iff`). The lengths are those of texts that were
received, so the sums of the balancing do not overflow, and the ranges tile the lengths: each length has one
owner (`ranges_tile_lengths`).
-/
import SGLang.Gateway.Policy

namespace SGLang.Gateway

open SGLang.Lib Option List

/-- `usize::MAX`. -/
def usizeMax : UInt64 := UInt64.ofNat (2 ^ 64 - 1)

def saturatingSub (a b : UInt64) : UInt64 := if a < b then 0 else a - b

def saturatingAdd (a b : UInt64) : UInt64 := if a + b < a then usizeMax else a + b

/-- A worker and the least and greatest length it takes. -/
structure Boundary where
  url : String
  lower : UInt64
  upper : UInt64
  deriving DecidableEq, Repr

/-- The length of the request's text; 0 without one. -/
def SelectWorkerInfo.charCount (info : SelectWorkerInfo) : UInt64 :=
  UInt64.ofNat ((info.requestText.map List.length).getD 0)

structure SequencerRequest where
  id : ℕ
  charCnt : UInt64
  timestamp : ℕ
  prefillWorkerUrl : String
  deriving DecidableEq, Repr

structure Bucket where
  lMax : UInt64
  bucketCnt : UInt64
  prefillWorkerUrls : List String
  loadTotal : UInt64
  period : ℕ
  bucketLoad : UInt64
  boundary : List Boundary
  requestList : List SequencerRequest
  tReqLoads : AList fun _ : ℕ => UInt64
  charsPerUrl : AList fun _ : String => UInt64

namespace Bucket

def new (period : ℕ) : Bucket := ⟨4096, 0, [], 0, period, 0, [], [], ∅, ∅⟩

/-- Equal ranges, the last one open; `(i + 1) * gap - 1` wraps around if there are more workers than lengths. -/
def evenBoundary (urls : List String) (gap : UInt64) : List Boundary :=
  urls.zipIdx.map fun p =>
    let i := UInt64.ofNat p.2
    ⟨p.1, i * gap, if p.2 = urls.length - 1 then usizeMax else (i + 1) * gap - 1⟩

def initPrefillWorkerUrls (b : Bucket) (urls : List String) : Bucket :=
  let b := { b with
    bucketCnt := UInt64.ofNat urls.length
    prefillWorkerUrls := urls
    charsPerUrl := urls.foldl (fun chars url => chars.insert url 0) ∅ }
  if urls = [] then { b with boundary := [] }
  else
    let gap := b.lMax / UInt64.ofNat urls.length
    { b with lMax := usizeMax, boundary := evenBoundary urls gap }

/-- The expired requests at the front of the list are dropped, with their loads. -/
def expire (now : ℕ) : List SequencerRequest → Bucket → UInt64 → Bucket × UInt64
  | [], b, removed => ({ b with requestList := [] }, removed)
  | req :: rest, b, removed =>
    if now < req.timestamp ∨ b.period < now - req.timestamp then
      let b := { b with
        tReqLoads := b.tReqLoads.erase req.id
        charsPerUrl := Dict.update b.charsPerUrl req.prefillWorkerUrl fun count =>
          saturatingSub count req.charCnt }
      expire now rest b (removed + req.charCnt)
    else ({ b with requestList := req :: rest }, removed)

variable (b : Bucket)

def postProcessRequest (charCnt : UInt64) (prefillUrl : String) (now id : ℕ) : Bucket :=
  let load := (b.charsPerUrl.lookup prefillUrl).getD 0 + charCnt
  let b := { b with charsPerUrl := b.charsPerUrl.insert prefillUrl load }
  let (b, removed) := expire now b.requestList b 0
  { b with
    tReqLoads := b.tReqLoads.insert id charCnt
    requestList := b.requestList ++ [⟨id, charCnt, now, prefillUrl⟩]
    loadTotal := saturatingAdd (saturatingSub b.loadTotal removed) charCnt }

/-- The halving loop of `find_boundary` on the window from `left` to `right`. -/
def searchLoop (boundary : List Boundary) (charCount : UInt64) : ℕ → ℕ → ℕ → Option String
  | 0, _, _ => none
  | fuel + 1, left, right =>
    if left < right then
      let mid := left + (right - left) / 2
      match boundary[mid]? with
      -- the index is in range, see `searchLoop_spec`
      | none => none
      | some range =>
        if charCount < range.lower then searchLoop boundary charCount fuel left mid
        else if range.upper < charCount then searchLoop boundary charCount fuel (mid + 1) right
        else some range.url
    else none

def findBoundary (charCount : UInt64) : Option String :=
  searchLoop b.boundary charCount (b.boundary.length + 1) 0 b.boundary.length

def updateWorkersCnt : Bucket :=
  let chars := b.prefillWorkerUrls.foldl
    (fun chars url => if url ∈ chars then chars else chars.insert url 0) b.charsPerUrl
  let gone := b.charsPerUrl.keys.filter fun url =>
    url ∉ b.prefillWorkerUrls && b.charsPerUrl.lookup url == some 0
  { b with
    bucketCnt := UInt64.ofNat b.prefillWorkerUrls.length
    charsPerUrl := Dict.eraseAll chars gone }

/-- The inner loop of `adjust_boundary`: the loads are added up until they fill a bucket. It returns the range
that was closed, the next lower bound, and how many loads were used. -/
def fillBucket (url : String) (isLast : Bool) (single upperBound : UInt64) :
    List UInt64 → UInt64 → ℕ → Option Boundary × UInt64 × ℕ
  | [], _, used => (none, upperBound, used)
  | load :: loads, accumulator, used =>
    let accumulator := accumulator + load
    if single ≤ accumulator then
      if isLast then (some ⟨url, upperBound, usizeMax⟩, upperBound, used)
      else
        let realLoad := upperBound + single
        if load ≤ upperBound then (some ⟨url, upperBound, realLoad⟩, realLoad + 1, used + 1)
        else (some ⟨url, upperBound, load⟩, load + 1, used + 1)
    else fillBucket url isLast single upperBound loads accumulator (used + 1)

/-- The outer loop of `adjust_boundary`, one round for each worker. -/
def fillBuckets (histLoad : List UInt64) (single : UInt64) : List String → UInt64 → ℕ → List Boundary
  | [], _, _ => []
  | url :: urls, upperBound, lastLoadIndex =>
    if histLoad.length ≤ lastLoadIndex ∧ urls = [] then [⟨url, upperBound, usizeMax⟩]
    else
      match fillBucket url urls.isEmpty single upperBound (histLoad.drop lastLoadIndex) 0 lastLoadIndex with
      | (some range, upperBound, lastLoadIndex) =>
        range :: fillBuckets histLoad single urls upperBound lastLoadIndex
      | (none, upperBound, lastLoadIndex) =>
        if urls = [] then [⟨url, upperBound, usizeMax⟩]
        else
          let rightBound := upperBound + single
          ⟨url, upperBound, rightBound⟩ :: fillBuckets histLoad single urls (rightBound + 1) lastLoadIndex

def adjustBoundary : Bucket :=
  if b.tReqLoads.entries.isEmpty then b
  else
    let b := b.updateWorkersCnt
    if b.bucketCnt = 0 then b
    else
      let newSingleBucketLoad := b.loadTotal / b.bucketCnt
      let oldSingleBucketLoad := b.bucketLoad
      if newSingleBucketLoad ≤ 2 * oldSingleBucketLoad ∧
          oldSingleBucketLoad ≤ 2 * newSingleBucketLoad ∧ oldSingleBucketLoad ≠ 0 then b
      else
        let histLoad := (b.tReqLoads.entries.map Sigma.snd).mergeSort fun x y => decide (x ≤ y)
        { b with
          bucketLoad := newSingleBucketLoad
          boundary := fillBuckets histLoad newSingleBucketLoad b.prefillWorkerUrls 0 0 }

/-! ### The search finds the range of a length -/

/-- The ranges do not overlap and go up. -/
structure Ordered (boundary : List Boundary) : Prop where
  ranges : ∀ r ∈ boundary, r.lower ≤ r.upper
  ascending : boundary.Pairwise fun r s => r.upper < s.lower

section Search

variable {boundary : List Boundary} {charCount gap : UInt64} {url : String} {left right : ℕ}

theorem searchLoop_sound {fuel : ℕ} (h : searchLoop boundary charCount fuel left right = some url) :
    ∃ r ∈ boundary, r.url = url ∧ r.lower ≤ charCount ∧ charCount ≤ r.upper := by
  induction fuel generalizing left right with
  | zero => cases h
  | succ fuel ih =>
    simp only [searchLoop] at h
    split at h
    · split at h
      · cases h
      · next r hr =>
        split at h
        · exact ih h
        split at h
        · exact ih h
        · next hlow hup =>
          cases h
          exact ⟨r, mem_of_getElem? hr, rfl, UInt64.not_lt.mp hlow, UInt64.not_lt.mp hup⟩
    · cases h

/-- In ordered ranges the window keeps the range of the length until the loop comes to it. -/
theorem searchLoop_complete (ord : Ordered boundary) {fuel k : ℕ} {r : Boundary} (hf : right < fuel + left)
    (hright : right ≤ boundary.length) (hk : boundary[k]? = some r) (hlk : left ≤ k) (hkr : k < right)
    (hlow : r.lower ≤ charCount) (hup : charCount ≤ r.upper) :
    searchLoop boundary charCount fuel left right = some r.url := by
  induction fuel generalizing left right with
  | zero => omega
  | succ fuel ih =>
    obtain ⟨mid, hmid⟩ : ∃ mid, left + (right - left) / 2 = mid := ⟨_, rfl⟩
    have hml : mid < boundary.length := by omega
    obtain ⟨hkl, rfl⟩ := List.getElem?_eq_some_iff.mp hk
    have hasc := pairwise_iff_getElem.mp ord.ascending
    simp only [searchLoop]
    rw [if_pos (lt_of_le_of_lt hlk hkr), hmid, getElem?_eq_getElem hml]
    dsimp only
    rcases Nat.lt_trichotomy k mid with hlt | rfl | hlt
    · rw [if_pos (UInt64.lt_of_le_of_lt hup (hasc k mid hkl hml hlt))]
      exact ih (by omega) (by omega) hlk hlt
    · rw [if_neg (UInt64.not_lt.mpr hlow), if_neg (UInt64.not_lt.mpr hup)]
    · have hbelow := UInt64.lt_of_lt_of_le (hasc mid k hml hkl hlt) hlow
      have hrange := UInt64.lt_of_le_of_lt (ord.ranges _ (getElem_mem hml)) hbelow
      rw [if_neg (UInt64.not_lt.mpr (UInt64.le_of_lt hrange)), if_pos hbelow]
      exact ih (by omega) hright hlt hkr

/-- **The search finds exactly the owner of the range that has the length.** -/
theorem findBoundary_iff {b : Bucket} (ord : Ordered b.boundary) : b.findBoundary charCount = some url ↔
      ∃ r ∈ b.boundary, r.url = url ∧ r.lower ≤ charCount ∧ charCount ≤ r.upper := by
  constructor
  · exact searchLoop_sound
  · rintro ⟨r, hr, rfl, hlow, hup⟩
    obtain ⟨k, hk, rfl⟩ := getElem_of_mem hr
    exact searchLoop_complete ord (by omega) le_rfl (getElem?_eq_getElem hk) (Nat.zero_le k) hk hlow hup

/-- A product of an index and the gap does not wrap around. -/
theorem toNat_index_mul {i len : ℕ} (hi : i ≤ len) (hgap : 0 < gap.toNat) (hfit : len * gap.toNat < 2 ^ 64) :
    (UInt64.ofNat i * gap).toNat = i * gap.toNat := by
  have hle : i * gap.toNat ≤ len * gap.toNat := Nat.mul_le_mul_right _ hi
  have hsmall : i ≤ i * gap.toNat := Nat.le_mul_of_pos_right i hgap
  rw [UInt64.toNat_mul, UInt64.toNat_ofNat', Nat.mod_eq_of_lt (show i < 2 ^ 64 by omega), Nat.mod_eq_of_lt]
  omega

end Search

/-! ### The ranges tile all lengths -/

/-- The ranges cover the lengths from `lo` on, in order, none twice and none empty. -/
def Tiles : ℕ → List Boundary → Prop
  | lo, [] => lo = 2 ^ 64
  | lo, r :: rest => r.lower.toNat = lo ∧ r.lower ≤ r.upper ∧ Tiles (r.upper.toNat + 1) rest

theorem usizeMax_succ : usizeMax.toNat + 1 = 2 ^ 64 := by decide

theorem le_usizeMax (c : UInt64) : c ≤ usizeMax := by
  have := c.toNat_lt
  have := usizeMax_succ
  rw [UInt64.le_iff_toNat_le]
  omega

section Tiling

variable {boundary : List Boundary} {c gap single u : UInt64} {lo i : ℕ} {urls : List String} {url : String}
  {isLast : Bool} {histLoad loads : List UInt64}

theorem Tiles.ordered (h : Tiles lo boundary) : Ordered boundary ∧ ∀ r ∈ boundary, lo ≤ r.lower.toNat := by
  induction boundary generalizing lo with
  | nil => exact ⟨⟨nofun, .nil⟩, nofun⟩
  | cons r rest ih =>
    obtain ⟨rfl, hle, hrest⟩ := h
    obtain ⟨⟨ranges, ascending⟩, hlower⟩ := ih hrest
    refine ⟨⟨forall_mem_cons.mpr ⟨hle, ranges⟩, .cons (fun s hs => ?_) ascending⟩,
      forall_mem_cons.mpr ⟨le_rfl, fun s hs => ?_⟩⟩
    · exact UInt64.lt_iff_toNat_lt.mpr (hlower s hs)
    · exact (Nat.le_succ_of_le (UInt64.le_iff_toNat_le.mp hle)).trans (hlower s hs)

theorem Tiles.exists_mem (h : Tiles lo boundary) (hc : lo ≤ c.toNat) :
    ∃ r ∈ boundary, r.lower ≤ c ∧ c ≤ r.upper := by
  induction boundary generalizing lo with
  | nil => exact absurd (h ▸ hc) (Nat.not_le.mpr c.toNat_lt)
  | cons r rest ih =>
    obtain ⟨rfl, -, hrest⟩ := h
    by_cases hup : c ≤ r.upper
    · exact ⟨r, mem_cons_self, UInt64.le_iff_toNat_le.mpr hc, hup⟩
    · obtain ⟨s, hs, hcs⟩ := ih hrest (UInt64.lt_iff_toNat_lt.mp (UInt64.not_le.mp hup))
      exact ⟨s, mem_cons_of_mem _ hs, hcs⟩

/-- Equal ranges of at least one length. -/
theorem tiles_evenBoundary (hgap : 0 < gap.toNat) (hfit : urls.length * gap.toNat < 2 ^ 64) (hne : urls ≠ []) :
    Tiles 0 (evenBoundary urls gap) := by
  obtain ⟨f, heq, hlower, hupper⟩ : ∃ f : String × ℕ → Boundary, evenBoundary urls gap = urls.zipIdx.map f ∧
      (∀ url k, (f (url, k)).lower = UInt64.ofNat k * gap) ∧ ∀ url k, (f (url, k)).upper =
        if k = urls.length - 1 then usizeMax else (UInt64.ofNat k + 1) * gap - 1 :=
    ⟨_, rfl, fun _ _ => rfl, fun _ _ => rfl⟩
  -- the ranges from the `k`-th on
  have hfrom : ∀ (l : List String) (k : ℕ), k + l.length = urls.length → l ≠ [] →
      Tiles (k * gap.toNat) ((l.zipIdx k).map f) := by
    intro l
    induction l with
    | nil => exact fun _ _ h => absurd rfl h
    | cons url l ih =>
      intro k hk _
      rw [length_cons] at hk
      have hlow := toNat_index_mul (i := k) (by omega) hgap hfit
      rw [zipIdx_cons, map_cons]
      unfold Tiles
      rw [hlower, hupper, hlow]
      cases l with
      | nil =>
        rw [if_pos (by rw [← hk]; rfl)]
        exact ⟨rfl, le_usizeMax _, usizeMax_succ⟩
      | cons url' l =>
        have hmul : ((UInt64.ofNat k + 1) * gap).toNat = (k + 1) * gap.toNat := by
          have h := toNat_index_mul (i := k + 1) (by omega) hgap hfit
          rwa [UInt64.ofNat_add] at h
        have hone : (1 : UInt64).toNat ≤ ((UInt64.ofNat k + 1) * gap).toNat :=
          hmul ▸ Nat.mul_pos k.succ_pos hgap
        have hup : ((UInt64.ofNat k + 1) * gap - 1).toNat + 1 = (k + 1) * gap.toNat := by
          rw [UInt64.toNat_sub_of_le _ _ (UInt64.le_iff_toNat_le.mpr hone), ← hmul]
          exact Nat.sub_add_cancel hone
        rw [if_neg (by simp at hk; omega), hup, UInt64.le_iff_toNat_le, hlow]
        rw [Nat.succ_mul] at hup
        exact ⟨rfl, by omega, ih (k + 1) (by omega) (cons_ne_nil _ _)⟩
  have h := hfrom urls 0 (Nat.zero_add _) hne
  rwa [Nat.zero_mul, ← heq] at h

/-- What the inner loop of `adjust_boundary` returns. -/
theorem fillBucket_cases {acc next : UInt64} {used used' : ℕ} {o : Option Boundary}
    (h : fillBucket url isLast single u loads acc used = (o, next, used')) :
    match o with
    | none => next = u
    | some r => ∃ top, r = ⟨url, u, top⟩ ∧ (isLast = true ∧ top = usizeMax ∨
        isLast = false ∧ next = top + 1 ∧ (top = u + single ∨ u < top ∧ top ∈ loads)) := by
  induction loads generalizing acc used with
  | nil =>
    cases h
    rfl
  | cons load loads ih =>
    simp only [fillBucket] at h
    split at h
    · cases isLast with
      | true =>
        cases h
        exact ⟨_, rfl, .inl ⟨rfl, rfl⟩⟩
      | false =>
        rw [if_neg Bool.false_ne_true] at h
        split at h
        · cases h
          exact ⟨_, rfl, .inr ⟨rfl, rfl, .inl rfl⟩⟩
        · next hle =>
          cases h
          exact ⟨_, rfl, .inr ⟨rfl, rfl, .inr ⟨UInt64.not_le.mp hle, mem_cons_self⟩⟩⟩
    · cases o with
      | none => exact ih h
      | some r =>
        obtain ⟨top, hr, htop⟩ := ih h
        refine ⟨top, hr, htop.imp_right fun ⟨hlast, hnext, htop⟩ => ⟨hlast, hnext, htop.imp_right ?_⟩⟩
        exact And.imp_right (mem_cons_of_mem _)

/-- A round of the outer loop: the last range is open, the others end at a load or after the share of a
bucket. -/
theorem fillBuckets_cons : ∃ top i', fillBuckets histLoad single (url :: urls) u i =
      ⟨url, u, top⟩ :: fillBuckets histLoad single urls (top + 1) i' ∧
      (urls = [] ∧ top = usizeMax ∨ urls ≠ [] ∧ (top = u + single ∨ u < top ∧ top ∈ histLoad)) := by
  rw [fillBuckets]
  split
  · next h => exact ⟨usizeMax, i, by rw [h.2, fillBuckets], .inl ⟨h.2, rfl⟩⟩
  · split
    · next range next used hfill =>
      obtain ⟨top, rfl, ⟨hlast, rfl⟩ | ⟨hlast, rfl, htop⟩⟩ := fillBucket_cases hfill
      · obtain rfl := isEmpty_iff.mp hlast
        exact ⟨_, used, by rw [fillBuckets, fillBuckets], .inl ⟨rfl, rfl⟩⟩
      · refine ⟨top, used, rfl, .inr ⟨?_, htop.imp_right (And.imp_right mem_of_mem_drop)⟩⟩
        rintro rfl
        cases hlast
    · next next used hfill =>
      have hnext : next = u := fillBucket_cases hfill
      subst hnext
      split
      · next hnil => exact ⟨usizeMax, used, by rw [hnil, fillBuckets], .inl ⟨hnil, rfl⟩⟩
      · next hne => exact ⟨_, used, rfl, .inr ⟨hne, .inl rfl⟩⟩

/-- The ranges `adjust_boundary` makes, if its sums do not wrap around. -/
theorem tiles_fillBuckets (hne : urls ≠ []) (hupper : u.toNat + urls.length * (single.toNat + 1) < 2 ^ 64)
    (hhist : ∀ load ∈ histLoad, load.toNat + urls.length * (single.toNat + 1) < 2 ^ 64) :
    (fillBuckets histLoad single urls u i).map Boundary.url = urls ∧
      Tiles u.toNat (fillBuckets histLoad single urls u i) := by
  induction urls generalizing u i with
  | nil => exact absurd rfl hne
  | cons url urls ih =>
    obtain ⟨top, i', heq, ⟨rfl, rfl⟩ | ⟨hne, htop⟩⟩ := @fillBuckets_cons single u i urls url histLoad
    · rw [heq]
      exact ⟨rfl, rfl, le_usizeMax _, usizeMax_succ⟩
    · simp only [length_cons, Nat.succ_mul] at hupper hhist
      have htop' : u.toNat ≤ top.toNat ∧ top.toNat + 1 + urls.length * (single.toNat + 1) < 2 ^ 64 := by
        rcases htop with rfl | ⟨hlt, hmem⟩
        · rw [UInt64.toNat_add, Nat.mod_eq_of_lt (by omega)]
          omega
        · have := hhist top hmem
          have := UInt64.lt_iff_toNat_lt.mp hlt
          omega
      have hnext : (top + 1).toNat = top.toNat + 1 := by
        rw [UInt64.toNat_add, UInt64.toNat_one, Nat.mod_eq_of_lt (by omega)]
      obtain ⟨hurls, htiles⟩ := ih (u := top + 1) (i := i') hne (by omega) fun load hload => by
        have := hhist load hload
        omega
      rw [hnext] at htiles
      rw [heq]
      exact ⟨congrArg _ hurls, rfl, UInt64.le_iff_toNat_le.mpr htop'.1, htiles⟩

end Tiling

variable {b b' : Bucket}

/-- The sums of `adjust_boundary` do not wrap around. -/
def Fits (b : Bucket) : Prop :=
  ∀ load ∈ b.tReqLoads.entries.map Sigma.snd,
    load.toNat + b.loadTotal.toNat + b.prefillWorkerUrls.length < 2 ^ 64

/-- The characters of the requests of a list. -/
def chars (l : List SequencerRequest) : ℕ := (l.map fun req => req.charCnt.toNat).sum

/-- The calls on a bucket that has workers. A request is processed with the length of the text that was
received; the texts of one window have together fewer than `2 ^ 62` characters. -/
inductive RouterStep : Bucket → Bucket → Prop
  | init {b : Bucket} {urls : List String} (hne : urls ≠ []) (hmany : urls.length ≤ 4096)
      (hnodup : urls.Nodup) :
      RouterStep b (b.initPrefillWorkerUrls urls)
  | post {b : Bucket} (info : SelectWorkerInfo) (prefillUrl : String) (now id : ℕ)
      (hwindow : chars (b.postProcessRequest info.charCount prefillUrl now id).requestList < 2 ^ 62) :
      RouterStep b (b.postProcessRequest info.charCount prefillUrl now id)
  | adjust {b : Bucket} : RouterStep b b.adjustBoundary

/-! ### The loads are those of the window -/

/-- Every load is that of a request of the list. -/
def LoadsOf (b : Bucket) (l : List SequencerRequest) : Prop :=
  ∀ id load, b.tReqLoads.lookup id = some load → ∃ req ∈ l, req.id = id ∧ req.charCnt = load

/-- The loads, and their total, are those of the requests in the window. -/
structure Loaded (b : Bucket) : Prop where
  total : b.loadTotal.toNat = chars b.requestList
  small : chars b.requestList < 2 ^ 62
  loads : b.LoadsOf b.requestList

theorem Loaded.le (h : b.Loaded) {load : UInt64} (hload : load ∈ b.tReqLoads.entries.map Sigma.snd) :
    load.toNat ≤ chars b.requestList := by
  obtain ⟨e, he, rfl⟩ := mem_map.mp hload
  obtain ⟨req, hreq, -, hcnt⟩ := h.loads e.1 e.2 (AList.mem_lookup_iff.mpr he)
  rw [← hcnt]
  exact single_le_sum (fun _ _ => Nat.zero_le _) _ (mem_map_of_mem hreq)

/-- What expires is taken out of the loads, and adds up. -/
theorem expire_spec {now : ℕ} {l : List SequencerRequest} {removed : UInt64} (hloads : b.LoadsOf l)
    (hsmall : removed.toNat + chars l < 2 ^ 62) :
    (expire now l b removed).1.loadTotal = b.loadTotal ∧
      (expire now l b removed).2.toNat + chars (expire now l b removed).1.requestList =
        removed.toNat + chars l ∧
      (expire now l b removed).1.LoadsOf (expire now l b removed).1.requestList := by
  induction l generalizing b removed with
  | nil => exact ⟨rfl, rfl, hloads⟩
  | cons req rest ih =>
    have hchars : chars (req :: rest) = req.charCnt.toNat + chars rest := sum_cons
    rw [hchars] at hsmall ⊢
    have hadd : (removed + req.charCnt).toNat = removed.toNat + req.charCnt.toNat := by
      rw [UInt64.toNat_add, Nat.mod_eq_of_lt (by omega)]
    unfold expire
    split
    · rw [← Nat.add_assoc, ← hadd]
      refine ih (fun id load h => ?_) (by omega)
      obtain ⟨hne, h⟩ := Dict.lookup_erase_iff.mp h
      obtain ⟨r, hr, hid, hcnt⟩ := hloads id load h
      refine ⟨r, (mem_cons.mp hr).resolve_left ?_, hid, hcnt⟩
      rintro rfl
      exact hne hid.symm
    · exact ⟨rfl, congrArg _ hchars, hloads⟩

theorem toNat_saturatingSub {x y : UInt64} (h : y.toNat ≤ x.toNat) :
    (saturatingSub x y).toNat = x.toNat - y.toNat := by
  have hle := UInt64.le_iff_toNat_le.mpr h
  rw [saturatingSub, if_neg (UInt64.not_lt.mpr hle), UInt64.toNat_sub_of_le _ _ hle]

theorem toNat_saturatingAdd {x y : UInt64} (h : x.toNat + y.toNat < 2 ^ 64) :
    (saturatingAdd x y).toNat = x.toNat + y.toNat := by
  have hadd : (x + y).toNat = x.toNat + y.toNat := by rw [UInt64.toNat_add, Nat.mod_eq_of_lt h]
  rw [saturatingAdd, if_neg, hadd]
  rw [UInt64.lt_iff_toNat_lt, hadd]
  omega

theorem Loaded.postProcessRequest {charCnt : UInt64} {prefillUrl : String} {now id : ℕ} (h : b.Loaded)
    (hwindow : chars (b.postProcessRequest charCnt prefillUrl now id).requestList < 2 ^ 62) :
    (b.postProcessRequest charCnt prefillUrl now id).Loaded := by
  obtain ⟨b₀, hb₀⟩ : ∃ b₀, b₀ = { b with
      charsPerUrl := b.charsPerUrl.insert prefillUrl ((b.charsPerUrl.lookup prefillUrl).getD 0 +
        charCnt) } := ⟨_, rfl⟩
  have hlist : b₀.requestList = b.requestList := by rw [hb₀]
  have htot : b₀.loadTotal.toNat = chars b.requestList := by rw [hb₀]; exact h.total
  have hspec := @expire_spec b₀ now b.requestList 0 (by rw [hb₀]; exact h.loads) (by simpa using h.small)
  have hpost : b.postProcessRequest charCnt prefillUrl now id =
      let r := expire now b.requestList b₀ 0
      { r.1 with
        tReqLoads := r.1.tReqLoads.insert id charCnt
        requestList := r.1.requestList ++ [⟨id, charCnt, now, prefillUrl⟩]
        loadTotal := saturatingAdd (saturatingSub r.1.loadTotal r.2) charCnt } := by
    rw [hb₀]
    rfl
  rw [hpost] at hwindow ⊢
  generalize expire now b.requestList b₀ 0 = r at hspec hwindow ⊢
  obtain ⟨htotal, hsum, hloads⟩ := hspec
  rw [UInt64.toNat_zero, Nat.zero_add] at hsum
  have hchars : chars (r.1.requestList ++ [⟨id, charCnt, now, prefillUrl⟩]) =
      chars r.1.requestList + charCnt.toNat := by
    simp [chars]
  have hsub : (saturatingSub r.1.loadTotal r.2).toNat = chars r.1.requestList := by
    rw [toNat_saturatingSub (by rw [htotal, htot]; omega), htotal, htot]
    omega
  dsimp only at hwindow ⊢
  refine ⟨?_, hwindow, fun k load hk => ?_⟩
  · rw [hchars, toNat_saturatingAdd (by omega), hsub]
  · rcases Dict.lookup_insert_iff.mp hk with ⟨rfl, rfl⟩ | ⟨-, hk⟩
    · exact ⟨_, mem_append_right _ (mem_singleton_self _), rfl, rfl⟩
    · obtain ⟨req, hreq, hid⟩ := hloads k load hk
      exact ⟨req, mem_append_left _ hreq, hid⟩

/-- The ranges are those of the workers, in order, and tile all lengths. -/
structure Tiled (b : Bucket) : Prop where
  lMax : 4096 ≤ b.lMax.toNat
  few : b.prefillWorkerUrls.length ≤ 4096
  nodup : b.prefillWorkerUrls.Nodup
  workers : b.boundary.map Boundary.url = b.prefillWorkerUrls
  tiles : b.prefillWorkerUrls ≠ [] → Tiles 0 b.boundary

theorem Tiled.expire {now : ℕ} {l : List SequencerRequest} {removed : UInt64} (h : b.Tiled) :
    (expire now l b removed).1.Tiled := by
  induction l generalizing b removed with
  | nil => exact { h with }
  | cons req rest ih =>
    unfold Bucket.expire
    split
    · exact ih { h with }
    · exact { h with }

/-- A new list of workers, not more than there are lengths. -/
theorem tiled_initPrefillWorkerUrls {urls : List String} (hne : urls ≠ []) (hnodup : urls.Nodup)
    (hmany : urls.length ≤ 4096) (h : 4096 ≤ b.lMax.toNat) : (b.initPrefillWorkerUrls urls).Tiled := by
  have hpos : 0 < urls.length := length_pos_iff.mpr hne
  have hmax : b.lMax.toNat < 2 ^ 64 := b.lMax.toNat_lt
  have hgap : (b.lMax / UInt64.ofNat urls.length).toNat = b.lMax.toNat / urls.length := by
    rw [UInt64.toNat_div, UInt64.toNat_ofNat', Nat.mod_eq_of_lt (by omega)]
  simp only [initPrefillWorkerUrls, if_neg hne]
  refine ⟨(by decide : 4096 ≤ usizeMax.toNat), hmany, hnodup, ?_, fun _ => tiles_evenBoundary ?_ ?_ hne⟩
  · show (evenBoundary urls _).map Boundary.url = urls
    rw [evenBoundary, List.map_map]
    exact zipIdx_map_fst 0 urls
  · rw [hgap]
    exact Nat.div_pos (hmany.trans h) hpos
  · rw [hgap]
    exact lt_of_le_of_lt (Nat.mul_div_le _ _) hmax

theorem Tiled.adjustBoundary (h : b.Tiled) (hfits : b.Fits) : b.adjustBoundary.Tiled := by
  have hupdate : b.updateWorkersCnt.Tiled := { h with }
  unfold Bucket.adjustBoundary
  dsimp only
  split
  · exact h
  split
  · exact hupdate
  split
  · exact hupdate
  · next hsome hzero _ =>
    have hne : b.prefillWorkerUrls ≠ [] := by
      intro hnil
      exact hzero (by simp [updateWorkersCnt, hnil])
    obtain ⟨e, es, hes⟩ := exists_cons_of_ne_nil fun hnil => hsome (isEmpty_iff.mpr hnil)
    have hfit := hfits e.2 (by simp [hes])
    have hshare : b.prefillWorkerUrls.length *
        ((b.loadTotal / UInt64.ofNat b.prefillWorkerUrls.length).toNat + 1) ≤
        b.loadTotal.toNat + b.prefillWorkerUrls.length := by
      rw [UInt64.toNat_div, UInt64.toNat_ofNat', Nat.mod_eq_of_lt (by omega), Nat.mul_succ]
      exact Nat.add_le_add_right (Nat.mul_div_le _ _) _
    have hfill := @tiles_fillBuckets (b.loadTotal / UInt64.ofNat b.prefillWorkerUrls.length) 0 0 _
      ((b.tReqLoads.entries.map Sigma.snd).mergeSort fun x y => decide (x ≤ y)) hne
      (by rw [UInt64.toNat_zero]; omega) fun load hload => by
        have := hfits load (mem_mergeSort.mp hload)
        omega
    exact { h with workers := hfill.1, tiles := fun _ => hfill.2 }

/-- Loads of a window that are this small fit. -/
theorem Tiled.fits (h : b.Tiled) (hload : b.Loaded) : b.Fits := by
  intro load hmem
  have hle := hload.le hmem
  have hsmall := hload.small
  have hfew := h.few
  rw [hload.total]
  omega

theorem loaded_adjustBoundary (h : b.Loaded) : b.adjustBoundary.Loaded := by
  unfold adjustBoundary
  dsimp only
  split
  · exact h
  split
  · exact { h with }
  split <;> exact { h with }

theorem RouterStep.tiled (hstep : RouterStep b b') (h : b.Tiled ∧ b.Loaded) : b'.Tiled ∧ b'.Loaded := by
  obtain ⟨h, hload⟩ := h
  cases hstep with
  | init hne hmany hnodup =>
    refine ⟨tiled_initPrefillWorkerUrls hne hnodup hmany h.lMax, ?_⟩
    simp only [initPrefillWorkerUrls, if_neg hne]
    exact { hload with }
  | post info prefillUrl now id hwindow =>
    have hexpire (chars) : (expire now b.requestList { b with charsPerUrl := chars } 0).1.Tiled :=
      .expire { h with }
    exact ⟨{ hexpire _ with }, hload.postProcessRequest hwindow⟩
  | adjust => exact ⟨h.adjustBoundary (h.fits hload), loaded_adjustBoundary hload⟩

/-- **The ranges tile all lengths, and the search finds the one range that has a length**, in every run of a
bucket that processes the lengths of texts. -/
theorem ranges_tile_lengths {period : ℕ} (h : Relation.ReflTransGen RouterStep (new period) b) :
    b.boundary.map Boundary.url = b.prefillWorkerUrls ∧ (b.prefillWorkerUrls ≠ [] → Tiles 0 b.boundary ∧
      ∀ charCount, ∃ r, b.findBoundary charCount = some r.url ∧
        ∀ s, (s ∈ b.boundary ∧ s.lower ≤ charCount ∧ charCount ≤ s.upper) ↔ s = r) := by
  have hinv : b.Tiled ∧ b.Loaded := by
    induction h with
    | refl =>
      exact ⟨⟨(by decide : 4096 ≤ (4096 : UInt64).toNat), Nat.zero_le _, nodup_nil, rfl, fun h => absurd rfl h⟩,
        rfl, (by decide : 0 < 2 ^ 62), nofun⟩
    | tail _ hstep ih => exact hstep.tiled ih
  obtain ⟨htiled, -⟩ := hinv
  refine ⟨htiled.workers, fun hne => ⟨htiled.tiles hne, fun charCount => ?_⟩⟩
  obtain ⟨r, hr, hc⟩ := (htiled.tiles hne).exists_mem (c := charCount) (Nat.zero_le _)
  have hfind : ∀ s ∈ b.boundary, s.lower ≤ charCount ∧ charCount ≤ s.upper →
      b.findBoundary charCount = some s.url :=
    fun s hs hsc => (findBoundary_iff (htiled.tiles hne).ordered.1).mpr ⟨s, hs, rfl, hsc⟩
  refine ⟨r, hfind r hr hc, fun s => ⟨fun ⟨hs, hsc⟩ => ?_, ?_⟩⟩
  · have hsame := some.inj ((hfind s hs hsc).symm.trans (hfind r hr hc))
    exact inj_on_of_nodup_map (htiled.workers ▸ htiled.nodup) hs hr hsame
  · rintro rfl
    exact ⟨hr, hc⟩

/-- Two workers and a request of ten characters. -/
theorem ranges_tile_lengths_two : Tiles 0
    (((new 1000).initPrefillWorkerUrls ["a", "b"]).postProcessRequest 10 "a" 0 0).adjustBoundary.boundary := by
  have hinit : RouterStep (new 1000) ((new 1000).initPrefillWorkerUrls ["a", "b"]) :=
    .init (by decide) (by decide) (by decide)
  have hrun := ((Relation.ReflTransGen.single hinit).tail (.post ⟨some (List.replicate 10 'x'), none⟩ "a" 0 0
    (by decide +kernel))).tail .adjust
  exact ((ranges_tile_lengths hrun).2 (cons_ne_nil _ _)).1

/-- The loads and who has them. -/
def loads (b : Bucket) : List (String × UInt64) := b.charsPerUrl.entries.map fun e => (e.1, e.2)

end Bucket

structure BucketConfig where
  balanceAbsThreshold : UInt64
  balanceRelThreshold : Float32
  bucketAdjustIntervalSecs : ℕ

structure BucketPolicy where
  config : BucketConfig
  buckets : AList fun _ : String => Bucket

/-- What a call of the bucket policy draws. -/
structure BucketDraws where
  random : ℕ
  order : List (String × UInt64) → List (String × UInt64)
  now : ℕ
  id : ℕ

/-- The greatest load is well above the least one. -/
def BucketConfig.isImbalanced (config : BucketConfig) (loads : List UInt64) : Bool :=
  let maxLoad := loads.foldl max 0
  let minLoad := (minByKey id loads).getD 0
  decide (saturatingSub maxLoad minLoad > config.balanceAbsThreshold) &&
    decide (maxLoad.toFloat32 > config.balanceRelThreshold * minLoad.toFloat32)

namespace BucketPolicy

def new (config : BucketConfig) : BucketPolicy := ⟨config, ∅⟩

/-- The bucket of a model, made if there is none. -/
def bucketOf (P : BucketPolicy) (modelKey : String) : Bucket :=
  (P.buckets.lookup modelKey).getD (Bucket.new (P.config.bucketAdjustIntervalSecs * 1000))

/-- `init_prefill_worker_urls`: the workers are grouped by model. -/
def initPrefillWorkerUrls (P : BucketPolicy) (workers : List WorkerView) : BucketPolicy :=
  let modelKeys := (workers.map fun w => normalizeModelKey w.modelId).dedup
  modelKeys.foldl (fun P modelKey =>
    let urls := (workers.filter fun w => normalizeModelKey w.modelId = modelKey).map WorkerView.url
    { P with buckets := P.buckets.insert modelKey ((P.bucketOf modelKey).initPrefillWorkerUrls urls) }) P

variable (P : BucketPolicy)

def addPrefillUrl (worker : WorkerView) : BucketPolicy :=
  let modelKey := normalizeModelKey worker.modelId
  let b := P.bucketOf modelKey
  let urls := if worker.url ∈ b.prefillWorkerUrls then b.prefillWorkerUrls
    else b.prefillWorkerUrls ++ [worker.url]
  { P with buckets := P.buckets.insert modelKey (b.initPrefillWorkerUrls urls) }

def removePrefillUrl (worker : WorkerView) : BucketPolicy :=
  let modelKey := normalizeModelKey worker.modelId
  { P with buckets := Dict.update P.buckets modelKey fun b =>
      let urls := b.prefillWorkerUrls.filter fun u => u ≠ worker.url
      let b := { b with
        prefillWorkerUrls := urls
        charsPerUrl := b.charsPerUrl.erase worker.url
        bucketCnt := UInt64.ofNat urls.length }
      -- without workers the ranges stay as they are
      if urls = [] then b else b.initPrefillWorkerUrls urls }

/-- The URL a request is sent to. -/
def chooseUrl (b : Bucket) (charCount : UInt64) (workers : List WorkerView)
    (healthyIndices : List ℕ) (d : BucketDraws) : Option String := do
  let idx ← pick healthyIndices d.random
  let w ← workers[idx]?
  if P.config.isImbalanced (b.loads.map Prod.snd) then
    some (((minByKey Prod.snd (Dict.arrange d.order b.loads)).map Prod.fst).getD w.url)
  else
    match b.findBoundary charCount with
    | some url => some (if url = "" then w.url else url)
    | none => some w.url

/-- The request is charged to the URL it is sent to. -/
def charge (modelKey : String) (b : Bucket) (charCount : UInt64) (url : String)
    (d : BucketDraws) : BucketPolicy :=
  let b := b.postProcessRequest charCount url d.now d.id
  { P with buckets := P.buckets.insert modelKey b }

def selectWorker (workers : List WorkerView) (info : SelectWorkerInfo) (d : BucketDraws) :
    Option (Option ℕ × BucketPolicy) := do
  let healthyIndices := getHealthyWorkerIndices workers
  match healthyIndices with
  | [] => some (none, P)
  | first :: _ =>
    let charCount := info.charCount
    let w ← workers[first]?
    let modelKey := normalizeModelKey w.modelId
    match P.buckets.lookup modelKey with
    | some b =>
      let prefillUrl ← P.chooseUrl b charCount workers healthyIndices d
      some (findWorkerIndexByUrl workers prefillUrl, P.charge modelKey b charCount prefillUrl d)
    | none =>
      let idx ← pick healthyIndices d.random
      let w ← workers[idx]?
      some (findWorkerIndexByUrl workers w.url, P)

inductive Step : BucketPolicy → BucketPolicy → Prop
  | init {P : BucketPolicy} (workers : List WorkerView) : Step P (P.initPrefillWorkerUrls workers)
  | add {P : BucketPolicy} (worker : WorkerView) : Step P (P.addPrefillUrl worker)
  | remove {P : BucketPolicy} (worker : WorkerView) : Step P (P.removePrefillUrl worker)
  | select {P P' : BucketPolicy} {answer : Option ℕ} (workers : List WorkerView) (info : SelectWorkerInfo)
      (d : BucketDraws) : P.selectWorker workers info d = some (answer, P') → Step P P'
  | adjust {P : BucketPolicy} (modelKey : String) :
      Step P { P with buckets := Dict.update P.buckets modelKey Bucket.adjustBoundary }

/-- The states of a policy created with the configuration. -/
def Reachable (P : BucketPolicy) : Prop := Relation.ReflTransGen Step (new P.config) P

/-- The workers to which the bucket's state assigns a request of this length are in the list: those with the
least load if the loads are imbalanced, else the owner of the range in which the length is found. -/
def Assigns (P : BucketPolicy) (b : Bucket) (charCount : UInt64) (workers : List WorkerView) : Prop :=
  if P.config.isImbalanced (b.loads.map Prod.snd) then
    ∀ p ∈ b.loads, (∀ q ∈ b.loads, p.2 ≤ q.2) → p.1 ∈ workers.map WorkerView.url
  else
    ∀ url, b.findBoundary charCount = some url → url ≠ "" → url ∈ workers.map WorkerView.url

section Selection

variable {P : BucketPolicy} {b : Bucket} {c : UInt64} {workers rest : List WorkerView} {healthyIndices : List ℕ}
  {w : WorkerView}

/-- The fallback worker is one of the list. -/
theorem pick_listed (h : healthyIndices ≠ []) (hlt : ∀ idx ∈ healthyIndices, idx < workers.length)
    (random : ℕ) : ∃ idx w, pick healthyIndices random = some idx ∧ workers[idx]? = some w ∧
      w.url ∈ workers.map WorkerView.url := by
  obtain ⟨idx, hpick, hidx⟩ := pick_spec h random
  have hw : workers[idx]? = some (workers.get ⟨idx, hlt idx hidx⟩) :=
    getElem?_eq_getElem (hlt idx hidx)
  exact ⟨idx, _, hpick, hw, mem_map_of_mem (mem_of_getElem? hw)⟩

/-- The chosen URL is in the list, whatever is drawn, exactly if the assigned workers are. -/
theorem chooseUrl_iff (h : healthyIndices ≠ []) (hlt : ∀ idx ∈ healthyIndices, idx < workers.length) :
    (∀ d, ∃ url, P.chooseUrl b c workers healthyIndices d = some url ∧
      url ∈ workers.map WorkerView.url) ↔ P.Assigns b c workers := by
  unfold Assigns
  by_cases himb : P.config.isImbalanced (b.loads.map Prod.snd) = true
  · rw [if_pos himb]
    constructor
    · intro hall p hp hleast
      -- an iteration that starts with this worker takes it
      obtain ⟨order, rest, horder, hrest⟩ := Dict.exists_arrange_cons hp
      obtain ⟨url, hrun, hurl⟩ := hall ⟨0, order, 0, 0⟩
      obtain ⟨idx, w, hpick, hw, _⟩ := pick_listed h hlt 0
      have hmin := minByKey_cons_of_le Prod.snd fun q hq => hleast q (hrest q hq)
      simp only [chooseUrl, hpick, hw, himb, horder, hmin, bind_eq_bind, bind_some, if_true,
        map_some, getD_some, some.injEq] at hrun
      exact hrun ▸ hurl
    · intro hleast d
      obtain ⟨idx, w, hpick, hw, hurl⟩ := pick_listed h hlt d.random
      refine ⟨((minByKey Prod.snd (Dict.arrange d.order b.loads)).map Prod.fst).getD w.url, ?_, ?_⟩
      · simp only [chooseUrl, hpick, hw, himb, bind_eq_bind, bind_some, if_true]
      · cases hm : minByKey Prod.snd (Dict.arrange d.order b.loads) with
        | none => exact hurl
        | some p =>
          have hne : Dict.arrange d.order b.loads ≠ [] := by
            intro hnil
            rw [hnil] at hm
            cases hm
          obtain ⟨m, hm', hmem, hle⟩ := minByKey_spec Prod.snd hne
          rw [hm] at hm'
          cases hm'
          have hperm := Dict.arrange_perm d.order b.loads
          exact hleast p (hperm.mem_iff.mp hmem) fun q hq => hle q (hperm.mem_iff.mpr hq)
  · rw [if_neg himb]
    constructor
    · intro hall url hfind hne
      obtain ⟨url', hrun, hurl⟩ := hall ⟨0, id, 0, 0⟩
      obtain ⟨idx, w, hpick, hw, _⟩ := pick_listed h hlt 0
      simp only [chooseUrl, hpick, hw, bind_eq_bind, bind_some, if_neg himb, hfind,
        if_neg hne, some.injEq] at hrun
      exact hrun ▸ hurl
    · intro hfound d
      obtain ⟨idx, w, hpick, hw, hurl⟩ := pick_listed h hlt d.random
      simp only [chooseUrl, hpick, hw, bind_eq_bind, bind_some, if_neg himb]
      cases hfind : b.findBoundary c with
      | none => exact ⟨w.url, rfl, hurl⟩
      | some url =>
        by_cases hempty : url = ""
        · exact ⟨w.url, congrArg some (if_pos hempty), hurl⟩
        · exact ⟨url, congrArg some (if_neg hempty), hfound url hfind hempty⟩

theorem selectWorker_of_bucket (h : Routed (w :: rest))
    (hb : P.buckets.lookup (normalizeModelKey w.modelId) = some b) (info : SelectWorkerInfo) (d : BucketDraws) :
    P.selectWorker (w :: rest) info d =
      (P.chooseUrl b info.charCount (w :: rest) (getHealthyWorkerIndices (w :: rest)) d).map fun url =>
        (findWorkerIndexByUrl (w :: rest) url,
          P.charge (normalizeModelKey w.modelId) b info.charCount url d) := by
  obtain ⟨w', rest', healthy, hcons, hhealthy⟩ := h.healthy_cons
  cases hcons
  simp only [selectWorker, hhealthy, getElem?_cons_zero, bind_eq_bind, bind_some, hb]
  rw [map_eq_bind]
  rfl

theorem selectWorker_of_none (h : Routed (w :: rest))
    (hb : P.buckets.lookup (normalizeModelKey w.modelId) = none) (info : SelectWorkerInfo) (d : BucketDraws) :
    ∃ idx, P.selectWorker (w :: rest) info d = some (some idx, P) ∧ idx < (w :: rest).length := by
  obtain ⟨w', rest', healthy, hcons, hhealthy⟩ := h.healthy_cons
  cases hcons
  obtain ⟨idx, v, hpick, hv, hurl⟩ := pick_listed (cons_ne_nil 0 healthy)
    (fun idx hidx => lt_of_mem_healthy (hhealthy ▸ hidx)) d.random
  obtain ⟨i, hi⟩ := findWorkerIndexByUrl_isSome.mpr hurl
  refine ⟨i, ?_, findWorkerIndexByUrl_spec hi⟩
  simp only [selectWorker, hhealthy, getElem?_cons_zero, bind_eq_bind, bind_some, hb, hpick, hv, hi]

/-- **The bucket policy answers exactly if the workers that its state assigns the request to are in the list.**
A model without a bucket is no obstacle. -/
theorem selectWorker_iff (h : Routed (w :: rest)) (info : SelectWorkerInfo) :
    (∀ d, ∃ idx P', P.selectWorker (w :: rest) info d = some (some idx, P') ∧ idx < (w :: rest).length) ↔
      ∀ b, P.buckets.lookup (normalizeModelKey w.modelId) = some b →
        P.Assigns b info.charCount (w :: rest) := by
  have hne : getHealthyWorkerIndices (w :: rest) ≠ [] := by
    obtain ⟨w', rest', healthy, _, hhealthy⟩ := h.healthy_cons
    rw [hhealthy]
    exact cons_ne_nil _ _
  have hchoose := fun b => chooseUrl_iff (P := P) (b := b) (c := info.charCount) hne
    fun idx hidx => lt_of_mem_healthy hidx
  constructor
  · intro hall b hb
    refine (hchoose b).mp fun d => ?_
    obtain ⟨idx, P', hsel, _⟩ := hall d
    rw [selectWorker_of_bucket h hb, map_eq_some_iff] at hsel
    obtain ⟨url, hurl, hans⟩ := hsel
    exact ⟨url, hurl, findWorkerIndexByUrl_isSome.mp ⟨idx, congrArg Prod.fst hans⟩⟩
  · intro hassign d
    cases hb : P.buckets.lookup (normalizeModelKey w.modelId) with
    | none =>
      obtain ⟨idx, hsel, hlt⟩ := selectWorker_of_none h hb info d
      exact ⟨idx, P, hsel, hlt⟩
    | some b =>
      obtain ⟨url, hurl, hlisted⟩ := (hchoose b).mpr (hassign b hb) d
      obtain ⟨i, hi⟩ := findWorkerIndexByUrl_isSome.mpr hlisted
      refine ⟨i, P.charge (normalizeModelKey w.modelId) b info.charCount url d, ?_,
        findWorkerIndexByUrl_spec hi⟩
      rw [selectWorker_of_bucket h hb, hurl, map_some, hi]

end Selection

end BucketPolicy

end SGLang.Gateway
