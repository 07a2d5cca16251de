/-
# SGLang.Disaggregation.Staging — the staging ring of a decode server and its watermark.

Prefill servers write KV chunks into one ring buffer of the decode server. The decode side assigns a
region per chunk and overcommits: an assignment never waits for older regions to be freed. What keeps
a write off data that is still to be scattered is a check on the prefill side. The decode side reports
a watermark, the (round, offset) where the oldest region not yet freed begins, and a prefill server
writes a region of a later round only when the largest watermark it has received is past it.

The ring is read as an unrolled tape whose positions are (round, offset) in lexicographic order. On the
tape the allocator is a ledger issued in order and retired in any order (`Lib.LowWater`), so its
watermark never moves back and nothing held begins below it, however late a prefill server reads it.
It is read only when a region is freed. A region assigned to an empty ring is judged by where the last one
ended, so it may never become writable (`oldest_region_ready`).
-/
import Mathlib.Data.List.TakeWhile
import Mathlib.Data.Prod.Lex
import Mathlib.Order.CompletePartialOrder
import Mathlib.Order.Interval.Set.Disjoint
import SGLang.Lib.Dict
import SGLang.Lib.LowWater

namespace SGLang.Disaggregation

open SGLang.Lib AList Function Prod.Lex Option List

/-! ## `StagingAllocator` -/

/-- A value of `StagingAllocator.allocations`. -/
structure Allocation where
  offset : ℕ
  size : ℕ
  round : ℕ
  deriving DecidableEq, Repr

/-- The bytes of the buffer that an allocation covers. -/
def Allocation.bytes (x : Allocation) : Set ℕ := Set.Ico x.offset (x.offset + x.size)

/-- A watermark `(round, tail_offset)`; Python compares such pairs lexicographically. -/
abbrev Watermark := ℕ ×ₗ ℕ

structure StagingAllocator where
  totalSize : ℕ
  head : ℕ
  round : ℕ
  allocations : AList fun _ : ℕ => Allocation
  allocOrder : List ℕ
  nextAllocId : ℕ
  watermarkRound : ℕ
  watermarkTail : ℕ

namespace StagingAllocator

/-- `StagingAllocator.__init__` for a ring of `totalSizeBytes`. -/
def init (totalSizeBytes : ℕ) : StagingAllocator where
  totalSize := totalSizeBytes
  head := 0
  round := 0
  allocations := ∅
  allocOrder := []
  nextAllocId := 0
  watermarkRound := 0
  watermarkTail := 0

variable (a : StagingAllocator)

/-- The offset, the round and the new head of a region of `requiredBytes`: behind the head if the rest
of the ring is long enough, else at the start of the next round. -/
def place (requiredBytes : ℕ) : ℕ × ℕ × ℕ :=
  let spaceAtEnd := a.totalSize - a.head
  if requiredBytes ≤ spaceAtEnd then (a.head, a.round, a.head + requiredBytes)
  else (0, a.round + 1, requiredBytes)

/-- `StagingAllocator.assign`: the new state with the triple `(alloc_id, offset, round)`, or nothing
for a region longer than the ring. -/
def assign (requiredBytes : ℕ) : StagingAllocator × Option (ℕ × ℕ × ℕ) :=
  if a.totalSize < requiredBytes then (a, none)
  else
    let (offset, round, head) := a.place requiredBytes
    let allocId := a.nextAllocId
    ({ a with
        head := head
        round := round
        nextAllocId := a.nextAllocId + 1
        allocations := a.allocations.insert allocId ⟨offset, requiredBytes, round⟩
        allocOrder := a.allocOrder ++ [allocId] },
      some (allocId, offset, round))

/-- `StagingAllocator.free`; `none` is the `KeyError` of looking up the oldest entry. -/
def free (allocId : ℕ) : Option StagingAllocator :=
  if allocId ∉ a.allocations then some a
  else
    let allocations := a.allocations.erase allocId
    -- entries freed out of order leave the queue only when they reach its front
    let allocOrder := a.allocOrder.dropWhile fun i => decide (i ∉ allocations)
    let a := { a with allocations := allocations, allocOrder := allocOrder }
    if allocations.entries.isEmpty then
      some { a with watermarkRound := a.round, watermarkTail := a.head }
    else
      match allocOrder.head? with
      | none => some a
      | some i =>
        match allocations.lookup i with
        | none => none
        | some x => some { a with watermarkRound := x.round, watermarkTail := x.offset }

/-- `StagingAllocator.get_watermark`. -/
def getWatermark : Watermark := toLex (a.watermarkRound, a.watermarkTail)

/-! ## The allocator is a ledger on the unrolled ring -/

end StagingAllocator

/-- Where an allocation begins and ends on the tape. -/
def Allocation.span (x : Allocation) : Watermark × Watermark :=
  (toLex (x.round, x.offset), toLex (x.round, x.offset + x.size))

namespace StagingAllocator

/-- The ledger that the allocator keeps. -/
def ledger (a : StagingAllocator) : Ledger Watermark where
  cursor := toLex (a.round, a.head)
  floor := a.getWatermark
  held i := (a.allocations.lookup i).map Allocation.span
  next := a.nextAllocId

/-- What holds of the allocator at any time. -/
structure Inv (a : StagingAllocator) : Prop where
  valid : a.ledger.Valid
  sorted : a.allocOrder.Pairwise (· < ·)
  listed : ∀ i ∈ a.allocations, i ∈ a.allocOrder
  issued : ∀ i ∈ a.allocOrder, i < a.nextAllocId
  head_le : a.head ≤ a.totalSize
  within : ∀ i x, a.allocations.lookup i = some x → x.offset + x.size ≤ a.totalSize

variable {a a' : StagingAllocator} {i j : ℕ} {x : Allocation} {live : ℕ → Prop} {order : List ℕ}

theorem held_of_lookup (h : a.allocations.lookup i = some x) : a.ledger.held i = some x.span := by
  show (a.allocations.lookup i).map Allocation.span = _
  rw [h, map_some]

theorem held_ne_none : a.ledger.held i ≠ none ↔ i ∈ a.allocations := by
  show (a.allocations.lookup i).map Allocation.span ≠ none ↔ _
  rw [Ne, map_eq_none_iff, lookup_eq_none, not_not]

theorem init_inv (totalSizeBytes : ℕ) : (init totalSizeBytes).Inv := by
  refine ⟨Ledger.empty_valid (toLex (0, 0)), Pairwise.nil, ?_, ?_, Nat.zero_le _, ?_⟩
  · intro i hi
    exact absurd hi (notMem_empty i)
  · intro i hi
    cases hi
  · intro i x hx
    cases hx

/-! ### `assign` -/

theorem place_cases (a : StagingAllocator) (n : ℕ) :
    n ≤ a.totalSize - a.head ∧ a.place n = (a.head, a.round, a.head + n) ∨
      ¬ n ≤ a.totalSize - a.head ∧ a.place n = (0, a.round + 1, n) := by
  by_cases h : n ≤ a.totalSize - a.head
  · exact .inl ⟨h, if_pos h⟩
  · exact .inr ⟨h, if_neg h⟩

/-- A region begins at or behind the head on the tape, and the head moves to its end. -/
theorem place_spec (a : StagingAllocator) (n : ℕ) {offset round head : ℕ}
    (h : a.place n = (offset, round, head)) :
    head = offset + n ∧ (toLex (a.round, a.head) : Watermark) ≤ toLex (round, offset) := by
  rcases place_cases a n with ⟨_, hp⟩ | ⟨_, hp⟩
  · rw [hp] at h
    cases h
    exact ⟨rfl, le_refl _⟩
  · rw [hp] at h
    cases h
    refine ⟨(Nat.zero_add n).symm, ?_⟩
    rw [toLex_le_toLex]
    exact .inl (Nat.lt_succ_self _)

theorem place_le (hn : ¬ a.totalSize < n) (hh : a.head ≤ a.totalSize) : (a.place n).2.2 ≤ a.totalSize := by
  rcases place_cases a n with ⟨hle, hp⟩ | ⟨_, hp⟩
  · rw [hp]
    show a.head + n ≤ a.totalSize
    omega
  · rw [hp]
    exact Nat.le_of_not_lt hn

theorem assign_inv (inv : a.Inv) (n : ℕ) :
    (a.assign n).1.Inv ∧ ((a.assign n).1 = a ∨ Ledger.Step a.ledger (a.assign n).1.ledger) := by
  unfold assign
  by_cases hn : a.totalSize < n
  · rw [if_pos hn]
    exact ⟨inv, .inl rfl⟩
  rw [if_neg hn]
  obtain ⟨offset, round, head, hp⟩ : ∃ o r h, a.place n = (o, r, h) := ⟨_, _, _, rfl⟩
  obtain ⟨hhead, hle⟩ := place_spec a n hp
  have hfit : head ≤ a.totalSize := by
    have h := place_le hn inv.head_le
    rw [hp] at h
    exact h
  simp only [hp]
  set x : Allocation := ⟨offset, n, round⟩ with hx
  generalize ha' : ({ a with
    head := head, round := round, nextAllocId := a.nextAllocId + 1,
    allocations := a.allocations.insert a.nextAllocId x,
    allocOrder := a.allocOrder ++ [a.nextAllocId] } : StagingAllocator) = a'
  have hspan : (toLex (round, offset) : Watermark) ≤ toLex (round, head) := by
    rw [toLex_le_toLex]
    exact .inr ⟨rfl, by show offset ≤ head; omega⟩
  have hledger : a'.ledger = a.ledger.issue (toLex (round, offset)) (toLex (round, head)) := by
    subst ha'
    unfold ledger Ledger.issue
    congr 1
    refine eq_update_iff.mpr ⟨?_, fun i hi => by rw [lookup_insert_ne hi]⟩
    rw [lookup_insert, map_some, hhead]
    rfl
  have hstep : Ledger.Step a.ledger a'.ledger := by
    rw [hledger]
    exact .issue _ _ hle hspan
  refine ⟨⟨hstep.valid inv.valid, ?_, ?_, ?_, ?_, ?_⟩, .inr hstep⟩
  · subst ha'
    apply pairwise_append.mpr
    refine ⟨inv.sorted, pairwise_singleton _ _, ?_⟩
    intro i hi j hj
    rw [mem_singleton] at hj
    subst hj
    exact inv.issued i hi
  · subst ha'
    intro i hi
    rcases (mem_insert a.allocations).mp hi with rfl | hi
    · exact mem_append_right _ (mem_singleton_self _)
    · exact mem_append_left _ (inv.listed i hi)
  · subst ha'
    intro i hi
    rcases mem_append.mp hi with hi | hi
    · exact Nat.lt_succ_of_lt (inv.issued i hi)
    · rw [mem_singleton.mp hi]
      exact Nat.lt_succ_self _
  · subst ha'
    exact hfit
  · subst ha'
    intro i y hy
    rcases Dict.lookup_insert_iff.mp hy with ⟨_, rfl⟩ | ⟨_, hy⟩
    · show offset + n ≤ a.totalSize
      omega
    · exact inv.within i y hy

/-! ### `free` -/

theorem ledger_free (a : StagingAllocator) (allocId wr wt : ℕ) (order : List ℕ) : ledger { a with
      allocations := a.allocations.erase allocId, allocOrder := order, watermarkRound := wr,
        watermarkTail := wt } =
      a.ledger.retire allocId (toLex (wr, wt)) := by
  unfold ledger Ledger.retire
  congr 1
  refine eq_update_iff.mpr ⟨?_, fun i hi => by rw [lookup_erase_ne hi]⟩
  rw [lookup_erase, map_none]

/-- The front of the queue after the pops is the oldest entry that is still allocated. -/
theorem head_oldest [DecidablePred live] (hs : order.Pairwise (· < ·)) (hl : ∀ j, live j → j ∈ order)
    (hi : (order.dropWhile fun j => decide (¬ live j)).head? = some i) :
    live i ∧ ∀ j, live j → i ≤ j := by
  simp only [decide_not, ← find?_eq_head?_dropWhile_not, find?_eq_some_iff_append] at hi
  obtain ⟨hlive, popped, rest, rfl, hpopped⟩ := hi
  refine ⟨of_decide_eq_true hlive, ?_⟩
  intro j hj
  rcases mem_append.mp (hl j hj) with hmem | hmem
  · simpa [hj] using hpopped j hmem
  rcases mem_cons.mp hmem with rfl | hmem
  · exact le_refl _
  · exact le_of_lt (rel_of_pairwise_cons (pairwise_append.mp hs).2.1 hmem)

theorem head_isSome [DecidablePred live] (hj : live j) (hmem : j ∈ order) :
    ∃ i, (order.dropWhile fun j => decide (¬ live j)).head? = some i := by
  have hne : (order.dropWhile fun j => decide (¬ live j)) ≠ [] := by
    intro h
    have hall := dropWhile_eq_nil_iff.mp h j hmem
    exact absurd hj (of_decide_eq_true hall)
  exact ⟨_, head?_eq_some_head hne⟩

/-- What `free` does to an allocated entry: it never raises, and the watermark it leaves is the
low-water mark of the entries that remain. -/
theorem free_spec (inv : a.Inv) {allocId : ℕ} (hmem : allocId ∈ a.allocations) :
    ∃ wr wt, Ledger.IsLow (update a.ledger.held allocId none) a.ledger.cursor (toLex (wr, wt)) ∧
      a.free allocId = some { a with
        allocations := a.allocations.erase allocId
        allocOrder := a.allocOrder.dropWhile fun i => decide (i ∉ a.allocations.erase allocId)
        watermarkRound := wr
        watermarkTail := wt } := by
  have hiff : ∀ i, update a.ledger.held allocId none i ≠ none ↔ i ∈ a.allocations.erase allocId := by
    intro i
    rw [mem_erase]
    by_cases hi : i = allocId
    · simp [hi]
    · rw [update_of_ne hi, held_ne_none]
      exact ⟨fun h => ⟨hi, h⟩, fun h => h.2⟩
  unfold free
  rw [if_neg (not_not.mpr hmem)]
  by_cases hempty : (a.allocations.erase allocId).entries.isEmpty = true
  · refine ⟨a.round, a.head, Ledger.isLow_none ?_, if_pos hempty⟩
    intro i
    by_contra h
    have hi := (hiff i).mp h
    rw [AList.mem_keys, AList.keys, isEmpty_iff.mp hempty] at hi
    cases hi
  · obtain ⟨j, hj⟩ : ∃ j, j ∈ a.allocations.erase allocId := by
      rcases hes : (a.allocations.erase allocId).entries with _ | ⟨e, es⟩
      · exact absurd (isEmpty_iff.mpr hes) hempty
      · refine ⟨e.1, ?_⟩
        rw [AList.mem_keys, AList.keys, hes]
        exact mem_cons_self
    have hlisted : ∀ j, j ∈ a.allocations.erase allocId → j ∈ a.allocOrder := by
      intro j hj
      exact inv.listed j (mem_erase.mp hj).2
    obtain ⟨i, hi⟩ : ∃ i, (a.allocOrder.dropWhile fun j =>
        decide (¬ j ∈ a.allocations.erase allocId)).head? = some i := head_isSome hj (hlisted j hj)
    obtain ⟨hlive, hmin⟩ := head_oldest inv.sorted hlisted hi
    obtain ⟨x, hx⟩ := isSome_iff_exists.mp (lookup_isSome.mpr hlive)
    refine ⟨x.round, x.offset, ?_, ?_⟩
    · apply inv.valid.isLow_oldest
      · rw [update_of_ne (mem_erase.mp hlive).1]
        exact held_of_lookup (Dict.lookup_erase_iff.mp hx).2
      · intro j hj
        exact hmin j ((hiff j).mp hj)
    · simp only [if_neg hempty, hi, hx]

theorem free_inv (inv : a.Inv) (allocId : ℕ) :
    ∃ a', a.free allocId = some a' ∧ a'.Inv ∧ (a' = a ∨ Ledger.Step a.ledger a'.ledger) := by
  by_cases hmem : allocId ∈ a.allocations
  · obtain ⟨wr, wt, hlow, hfree⟩ := free_spec inv hmem
    refine ⟨_, hfree, ?_, .inr ?_⟩
    · refine ⟨?_, ?_, ?_, ?_, inv.head_le, ?_⟩
      · rw [ledger_free]
        exact inv.valid.retire hlow
      · exact inv.sorted.sublist (dropWhile_sublist _)
      · -- a pop never drops an entry that is still allocated
        intro i hi
        have hmem := inv.listed i (mem_erase.mp hi).2
        rw [← takeWhile_append_dropWhile
          (p := fun i => decide (i ∉ a.allocations.erase allocId)) (l := a.allocOrder)] at hmem
        rcases mem_append.mp hmem with h | h
        · have hdropped := mem_takeWhile_imp h
          exact absurd hi (of_decide_eq_true hdropped)
        · exact h
      · intro i hi
        exact inv.issued i ((dropWhile_sublist _).subset hi)
      · intro i x hx
        exact inv.within i x (Dict.lookup_erase_iff.mp hx).2
    · rw [ledger_free]
      exact .retire _ _ hlow
  · refine ⟨a, ?_, inv, .inl rfl⟩
    unfold free
    rw [if_pos hmem]

/-- The watermark is below every region allocated, on the tape. -/
theorem Inv.watermark_le (inv : a.Inv) (hx : a.allocations.lookup i = some x) :
    a.getWatermark ≤ toLex (x.round, x.offset) :=
  (inv.valid.within i _ _ (held_of_lookup hx)).1

/-- Of two regions, the one assigned first ends on the tape where or before the other begins. -/
theorem Inv.assigned_before (inv : a.Inv) {y : Allocation} (hij : i < j) (hx : a.allocations.lookup i = some x)
    (hy : a.allocations.lookup j = some y) :
    x.round < y.round ∨ x.round = y.round ∧ x.offset + x.size ≤ y.offset := by
  have h := inv.valid.ordered i j _ _ _ _ hij (held_of_lookup hx) (held_of_lookup hy)
  exact toLex_le_toLex.mp h

end StagingAllocator

/-! ## The prefill side -/

/-- `PrefillStagingContext.remote_watermarks`: the largest watermark received from each session. -/
abbrev RemoteWatermarks := AList fun _ : String => Watermark

variable (remote : RemoteWatermarks)

/-- `remote_watermarks.get(session_id, (0, 0))`. -/
def RemoteWatermarks.get (sessionId : String) : Watermark :=
  (AList.lookup sessionId remote).getD (toLex (0, 0))

/-- The `WATERMARK` branch of `bootstrap_thread`. -/
def receiveWatermark (wmSession : String) (wm : Watermark) : RemoteWatermarks :=
  if RemoteWatermarks.get remote wmSession < wm then AList.insert wmSession wm remote else remote

/-- `is_watermark_ready`. -/
def isWatermarkReady (sessionId : String) (allocRound allocEnd : ℕ) : Bool :=
  if allocRound ≤ 0 then true
  else
    let prevRound := allocRound - 1
    let (wmRound, wmTail) := ofLex (RemoteWatermarks.get remote sessionId)
    decide (prevRound < wmRound ∨ prevRound = wmRound ∧ allocEnd ≤ wmTail)

theorem get_receiveWatermark (remote : RemoteWatermarks) (session sessionId : String) (wm : Watermark) :
    RemoteWatermarks.get (receiveWatermark remote session wm) sessionId =
      if sessionId = session then max (RemoteWatermarks.get remote session) wm
      else RemoteWatermarks.get remote sessionId := by
  unfold receiveWatermark
  by_cases hlt : RemoteWatermarks.get remote session < wm
  · rw [if_pos hlt, max_eq_right hlt.le]
    by_cases hs : sessionId = session
    · rw [if_pos hs, hs, RemoteWatermarks.get, lookup_insert, getD_some]
    · rw [if_neg hs, RemoteWatermarks.get, lookup_insert_ne hs]
      rfl
  · rw [if_neg hlt, max_eq_left (not_lt.mp hlt)]
    by_cases hs : sessionId = session
    · rw [if_pos hs, hs]
    · rw [if_neg hs]

/-- A region that the check accepts lies, in the round before it, below the watermark read. -/
theorem isWatermarkReady_iff {remote : RemoteWatermarks} {sessionId : String} {r e : ℕ} :
    isWatermarkReady remote sessionId r e = true ↔
      r = 0 ∨ (toLex (r - 1, e) : Watermark) ≤ RemoteWatermarks.get remote sessionId := by
  unfold isWatermarkReady
  by_cases hr : r ≤ 0
  · simp [Nat.le_zero.mp hr]
  · have hr0 : r ≠ 0 := fun h => hr (Nat.le_of_eq h)
    simp only [if_neg hr, decide_eq_true_eq, hr0, false_or]
    rw [le_iff]
    exact Iff.rfl

/-! ## The decode server, the network and the prefill servers -/

/-- A decode server with its prefill servers `ι`. `reported` lists what `get_watermark` returned, the
oldest first: the messages that may be on their way. -/
structure Staging (ι : Type) where
  allocator : StagingAllocator
  reported : List Watermark
  remoteWatermarks : ι → RemoteWatermarks

section Runs

variable {ι : Type} [DecidableEq ι]

/-- Everything that can happen, in any order. A message is delivered at any time after it was sent, to
any prefill server, never, once or again; a prefill server also hears from other decode sessions. -/
inductive Staging.Step (sessionId : String) (s : Staging ι) : Staging ι → Prop
  | assign (requiredBytes : ℕ) :
      Step sessionId s { s with allocator := (s.allocator.assign requiredBytes).1 }
  | free (allocId : ℕ) (a : StagingAllocator) (h : s.allocator.free allocId = some a) :
      Step sessionId s { s with allocator := a }
  | getWatermark :
      Step sessionId s { s with reported := s.reported ++ [s.allocator.getWatermark] }
  | deliver (p : ι) (wm : Watermark) (h : wm ∈ s.reported) :
      Step sessionId s { s with
        remoteWatermarks := Function.update s.remoteWatermarks p
          (receiveWatermark (s.remoteWatermarks p) sessionId wm) }
  | deliverOther (p : ι) (wmSession : String) (wm : Watermark) (h : wmSession ≠ sessionId) :
      Step sessionId s { s with
        remoteWatermarks := Function.update s.remoteWatermarks p
          (receiveWatermark (s.remoteWatermarks p) wmSession wm) }

/-- A ring of `totalSizeBytes` in which nothing was assigned, and prefill servers that heard nothing. -/
def Staging.init (ι : Type) (totalSizeBytes : ℕ) : Staging ι where
  allocator := StagingAllocator.init totalSizeBytes
  reported := []
  remoteWatermarks := fun _ => ∅

/-- The states of the runs of a ring of `totalSizeBytes`. -/
def Staging.Reachable (sessionId : String) (totalSizeBytes : ℕ) : Staging ι → Prop :=
  Relation.ReflTransGen (Staging.Step sessionId) (Staging.init ι totalSizeBytes)

/-- No watermark reported or received is past the allocator's own, and they were reported in order. -/
structure Staging.Inv (sessionId : String) (s : Staging ι) : Prop where
  allocator : s.allocator.Inv
  reported_le : ∀ wm ∈ s.reported, wm ≤ s.allocator.getWatermark
  reported_sorted : s.reported.Pairwise (· ≤ ·)
  received_le : ∀ p, RemoteWatermarks.get (s.remoteWatermarks p) sessionId ≤ s.allocator.getWatermark

variable {sessionId : String} {s s' : Staging ι} {totalSizeBytes : ℕ}

omit [DecidableEq ι] in
theorem Staging.init_inv : (Staging.init ι totalSizeBytes).Inv sessionId := by
  refine ⟨StagingAllocator.init_inv totalSizeBytes, ?_, Pairwise.nil, fun _ => le_refl _⟩
  intro wm hwm
  cases hwm

omit [DecidableEq ι] in
/-- A step of the allocator alone: what was heard of it stays below its watermark. -/
theorem Staging.Inv.advance (inv : s.Inv sessionId) {a : StagingAllocator} (ha : a.Inv)
    (h : a = s.allocator ∨ Ledger.Step s.allocator.ledger a.ledger) :
    ({ s with allocator := a } : Staging ι).Inv sessionId := by
  have hle : s.allocator.getWatermark ≤ a.getWatermark := by
    rcases h with rfl | h
    · exact le_refl _
    · exact h.floor_le inv.allocator.valid
  refine ⟨ha, ?_, inv.reported_sorted, fun p => (inv.received_le p).trans hle⟩
  intro wm hwm
  exact (inv.reported_le wm hwm).trans hle

/-- A message changes what one prefill server knows; it is harmless if it is not past the allocator's
watermark or comes from another session. -/
theorem Staging.Inv.receive (inv : s.Inv sessionId) (p : ι) {session : String} {wm : Watermark}
    (h : session = sessionId → wm ≤ s.allocator.getWatermark) :
    ({ s with
      remoteWatermarks := update s.remoteWatermarks p
        (receiveWatermark (s.remoteWatermarks p) session wm) } : Staging ι).Inv sessionId := by
  refine ⟨inv.allocator, inv.reported_le, inv.reported_sorted,
    (forall_update_iff s.remoteWatermarks fun _ w => w.get sessionId ≤ _).mpr ⟨?_, fun q _ =>
      inv.received_le q⟩⟩
  rw [get_receiveWatermark]
  by_cases hs : sessionId = session
  · subst hs
    rw [if_pos rfl]
    exact max_le (inv.received_le p) (h rfl)
  · rw [if_neg hs]
    exact inv.received_le p

theorem Staging.Step.inv (h : Staging.Step sessionId s s') (inv : s.Inv sessionId) : s'.Inv sessionId := by
  cases h with
  | assign n =>
    obtain ⟨ha, hstep⟩ := StagingAllocator.assign_inv inv.allocator n
    exact inv.advance ha hstep
  | free allocId a hfree =>
    obtain ⟨a', hfree', ha, hstep⟩ := StagingAllocator.free_inv inv.allocator allocId
    rw [hfree] at hfree'
    cases hfree'
    exact inv.advance ha hstep
  | getWatermark =>
    refine ⟨inv.allocator, ?_, ?_, inv.received_le⟩
    · intro wm hwm
      rcases mem_append.mp hwm with hwm | hwm
      · exact inv.reported_le wm hwm
      · rw [mem_singleton.mp hwm]
    · apply pairwise_append.mpr
      refine ⟨inv.reported_sorted, pairwise_singleton _ _, ?_⟩
      intro wm hwm wm' hwm'
      rw [mem_singleton.mp hwm']
      exact inv.reported_le wm hwm
  | deliver p wm hwm =>
    apply inv.receive p
    intro _
    exact inv.reported_le wm hwm
  | deliverOther p session wm hne =>
    apply inv.receive p
    intro h
    exact absurd h hne

theorem Staging.Reachable.inv (h : Staging.Reachable sessionId totalSizeBytes s) : s.Inv sessionId := by
  induction h with
  | refl => exact Staging.init_inv
  | tail _ hstep ih => exact hstep.inv ih

omit [DecidableEq ι] in
/-- A region that the check accepts keeps clear of the regions assigned before it and still held. -/
theorem Staging.Inv.disjoint (inv : s.Inv sessionId) {p : ι} {i j : ℕ} {x y : Allocation}
    (hx : s.allocator.allocations.lookup i = some x) (hy : s.allocator.allocations.lookup j = some y)
    (hij : i < j)
    (hready : isWatermarkReady (s.remoteWatermarks p) sessionId y.round (y.offset + y.size) = true) :
    Disjoint y.bytes x.bytes := by
  rcases inv.allocator.assigned_before hij hx hy with hround | ⟨_, hend⟩
  · -- an older round: the watermark lies between the two regions
    rcases isWatermarkReady_iff.mp hready with h0 | hle
    · omega
    have hmark := (hle.trans (inv.received_le p)).trans (inv.allocator.watermark_le hx)
    rw [toLex_le_toLex] at hmark
    apply Set.Ico_disjoint_Ico.mpr
    omega
  · -- the same round: regions of one round follow each other
    apply Set.Ico_disjoint_Ico.mpr
    omega

/-- **Staged writes keep off live data.** In every state of every run, a region that `is_watermark_ready`
accepts at any prefill server, and that is not freed, is disjoint from every region assigned before it
(allocation ids are given in the order of assignment) and not freed; and the watermarks that
`get_watermark` returned are in order. -/
theorem staged_writes_disjoint (h : Staging.Reachable sessionId totalSizeBytes s) :
    (∀ (p : ι) (i j : ℕ) (x y : Allocation), s.allocator.allocations.lookup i = some x →
      s.allocator.allocations.lookup j = some y → i < j →
      isWatermarkReady (s.remoteWatermarks p) sessionId y.round (y.offset + y.size) = true →
      Disjoint y.bytes x.bytes) ∧
    s.reported.Pairwise (· ≤ ·) := by
  refine ⟨?_, h.inv.reported_sorted⟩
  intro p i j x y hx hy hij hready
  exact h.inv.disjoint hx hy hij hready

end Runs

/-- A ring of ten bytes: regions `[0, 6)` and `[6, 10)`, then `[0, 5)` in the next round; the first is
freed and the watermark `(0, 6)` reaches the prefill server. -/
def wrappedRing : Staging Unit where
  allocator :=
    { totalSize := 10, head := 5, round := 1
      allocations := (∅ : AList fun _ : ℕ => Allocation) |>.insert 0 ⟨0, 6, 0⟩
        |>.insert 1 ⟨6, 4, 0⟩ |>.insert 2 ⟨0, 5, 1⟩ |>.erase 0
      allocOrder := [1, 2], nextAllocId := 3, watermarkRound := 0, watermarkTail := 6 }
  reported := [toLex (0, 6)]
  remoteWatermarks := Function.update (fun _ => ∅) ()
    (receiveWatermark ∅ "decode" (toLex (0, 6)))

theorem wrappedRing_reachable : Staging.Reachable "decode" 10 wrappedRing := by
  refine Relation.ReflTransGen.refl.tail (.assign 6) |>.tail (.assign 4) |>.tail (.assign 5)
    |>.tail (.free 0 wrappedRing.allocator ?_) |>.tail .getWatermark
    |>.tail (.deliver () (toLex (0, 6)) ?_)
  · rfl
  · exact mem_singleton_self _

/-- The region of the second round is accepted while `[6, 10)` of the first is still held. -/
theorem staged_writes_disjoint_wrapped :
    isWatermarkReady (wrappedRing.remoteWatermarks ()) "decode" 1 5 = true ∧
      Disjoint (Allocation.bytes ⟨0, 5, 1⟩) (Allocation.bytes ⟨6, 4, 0⟩) :=
  ⟨by decide, (staged_writes_disjoint wrappedRing_reachable).1 () 1 2 ⟨6, 4, 0⟩ ⟨0, 5, 1⟩ rfl rfl
    (by decide) (by decide)⟩

/-! ## Progress -/

namespace StagingAllocator

variable {a a' : StagingAllocator} {allocId n totalSizeBytes : ℕ} {x : Allocation} {wm : Watermark}

/-- The oldest region held may be written under the watermark of now. -/
def OldestReady (a : StagingAllocator) : Prop :=
  ∀ i x, a.allocations.lookup i = some x → (∀ j ∈ a.allocations, i ≤ j) →
    ∀ (remote : RemoteWatermarks) sessionId, RemoteWatermarks.get remote sessionId = a.getWatermark →
    isWatermarkReady remote sessionId x.round (x.offset + x.size) = true

/-- A region assigned while none is held lies behind the head, or in the next round below it. -/
def Clear (a : StagingAllocator) (requiredBytes : ℕ) : Prop :=
  (∀ i, i ∉ a.allocations) → requiredBytes ≤ a.totalSize - a.head ∨ requiredBytes ≤ a.head

/-- The calls that assign clear regions only, and free any. -/
inductive ClearStep (a : StagingAllocator) : StagingAllocator → Prop
  | assign (requiredBytes : ℕ) (h : a.Clear requiredBytes) : ClearStep a (a.assign requiredBytes).1
  | free (allocId : ℕ) (a' : StagingAllocator) (h : a.free allocId = some a') : ClearStep a a'

/-- The watermark is past the oldest region's place in the round before, and at the head if none is held. -/
structure Unstalled (a : StagingAllocator) : Prop where
  inv : a.Inv
  idle : (∀ i, i ∉ a.allocations) → a.getWatermark = toLex (a.round, a.head)
  oldest : ∀ i x, a.allocations.lookup i = some x → (∀ j ∈ a.allocations, i ≤ j) →
    x.round = 0 ∨ toLex (x.round - 1, x.offset + x.size) ≤ a.getWatermark

/-- A watermark at or behind the beginning of a region is past its place in the round before. -/
theorem past_of_begin_le (h : toLex (x.round, x.offset) ≤ wm) (e : ℕ) :
    x.round = 0 ∨ toLex (x.round - 1, e) ≤ wm := by
  rcases Nat.eq_zero_or_pos x.round with h0 | hpos
  · exact .inl h0
  · refine .inr (le_trans ?_ h)
    rw [toLex_le_toLex]
    exact .inl (Nat.sub_lt hpos Nat.one_pos)

theorem oldestReady_iff : a.OldestReady ↔ ∀ i x, a.allocations.lookup i = some x →
    (∀ j ∈ a.allocations, i ≤ j) → x.round = 0 ∨ toLex (x.round - 1, x.offset + x.size) ≤ a.getWatermark := by
  constructor
  · intro h i x hx hmin
    have hget : RemoteWatermarks.get (insert "" a.getWatermark ∅) "" = a.getWatermark := by
      rw [RemoteWatermarks.get, lookup_insert, getD_some]
    have hready := h i x hx hmin _ "" hget
    rwa [isWatermarkReady_iff, hget] at hready
  · intro h i x hx hmin remote sessionId hget
    rw [isWatermarkReady_iff, hget]
    exact h i x hx hmin

theorem assign_eq (hn : n ≤ a.totalSize) : ∃ x : Allocation, x.size = n ∧
    (a.assign n).1.allocations = a.allocations.insert a.nextAllocId x ∧
    (a.assign n).1.getWatermark = a.getWatermark ∧
    (n ≤ a.totalSize - a.head ∧ x.round = a.round ∧ x.offset = a.head ∨
      ¬ n ≤ a.totalSize - a.head ∧ x.round = a.round + 1 ∧ x.offset = 0) := by
  unfold assign
  rw [if_neg (Nat.not_lt.mpr hn)]
  rcases place_cases a n with ⟨hfit, hp⟩ | ⟨hwrap, hp⟩
  · rw [hp]
    exact ⟨_, rfl, rfl, rfl, .inl ⟨hfit, rfl, rfl⟩⟩
  · rw [hp]
    exact ⟨_, rfl, rfl, rfl, .inr ⟨hwrap, rfl, rfl⟩⟩

/-- The first region of an empty ring can be written exactly if it is clear. -/
theorem assign_ready_iff (h : a.Unstalled) (hn : n ≤ a.totalSize) : (a.assign n).1.OldestReady ↔ a.Clear n := by
  obtain ⟨x, rfl, hallocs, hwm, hplace⟩ := assign_eq hn
  rw [oldestReady_iff, hallocs, hwm]
  constructor
  · intro hready hidle
    have hpast := hready a.nextAllocId x (lookup_insert _) fun j hj =>
      le_of_eq (((mem_insert _).mp hj).resolve_right (hidle j)).symm
    rcases hplace with ⟨hfit, _⟩ | ⟨_, hround, hoffset⟩
    · exact .inl hfit
    · rw [hround, hoffset, h.idle hidle, toLex_le_toLex] at hpast
      exact .inr (by simpa using hpast)
  · intro hclear i y hy hmin
    rcases Dict.lookup_insert_iff.mp hy with ⟨rfl, rfl⟩ | ⟨_, hy⟩
    · have hidle : ∀ j, j ∉ a.allocations := by
        intro j hj
        have hle := hmin j ((mem_insert _).mpr (.inr hj))
        exact absurd (h.inv.issued j (h.inv.listed j hj)) (Nat.not_lt.mpr hle)
      rw [h.idle hidle]
      rcases hplace with ⟨_, hround, hoffset⟩ | ⟨hwrap, hround, hoffset⟩
      · exact past_of_begin_le (le_of_eq (by rw [hround, hoffset])) _
      · rw [hround, hoffset, Nat.zero_add, Nat.add_sub_cancel, toLex_le_toLex]
        exact .inr (.inr ⟨rfl, (hclear hidle).resolve_left hwrap⟩)
    · exact h.oldest i y hy fun j hj => hmin j ((mem_insert _).mpr (.inr hj))

theorem ClearStep.unstalled (hstep : ClearStep a a') (h : a.Unstalled) : a'.Unstalled := by
  cases hstep with
  | assign n hclear =>
    by_cases hn : a.totalSize < n
    · rw [StagingAllocator.assign, if_pos hn]
      exact h
    · have hready := (assign_ready_iff h (Nat.le_of_not_lt hn)).mpr hclear
      refine ⟨(assign_inv h.inv _).1, fun hidle => ?_, oldestReady_iff.mp hready⟩
      obtain ⟨x, _, hallocs, _⟩ := assign_eq (Nat.le_of_not_lt hn)
      rw [hallocs] at hidle
      exact absurd ((mem_insert _).mpr (.inl rfl)) (hidle a.nextAllocId)
  | free allocId _ hfree =>
    by_cases hmem : allocId ∈ a.allocations
    · obtain ⟨_, hfree₁, inv, _⟩ := free_inv h.inv allocId
      obtain ⟨wr, wt, hlow, hfree₂⟩ := free_spec h.inv hmem
      rw [hfree] at hfree₁ hfree₂
      cases hfree₁
      cases hfree₂
      refine ⟨inv, fun hidle => ?_, fun i x hx hmin => past_of_begin_le ?_ _⟩
      · rcases hlow.attained with hcursor | ⟨j, t, hj⟩
        · exact hcursor
        · obtain ⟨hne, hj⟩ := Ledger.retire_held (f := toLex (wr, wt)) hj
          exact absurd (mem_erase.mpr ⟨hne, held_ne_none.mp (hj ▸ some_ne_none _)⟩) (hidle j)
      · have hheld := held_of_lookup (Dict.lookup_erase_iff.mp hx).2
        obtain ⟨_, hforward, hend⟩ := h.inv.valid.within i _ _ hheld
        rcases hlow.attained with hcursor | ⟨j, t, hj⟩
        · exact (hforward.trans hend).trans_eq hcursor.symm
        · obtain ⟨hne, hj⟩ := Ledger.retire_held (f := toLex (wr, wt)) hj
          have hle := hmin j (mem_erase.mpr ⟨hne, held_ne_none.mp (hj ▸ some_ne_none _)⟩)
          rcases Nat.eq_or_lt_of_le hle with rfl | hlt
          · rw [hheld] at hj
            cases hj
            exact le_refl _
          · exact hforward.trans (h.inv.valid.ordered i j _ _ _ _ hlt hheld hj)
    · rw [StagingAllocator.free, if_pos hmem] at hfree
      cases hfree
      exact h

/-- **In every run that assigns clear regions only, the oldest region held can be written.** The first region
that is not clear cannot. -/
theorem oldest_region_ready (h : Relation.ReflTransGen ClearStep (init totalSizeBytes) a) :
    a.OldestReady ∧ ∀ n ≤ a.totalSize, (a.assign n).1.OldestReady ↔ a.Clear n := by
  have hun : a.Unstalled := by
    induction h with
    | refl => exact ⟨init_inv _, fun _ => rfl, nofun⟩
    | tail _ hstep ih => exact hstep.unstalled ih
  exact ⟨oldestReady_iff.mpr hun.oldest, fun n hn => assign_ready_iff hun hn⟩

/-- A ring of ten bytes that held `[0, 6)`: a region of six bytes comes to lie where it was. -/
theorem oldest_region_ready_of_six : ∃ a, ((init 10).assign 6).1.free 0 = some a ∧
    (a.assign 6).1.OldestReady := by
  obtain ⟨a, hfree⟩ : ∃ a, ((init 10).assign 6).1.free 0 = some a := ⟨_, rfl⟩
  have hrun : Relation.ReflTransGen ClearStep (init 10) a :=
    (Relation.ReflTransGen.single (.assign 6 fun _ => .inl (by decide))).tail (.free 0 a hfree)
  refine ⟨a, hfree, ((oldest_region_ready hrun).2 6 ?_).mpr fun _ => .inr ?_⟩
  · cases hfree
    decide
  · cases hfree
    decide

/-- A region of seven bytes is never writable, although nothing else is held. -/
theorem oldest_region_stalled : ∃ a, ((init 10).assign 6).1.free 0 = some a ∧ ¬ (a.assign 7).1.OldestReady := by
  refine ⟨_, rfl, fun h => ?_⟩
  rcases oldestReady_iff.mp h 1 ⟨0, 7, 1⟩ rfl (by decide) with h0 | hle
  · cases h0
  · exact absurd hle (by decide)

end StagingAllocator

end SGLang.Disaggregation
