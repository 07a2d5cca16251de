/-
# SGLang.Sampling.Penalizers — sampling penalties over batches that change.

Four penalizers keep one row per request of a batch: what the tokens that the request has put out so far make of
its penalties. Rows are made when a batch with a request that needs them is prefilled, or when such a batch is
merged; they are cut and joined as the batch is, and dropped when no request of the batch needs them any more.

The model is the batches, the requests that wait, and what happens to them: prefill (chunked or not), merging,
also of a prefill with a decode batch, filtering, decoding, and retraction. `penalties_follow_output` says that
what is applied to a row is what the request's parameters and its output say. It needs that a request is
prefilled without output, or with parameters that penalise nothing: rows are made anew at a prefill, and what a
retracted request has put out before is not fed to them.
-/
import Mathlib.Algebra.Order.Ring.Rat
import Mathlib.Data.List.Count
import Mathlib.Data.List.Forall2
import Mathlib.Data.List.Induction
import Mathlib.Tactic.Ring

namespace SGLang.Sampling

open List Option
open Relation (ReflTransGen)

/-! ## `penaltylib` -/

structure SamplingParams where
  frequencyPenalty : ℚ
  presencePenalty : ℚ
  repetitionPenalty : ℚ
  minNewTokens : ℕ
  stopTokenIds : List ℕ
  additionalStopTokenIds : List ℕ
  eosTokenId : ℕ
  deriving DecidableEq, Repr

/-- What is done to the logits of one row: what is added, by what they are scaled, and which tokens are ruled
out. -/
@[ext]
structure Penalties where
  additive : ℕ → ℚ
  scaling : ℕ → ℚ
  blocked : ℕ → Bool

namespace Penalties

/-- Nothing is done. -/
def none : Penalties := ⟨fun _ => 0, fun _ => 1, fun _ => false⟩

/-- One after the other. -/
def comp (p q : Penalties) : Penalties :=
  ⟨fun t => p.additive t + q.additive t, fun t => p.scaling t * q.scaling t, fun t =>
    p.blocked t || q.blocked t⟩

theorem comp_none (p : Penalties) : p.comp none = p := by ext <;> simp [comp, none]

end Penalties

/-- A penalizer, row by row. -/
structure Penalizer (ρ : Type) where
  isRequired : SamplingParams → Bool
  prepare : SamplingParams → ρ
  cumulateOutputToken : ρ → ℕ → ρ
  apply : ρ → Penalties

/-- A penalty, and what has been cumulated for each token. -/
structure CumulatedRow where
  penalty : ℚ
  cumulated : ℕ → ℚ

structure MinNewTokensRow where
  minNewTokens : ℕ
  stopTokenPenalties : ℕ → Bool
  lenOutputTokens : ℕ

/-- `BatchedFrequencyPenalizer`. -/
def frequencyPenalizer : Penalizer CumulatedRow where
  isRequired p := p.frequencyPenalty ≠ 0
  prepare p := ⟨p.frequencyPenalty, fun _ => 0⟩
  cumulateOutputToken row tok :=
    { row with cumulated := fun t => row.cumulated t + if t = tok then row.penalty else 0 }
  apply row := { Penalties.none with additive := fun t => -row.cumulated t }

/-- `BatchedPresencePenalizer`. -/
def presencePenalizer : Penalizer CumulatedRow where
  isRequired p := p.presencePenalty ≠ 0
  prepare p := ⟨p.presencePenalty, fun _ => 0⟩
  cumulateOutputToken row tok :=
    { row with cumulated := fun t => if t = tok then row.penalty else row.cumulated t }
  apply row := { Penalties.none with additive := fun t => -row.cumulated t }

/-- `BatchedRepetitionPenalizer`. -/
def repetitionPenalizer : Penalizer CumulatedRow where
  isRequired p := p.repetitionPenalty ≠ 1
  prepare p := ⟨p.repetitionPenalty, fun _ => 1⟩
  cumulateOutputToken row tok :=
    { row with cumulated := fun t => if t = tok then row.penalty else row.cumulated t }
  apply row := { Penalties.none with scaling := row.cumulated }

/-- `BatchedMinNewTokensPenalizer`; a penalty of minus infinity rules a token out. -/
def minNewTokensPenalizer : Penalizer MinNewTokensRow where
  isRequired p := 0 < p.minNewTokens
  prepare p :=
    ⟨p.minNewTokens, fun t => t ∈ p.stopTokenIds || t ∈ p.additionalStopTokenIds || t = p.eosTokenId, 0⟩
  cumulateOutputToken row _ := { row with lenOutputTokens := row.lenOutputTokens + 1 }
  apply row :=
    { Penalties.none with
      blocked := fun t => decide (row.lenOutputTokens < row.minNewTokens) && row.stopTokenPenalties t }

/-- The classes that `from_schedule_batch` makes penalizers of. -/
inductive Kind
  | frequency
  | minNewTokens
  | presence
  | repetition
  deriving DecidableEq, Repr

namespace Kind

def all : List Kind := [.frequency, .minNewTokens, .presence, .repetition]

def Row : Kind → Type
  | .minNewTokens => MinNewTokensRow
  | _ => CumulatedRow

def penalizer : (k : Kind) → Penalizer k.Row
  | .frequency => frequencyPenalizer
  | .minNewTokens => minNewTokensPenalizer
  | .presence => presencePenalizer
  | .repetition => repetitionPenalizer

end Kind

structure Req where
  params : SamplingParams
  outputIds : List ℕ
  isChunked : Bool
  inputEmbeds : Bool
  deriving DecidableEq, Repr

/-- The rows of each penalizer, if it is prepared. -/
structure Orchestrator where
  isRequired : Bool
  rows : (k : Kind) → Option (List k.Row)

/-- The elements at the indices. -/
def select {α : Type} (keep : List ℕ) (l : List α) : List α := keep.filterMap (l[·]?)

namespace Orchestrator

/-- `any(... for req in self.orchestrator.reqs())`. -/
def kindRequired (k : Kind) (reqs : List Req) : Bool := reqs.any fun r => k.penalizer.isRequired r.params

def prepareRows (k : Kind) (reqs : List Req) : List k.Row := reqs.map fun r => k.penalizer.prepare r.params

/-- `BatchedPenalizerOrchestrator(...)`. -/
def new (reqs : List Req) : Orchestrator where
  isRequired := Kind.all.any fun k => kindRequired k reqs
  rows k := if kindRequired k reqs then some (prepareRows k reqs) else none

/-- `cumulate_output_tokens`. -/
def cumulateOutputTokens (o : Orchestrator) (outputIds : List ℕ) : Orchestrator :=
  { o with rows := fun k => (o.rows k).map fun rows => rows.zipWith k.penalizer.cumulateOutputToken outputIds }

/-- What `apply` does to the rows. -/
def apply (o : Orchestrator) (size : ℕ) : List Penalties :=
  (List.range size).map fun i =>
    Kind.all.foldl (fun p k => p.comp (((o.rows k).bind (·[i]?)).elim .none k.penalizer.apply)) .none

/-- `filter`, with some indices to keep; the batch has only the requests that stay. -/
def filter (o : Orchestrator) (reqs : List Req) (keep : List ℕ) : Orchestrator :=
  if o.isRequired then
    { isRequired := Kind.all.any fun k => kindRequired k reqs
      rows := fun k => if kindRequired k reqs then (o.rows k).map (select keep) else none }
  else o

/-- `_BatchedPenalizer.merge`. -/
def mergeRows (k : Kind) (reqs theirReqs : List Req) (rows theirRows : Option (List k.Row)) :
    Option (List k.Row) :=
  if rows.isNone && theirRows.isNone then none
  else some (rows.getD (prepareRows k reqs) ++ theirRows.getD (prepareRows k theirReqs))

/-- `merge`, with the requests of the two batches. -/
def merge (o their : Orchestrator) (reqs theirReqs : List Req) : Orchestrator :=
  if o.isRequired || their.isRequired then
    ⟨true, fun k => mergeRows k reqs theirReqs (o.rows k) (their.rows k)⟩
  else o

end Orchestrator

open Orchestrator

/-! ## `ScheduleBatch` -/

/-- `outputIds` is `None` between the preparation of a forward pass and its result. -/
structure Batch where
  reqs : List Req
  outputIds : Option (List ℕ)
  orchestrator : Orchestrator

namespace Batch

/-- `prepare_for_extend`, of a new batch. -/
def prepareForExtend (reqs : List Req) : Batch := ⟨reqs, none, .new reqs⟩

/-- `prepare_for_decode`. -/
def prepareForDecode (b : Batch) : Option Batch :=
  b.outputIds.map fun outputIds =>
    ⟨b.reqs, none,
      if b.orchestrator.isRequired then b.orchestrator.cumulateOutputTokens outputIds else b.orchestrator⟩

/-- `filter_batch`. -/
def filterBatch (b : Batch) (keep : List ℕ) : Batch :=
  if keep = [] then { b with reqs := [] }
  else if keep.length = b.reqs.length then b
  else ⟨select keep b.reqs, b.outputIds.map (select keep), b.orchestrator.filter (select keep b.reqs) keep⟩

/-- `merge_batch`. -/
def mergeBatch (b other : Batch) : Batch :=
  ⟨b.reqs ++ other.reqs, b.outputIds.map (· ++ other.outputIds.getD []),
    b.orchestrator.merge other.orchestrator b.reqs other.reqs⟩

/-- What `apply_logits_bias` does to the rows, as far as penalties go. -/
def applyPenalties (b : Batch) : List Penalties :=
  if b.orchestrator.isRequired then b.orchestrator.apply b.reqs.length else b.reqs.map fun _ => .none

/-- The sampled tokens; the request whose prefill is not over does not get its own. -/
def processBatchResult (b : Batch) (nextTokenIds : List ℕ) : Batch :=
  { b with
    reqs := b.reqs.zipWith (fun r tok =>
      if r.isChunked then r else { r with outputIds := r.outputIds ++ [tok] })
      nextTokenIds
    outputIds := some nextTokenIds }

end Batch

/-- `reset_for_retract`. -/
def Req.resetForRetract (r : Req) : Req :=
  { r with isChunked := false, outputIds := if r.inputEmbeds then [] else r.outputIds }

/-! ## The scheduler -/

/-- The requests that wait, and the batches there are. -/
structure System where
  waiting : List Req
  batches : List Batch

/-- What becomes of requests that a filter takes out: one whose prefill is not over goes on with it, the others
are retracted or finished. -/
def dropped (keep : List ℕ) (retracted : Bool) (reqs : List Req) : List Req :=
  (select ((List.range reqs.length).filter (· ∉ keep)) reqs).filterMap fun r =>
    if r.isChunked then some r else if retracted then some r.resetForRetract else none

/-- What can happen, if the requests that are prefilled satisfy `ok`. -/
inductive Step (ok : Req → Prop) : System → System → Prop
  | arrive {s : System} (params : SamplingParams) (inputEmbeds : Bool) :
      Step ok s { s with waiting := s.waiting ++ [⟨params, [], false, inputEmbeds⟩] }
  /-- A new batch; the prefill of a request may be over or not. -/
  | prefill {s : System} (reqs rest : List Req) (chunked : Req → Bool) :
      s.waiting.Perm (reqs ++ rest) → reqs ≠ [] →
      (∀ r ∈ reqs, ok r) →
      Step ok s ⟨rest, .prepareForExtend (reqs.map fun r => { r with isChunked := chunked r }) :: s.batches⟩
  /-- A decode step is prepared; requests whose prefill is not over have been taken out. -/
  | decode {s : System} {b b' : Batch} {others : List Batch} : s.batches.Perm (b :: others) → b.reqs ≠ [] →
      (∀ r ∈ b.reqs, r.isChunked = false) → b.prepareForDecode = some b' → Step ok s ⟨s.waiting, b' :: others⟩
  /-- A batch that has just been prefilled joins the running batch, or a running batch joins a prefill. -/
  | merge {s : System} {b other : Batch} {others : List Batch} : s.batches.Perm (b :: other :: others) →
      b.reqs ≠ [] →
      other.reqs ≠ [] → (b.outputIds = none ↔ other.outputIds = none) →
      Step ok s ⟨s.waiting, b.mergeBatch other :: others⟩
  /-- The result of a forward pass. -/
  | result {s : System} {b : Batch} {others : List Batch} (nextTokenIds : List ℕ) :
      s.batches.Perm (b :: others) →
      b.outputIds = none → nextTokenIds.length = b.reqs.length →
      Step ok s ⟨s.waiting, b.processBatchResult nextTokenIds :: others⟩
  | filter {s : System} {b : Batch} {others : List Batch} (keep : List ℕ) (retracted : Bool) :
      s.batches.Perm (b :: others) → b.outputIds ≠ none → keep.Nodup → (∀ i ∈ keep, i < b.reqs.length) →
      Step ok s ⟨s.waiting ++ dropped keep retracted b.reqs, b.filterBatch keep :: others⟩

/-- The penalties that a request's parameters and its output call for. -/
def Req.penalties (r : Req) : Penalties where
  additive t := -(r.params.frequencyPenalty * r.outputIds.count t) -
    if t ∈ r.outputIds then r.params.presencePenalty else 0
  scaling t := if t ∈ r.outputIds then r.params.repetitionPenalty else 1
  blocked t := decide (r.outputIds.length < r.params.minNewTokens) &&
    (t ∈ r.params.stopTokenIds || t ∈ r.params.additionalStopTokenIds || t = r.params.eosTokenId)

/-- No penalizer is required for the request. -/
def SamplingParams.Neutral (p : SamplingParams) : Prop := ∀ k : Kind, k.penalizer.isRequired p = false

/-- The request has put nothing out yet, or nothing is to be penalised. -/
def Req.Fresh (r : Req) : Prop := r.outputIds = [] ∨ r.params.Neutral

/-! ## One row -/

variable {p : SamplingParams} {toks : List ℕ}

/-- The row after these tokens. -/
def Penalizer.fold {ρ : Type} (P : Penalizer ρ) (p : SamplingParams) (toks : List ℕ) : ρ :=
  toks.foldl P.cumulateOutputToken (P.prepare p)

theorem Penalizer.fold_append {ρ : Type} (P : Penalizer ρ) (tok : ℕ) :
    P.fold p (toks ++ [tok]) = P.cumulateOutputToken (P.fold p toks) tok := foldl_concat ..

theorem fold_frequency :
    frequencyPenalizer.fold p toks = ⟨p.frequencyPenalty, fun t => p.frequencyPenalty * toks.count t⟩ := by
  induction toks using reverseRecOn with
  | nil => simp [Penalizer.fold, frequencyPenalizer]
  | append_singleton toks tok ih =>
    rw [Penalizer.fold_append, ih]
    refine congrArg (CumulatedRow.mk _) (funext fun t => ?_)
    rw [count_append, count_singleton, Nat.cast_add, mul_add]
    by_cases h : t = tok
    · simp [h]
    · simp [h, Ne.symm h]

theorem fold_presence : presencePenalizer.fold p toks =
    ⟨p.presencePenalty, fun t => if t ∈ toks then p.presencePenalty else 0⟩ := by
  induction toks using reverseRecOn with
  | nil => simp [Penalizer.fold, presencePenalizer]
  | append_singleton toks tok ih =>
    rw [Penalizer.fold_append, ih]
    refine congrArg (CumulatedRow.mk _) (funext fun t => ?_)
    by_cases h : t = tok <;> simp [h]

theorem fold_repetition : repetitionPenalizer.fold p toks =
    ⟨p.repetitionPenalty, fun t => if t ∈ toks then p.repetitionPenalty else 1⟩ := by
  induction toks using reverseRecOn with
  | nil => simp [Penalizer.fold, repetitionPenalizer]
  | append_singleton toks tok ih =>
    rw [Penalizer.fold_append, ih]
    refine congrArg (CumulatedRow.mk _) (funext fun t => ?_)
    by_cases h : t = tok <;> simp [h]

theorem fold_minNewTokens : minNewTokensPenalizer.fold p toks = ⟨p.minNewTokens,
    fun t => t ∈ p.stopTokenIds || t ∈ p.additionalStopTokenIds || t = p.eosTokenId, toks.length⟩ := by
  induction toks using reverseRecOn with
  | nil => simp [Penalizer.fold, minNewTokensPenalizer]
  | append_singleton toks tok ih =>
    rw [Penalizer.fold_append, ih, length_append]
    rfl

/-- A penalizer that the request does not require does nothing, whatever is fed to it. -/
theorem apply_fold_of_not_required {k : Kind} (h : k.penalizer.isRequired p = false) :
    k.penalizer.apply (k.penalizer.fold p toks) = .none := by
  cases k with
  | frequency =>
    have hzero : p.frequencyPenalty = 0 := by simpa [Kind.penalizer, frequencyPenalizer] using h
    show frequencyPenalizer.apply (frequencyPenalizer.fold p toks) = _
    rw [fold_frequency]
    ext <;> simp [frequencyPenalizer, Penalties.none, hzero]
  | minNewTokens =>
    have hzero : p.minNewTokens = 0 := by simpa [Kind.penalizer, minNewTokensPenalizer] using h
    show minNewTokensPenalizer.apply (minNewTokensPenalizer.fold p toks) = _
    rw [fold_minNewTokens]
    ext <;> simp [minNewTokensPenalizer, Penalties.none, hzero]
  | presence =>
    have hzero : p.presencePenalty = 0 := by simpa [Kind.penalizer, presencePenalizer] using h
    show presencePenalizer.apply (presencePenalizer.fold p toks) = _
    rw [fold_presence]
    ext <;> simp [presencePenalizer, Penalties.none, hzero]
  | repetition =>
    have hone : p.repetitionPenalty = 1 := by simpa [Kind.penalizer, repetitionPenalizer] using h
    show repetitionPenalizer.apply (repetitionPenalizer.fold p toks) = _
    rw [fold_repetition]
    ext <;> simp [repetitionPenalizer, Penalties.none, hone]

/-- The four penalizers together do what the request calls for. -/
theorem Req.penalties_eq (r : Req) : Kind.all.foldl
    (fun p k => p.comp (k.penalizer.apply (k.penalizer.fold r.params r.outputIds))) .none = r.penalties := by
  show (((Penalties.none.comp (frequencyPenalizer.apply (frequencyPenalizer.fold r.params r.outputIds))).comp
    (minNewTokensPenalizer.apply (minNewTokensPenalizer.fold r.params r.outputIds))).comp
    (presencePenalizer.apply (presencePenalizer.fold r.params r.outputIds))).comp
    (repetitionPenalizer.apply (repetitionPenalizer.fold r.params r.outputIds)) = _
  rw [fold_frequency, fold_minNewTokens, fold_presence, fold_repetition]
  ext t <;> simp [Penalties.comp, Penalties.none, frequencyPenalizer, minNewTokensPenalizer, presencePenalizer,
    repetitionPenalizer, Req.penalties, sub_eq_add_neg]

/-! ## The rows of a batch -/

variable {k : Kind} {reqs : List Req} {rows : Option (List k.Row)}

/-- A request with the tokens that are still to be fed to its row. -/
abbrev Item := Req × List ℕ

/-- The row has been fed the output but for what is pending. Of a request whose prefill is not over, a token
that is pending is none of its own. -/
def Entry (k : Kind) (x : Item) (row : k.Row) : Prop :=
  ∃ seen, row = k.penalizer.fold x.1.params seen ∧
    (k.penalizer.isRequired x.1.params = true → (x.1.isChunked = true → x.2 = []) → seen ++ x.2 = x.1.outputIds)

/-- The penalizer has a row for each request, or none of them requires it. -/
def Tracks (k : Kind) (items : List Item) : Option (List k.Row) → Prop
  | none => ∀ x ∈ items, k.penalizer.isRequired x.1.params = false
  | some rows => Forall₂ (Entry k) items rows

theorem entry_of_not_required {x : Item} (h : k.penalizer.isRequired x.1.params = false) :
    Entry k x (k.penalizer.prepare x.1.params) := by
  refine ⟨[], rfl, fun h' => ?_⟩
  rw [h] at h'
  cases h'

theorem forall₂_prepareRows {items : List Item} (hreqs : items.map Prod.fst = reqs)
    (h : ∀ x ∈ items, Entry k x (k.penalizer.prepare x.1.params)) :
    Forall₂ (Entry k) items (prepareRows k reqs) := by
  unfold prepareRows
  rw [← hreqs, List.map_map, forall₂_map_right_iff, forall₂_same]
  exact h

/-- The rows with those that are made up for requests that require none. -/
theorem Tracks.getD {items : List Item} (h : Tracks k items rows) (hreqs : items.map Prod.fst = reqs) :
    Forall₂ (Entry k) items (rows.getD (prepareRows k reqs)) := by
  cases rows with
  | some rows => exact h
  | none => exact forall₂_prepareRows hreqs fun x hx => entry_of_not_required (h x hx)

theorem Tracks.merge {items theirs : List Item} {theirRows : Option (List k.Row)} {theirReqs : List Req}
    (h : Tracks k items rows) (h' : Tracks k theirs theirRows) (hreqs : items.map Prod.fst = reqs)
    (hreqs' : theirs.map Prod.fst = theirReqs) :
    Tracks k (items ++ theirs) (mergeRows k reqs theirReqs rows theirRows) := by
  unfold mergeRows
  split
  · next hnone =>
    rw [Bool.and_eq_true, isNone_iff_eq_none, isNone_iff_eq_none] at hnone
    rw [hnone.1] at h
    rw [hnone.2] at h'
    intro x hx
    rcases mem_append.mp hx with hx | hx
    · exact h x hx
    · exact h' x hx
  · exact rel_append (h.getD hreqs) (h'.getD hreqs')

theorem forall₂_select {α β : Type} {R : α → β → Prop} {l : List α} {l' : List β} (h : Forall₂ R l l')
    (keep : List ℕ) : Forall₂ R (select keep l) (select keep l') := by
  induction keep with
  | nil => exact .nil
  | cons i keep ih =>
    unfold select at ih ⊢
    rw [filterMap_cons, filterMap_cons]
    have hlen := h.length_eq
    by_cases hi : i < l.length
    · rw [getElem?_eq_getElem hi, getElem?_eq_getElem (hlen ▸ hi)]
      exact .cons (h.get hi (hlen ▸ hi)) ih
    · rw [getElem?_eq_none (by omega), getElem?_eq_none (by omega)]
      exact ih

theorem Tracks.filter {items : List Item} {keep : List ℕ} (h : Tracks k items rows)
    (hreqs : (select keep items).map Prod.fst = reqs) :
    Tracks k (select keep items) (if kindRequired k reqs then rows.map (select keep) else none) := by
  split
  · cases rows with
    | some rows => exact forall₂_select h keep
    | none =>
      intro x hx
      obtain ⟨i, -, hi⟩ := mem_filterMap.mp hx
      exact h x (mem_of_getElem? hi)
  · next hnot =>
    intro x hx
    rw [Bool.not_eq_true, kindRequired, List.any_eq_false] at hnot
    have hmem : x.1 ∈ reqs := hreqs ▸ mem_map_of_mem hx
    simpa using hnot x.1 hmem

/-- What is applied to the row of a penalizer that has one, or to that of none. -/
theorem Tracks.apply_eq (h : Tracks k (reqs.map fun r => (r, [])) rows) {i : ℕ} (hi : i < reqs.length) :
    (rows.bind (·[i]?)).elim .none k.penalizer.apply =
      k.penalizer.apply (k.penalizer.fold reqs[i].params reqs[i].outputIds) := by
  cases rows with
  | none =>
    exact (apply_fold_of_not_required (h (reqs[i], []) (mem_map_of_mem (getElem_mem hi)))).symm
  | some rows =>
    have hlen : reqs.length = rows.length := by simpa using h.length_eq
    have hrow := h.get (i := i) (by simpa using hi) (hlen ▸ hi)
    simp only [get_eq_getElem, getElem_map] at hrow
    obtain ⟨seen, hfold, hseen⟩ := hrow
    rw [bind_some, getElem?_eq_getElem (hlen ▸ hi), elim_some, hfold]
    by_cases hreq : k.penalizer.isRequired reqs[i].params = true
    · have hall := hseen hreq fun _ => rfl
      rw [append_nil] at hall
      rw [← hall]
    · rw [apply_fold_of_not_required (eq_false_of_ne_true hreq),
        apply_fold_of_not_required (eq_false_of_ne_true hreq)]

namespace Batch

variable {b b' other : Batch}

/-- The requests with what is pending: nothing between preparation and result, the last tokens otherwise. -/
def items (b : Batch) : List Item :=
  match b.outputIds with
  | none => b.reqs.map fun r => (r, [])
  | some toks => b.reqs.zipWith (fun r tok => (r, [tok])) toks

/-- Every penalizer is right about every request. A batch that is empty is not looked at any more. -/
structure Sound (b : Batch) : Prop where
  lengths : ∀ toks, b.outputIds = some toks → toks.length = b.reqs.length
  flag : b.orchestrator.isRequired = false → ∀ k, b.orchestrator.rows k = none
  tracks : ∀ k, Tracks k b.items (b.orchestrator.rows k)

theorem map_fst_pending (h : toks.length = reqs.length) :
    (reqs.zipWith (fun r tok => (r, [tok])) toks).map Prod.fst = reqs :=
  ext_getElem (by simp [h]) fun i hi hi' => by simp

theorem map_fst_items (h : ∀ toks, b.outputIds = some toks → toks.length = b.reqs.length) :
    b.items.map Prod.fst = b.reqs := by
  unfold items
  split
  · rw [List.map_map]
    exact map_id _
  · next toks htoks => exact map_fst_pending (h toks htoks)

theorem Sound.prepareForExtend (h : ∀ r ∈ reqs, r.Fresh) : (prepareForExtend reqs).Sound := by
  refine ⟨nofun, ?_, fun k => ?_⟩
  · intro hflag k
    have hk : k ∈ Kind.all := by cases k <;> decide
    have hnot := any_eq_false.mp hflag k hk
    exact if_neg hnot
  · show Tracks k (reqs.map fun r => (r, [])) (if kindRequired k reqs then _ else none)
    split
    · refine forall₂_prepareRows (by rw [List.map_map]; exact map_id _) fun x hx => ?_
      obtain ⟨r, hr, rfl⟩ := mem_map.mp hx
      refine ⟨[], rfl, fun hreq _ => ?_⟩
      rcases h r hr with hnil | hneutral
      · exact hnil.symm
      · rw [hneutral k] at hreq
        cases hreq
    · next hnot =>
      intro x hx
      obtain ⟨r, hr, rfl⟩ := mem_map.mp hx
      rw [Bool.not_eq_true, kindRequired, List.any_eq_false] at hnot
      simpa using hnot r hr

/-- The pending tokens are fed to the rows. -/
theorem forall₂_cumulate : ∀ {reqs : List Req} {toks : List ℕ} {rows : List k.Row}, toks.length = reqs.length →
    (∀ r ∈ reqs, r.isChunked = false) → Forall₂ (Entry k) (reqs.zipWith (fun r tok => (r, [tok])) toks) rows →
    Forall₂ (Entry k) (reqs.map fun r => (r, [])) (rows.zipWith k.penalizer.cumulateOutputToken toks) := by
  intro reqs
  induction reqs with
  | nil =>
    intro toks rows hlen _ h
    cases h
    exact .nil
  | cons r reqs ih =>
    intro toks rows hlen hwhole h
    cases toks with
    | nil => cases hlen
    | cons tok toks =>
      cases h with
      | cons hrow hrest =>
        obtain ⟨seen, rfl, hseen⟩ := hrow
        refine .cons ⟨seen ++ [tok], (k.penalizer.fold_append tok).symm, fun hreq _ => ?_⟩
          (ih (Nat.succ.inj hlen) (fun x hx => hwhole x (mem_cons_of_mem _ hx)) hrest)
        rw [append_nil]
        refine hseen hreq fun hchunked => ?_
        rw [hwhole r mem_cons_self] at hchunked
        cases hchunked

/-- The tokens of the result go to the outputs, and are pending for the rows. -/
theorem forall₂_result : ∀ {reqs : List Req} {toks : List ℕ} {rows : List k.Row}, toks.length = reqs.length →
    Forall₂ (Entry k) (reqs.map fun r => (r, [])) rows →
    Forall₂ (Entry k) ((reqs.zipWith (fun r tok =>
      if r.isChunked then r else { r with outputIds := r.outputIds ++ [tok] }) toks).zipWith
        (fun r tok => (r, [tok])) toks) rows := by
  intro reqs
  induction reqs with
  | nil =>
    intro toks rows _ h
    cases h
    exact .nil
  | cons r reqs ih =>
    intro toks rows hlen h
    cases toks with
    | nil => cases hlen
    | cons tok toks =>
      cases h with
      | cons hrow hrest =>
        refine .cons ?_ (ih (Nat.succ.inj hlen) hrest)
        obtain ⟨seen, rfl, hseen⟩ := hrow
        dsimp only at hseen ⊢
        by_cases hchunked : r.isChunked = true
        · rw [if_pos hchunked]
          refine ⟨seen, rfl, fun _ hown => ?_⟩
          cases hown hchunked
        · rw [if_neg hchunked]
          refine ⟨seen, rfl, fun hreq _ => ?_⟩
          have hall := hseen hreq fun _ => rfl
          rw [append_nil] at hall
          exact congrArg (· ++ [tok]) hall

theorem Sound.prepareForDecode (h : b.Sound) (hwhole : ∀ r ∈ b.reqs, r.isChunked = false)
    (hrun : b.prepareForDecode = some b') : b'.Sound := by
  obtain ⟨toks, htoks, rfl⟩ := map_eq_some_iff.mp hrun
  have hlen := h.lengths toks htoks
  have htracks : ∀ k, Tracks k (b.reqs.map fun r => (r, []))
      ((b.orchestrator.rows k).map fun rows => rows.zipWith k.penalizer.cumulateOutputToken toks) := by
    intro k
    have hk := h.tracks k
    unfold items at hk
    rw [htoks] at hk
    cases hrows : b.orchestrator.rows k with
    | none =>
      rw [hrows] at hk
      intro x hx
      obtain ⟨r, hr, rfl⟩ := mem_map.mp hx
      obtain ⟨i, hi, rfl⟩ := getElem_of_mem hr
      refine hk (b.reqs[i], [toks[i]]) ?_
      rw [mem_iff_getElem]
      exact ⟨i, by rw [length_zipWith]; omega, getElem_zipWith ..⟩
    | some rows =>
      rw [hrows] at hk
      exact forall₂_cumulate hlen hwhole hk
  by_cases hflag : b.orchestrator.isRequired = true
  · rw [if_pos hflag]
    exact ⟨nofun, fun hfalse => absurd hflag (ne_true_of_eq_false hfalse), htracks⟩
  · rw [if_neg hflag]
    have hnone := h.flag (eq_false_of_ne_true hflag)
    refine ⟨nofun, fun _ => hnone, fun k => ?_⟩
    have hk := htracks k
    rw [hnone k] at hk
    rw [hnone k]
    exact hk

theorem Sound.processBatchResult (h : b.Sound) (hflight : b.outputIds = none)
    (hlen : toks.length = b.reqs.length) : (b.processBatchResult toks).Sound := by
  refine ⟨?_, h.flag, fun k => ?_⟩
  · rintro _ ⟨⟩
    show toks.length = (zipWith _ b.reqs toks).length
    rw [length_zipWith]
    omega
  · have hk := h.tracks k
    have hitems : b.items = b.reqs.map fun r => (r, []) := by simp only [items, hflight]
    show Tracks k (zipWith _ (zipWith _ b.reqs toks) toks) (b.orchestrator.rows k)
    rw [hitems] at hk
    cases hrows : b.orchestrator.rows k with
    | none =>
      rw [hrows] at hk
      intro x hx
      obtain ⟨i, hi, rfl⟩ := getElem_of_mem hx
      rw [length_zipWith, length_zipWith] at hi
      have hreq := hk (b.reqs[i], []) (mem_map_of_mem (getElem_mem _))
      rw [getElem_zipWith, getElem_zipWith]
      split
      · exact hreq
      · exact hreq
    | some rows =>
      rw [hrows] at hk
      exact forall₂_result hlen hk

theorem length_select {α β : Type} {l : List α} {l' : List β} (h : l.length = l'.length) (keep : List ℕ) :
    (select keep l).length = (select keep l').length :=
  (forall₂_select (forall₂_iff_get.mpr ⟨h, fun _ _ _ => trivial⟩ : Forall₂ (fun _ _ => True) l l')
    keep).length_eq

theorem select_zipWith {α β γ : Type} (f : α → β → γ) {l : List α} {l' : List β} (h : l.length = l'.length)
    (keep : List ℕ) : select keep (l.zipWith f l') = (select keep l).zipWith f (select keep l') := by
  induction keep with
  | nil => rfl
  | cons i keep ih =>
    unfold select at ih ⊢
    rw [filterMap_cons, filterMap_cons, filterMap_cons, getElem?_zipWith]
    by_cases hi : i < l.length
    · rw [getElem?_eq_getElem hi, getElem?_eq_getElem (h ▸ hi)]
      exact congrArg _ ih
    · rw [getElem?_eq_none (by omega), getElem?_eq_none (by omega)]
      exact ih

theorem Sound.filterBatch {keep : List ℕ} (h : b.Sound) (hidle : b.outputIds ≠ none)
    (hreqs : (b.filterBatch keep).reqs ≠ []) : (b.filterBatch keep).Sound := by
  obtain ⟨toks, htoks⟩ := ne_none_iff_exists'.mp hidle
  have hlen := h.lengths toks htoks
  revert hreqs
  unfold Batch.filterBatch
  split
  · intro hreqs
    exact absurd rfl hreqs
  split
  · intro _
    exact h
  intro _
  have hitems : select keep b.items =
      zipWith (fun r tok => (r, [tok])) (select keep b.reqs) (select keep toks) := by
    unfold items
    rw [htoks]
    exact select_zipWith _ hlen.symm keep
  have hfst : (select keep b.items).map Prod.fst = select keep b.reqs := by
    rw [hitems]
    exact map_fst_pending (length_select hlen keep)
  refine ⟨?_, ?_, fun k => ?_⟩
  · intro toks' htoks'
    obtain rfl : select keep toks = toks' := by simpa [htoks] using htoks'
    exact length_select hlen keep
  · unfold Orchestrator.filter
    split
    · intro hflag k
      have hk : k ∈ Kind.all := by cases k <;> decide
      exact if_neg (any_eq_false.mp hflag k hk)
    · exact h.flag
  · rw [htoks]
    show Tracks k (zipWith _ (select keep b.reqs) (select keep toks)) _
    rw [← hitems]
    unfold Orchestrator.filter
    by_cases hflag : b.orchestrator.isRequired = true
    · rw [if_pos hflag]
      exact (h.tracks k).filter hfst
    · rw [if_neg hflag]
      have hk := h.tracks k
      have hnone := h.flag (eq_false_of_ne_true hflag) k
      rw [hnone] at hk ⊢
      intro x hx
      obtain ⟨i, -, hi⟩ := mem_filterMap.mp hx
      exact hk x (mem_of_getElem? hi)

theorem Sound.mergeBatch (h : b.Sound) (h' : other.Sound)
    (hboth : b.outputIds = none ↔ other.outputIds = none) : (b.mergeBatch other).Sound := by
  have hitems : (b.mergeBatch other).items = b.items ++ other.items := by
    cases htoks : b.outputIds with
    | none => simp [items, Batch.mergeBatch, htoks, hboth.mp htoks]
    | some toks =>
      obtain ⟨toks', htoks'⟩ :=
        ne_none_iff_exists'.mp (fun hnone => some_ne_none toks (htoks ▸ hboth.mpr hnone))
      simp [items, Batch.mergeBatch, htoks, htoks', zipWith_append (h.lengths toks htoks).symm]
  refine ⟨?_, ?_, fun k => ?_⟩
  · intro toks htoks
    obtain ⟨own, hown, rfl⟩ := map_eq_some_iff.mp htoks
    obtain ⟨theirs, htheirs⟩ := ne_none_iff_exists'.mp (fun hnone => some_ne_none own (hown ▸ hboth.mpr hnone))
    rw [htheirs]
    show (own ++ theirs).length = (b.reqs ++ other.reqs).length
    rw [length_append, length_append, h.lengths own hown, h'.lengths theirs htheirs]
  · show (b.orchestrator.merge other.orchestrator b.reqs other.reqs).isRequired = false →
      ∀ k, (b.orchestrator.merge other.orchestrator b.reqs other.reqs).rows k = none
    unfold Orchestrator.merge
    split
    · intro hflag
      cases hflag
    · exact h.flag
  · rw [hitems]
    show Tracks k _ ((b.orchestrator.merge other.orchestrator b.reqs other.reqs).rows k)
    have hk := (h.tracks k).merge (h'.tracks k) (map_fst_items h.lengths) (map_fst_items h'.lengths)
    unfold Orchestrator.merge
    split
    · exact hk
    · next hflag =>
      rw [Bool.not_eq_true, Bool.or_eq_false_iff] at hflag
      rw [h.flag hflag.1 k, h'.flag hflag.2 k] at hk
      rw [h.flag hflag.1 k]
      exact hk

/-- While a forward pass is on, what is applied is what the requests call for. -/
theorem Sound.applyPenalties_eq (h : b.Sound) (hflight : b.outputIds = none) :
    b.applyPenalties = b.reqs.map Req.penalties := by
  have hitems : b.items = b.reqs.map fun r => (r, []) := by simp only [items, hflight]
  have happly : b.orchestrator.apply b.reqs.length = b.reqs.map Req.penalties := by
    refine ext_getElem (by simp [apply]) fun i hi hi' => ?_
    have hi : i < b.reqs.length := by simpa using hi'
    simp only [apply, getElem_map, getElem_range]
    rw [← Req.penalties_eq]
    congr 1
    funext p k
    have hk := h.tracks k
    rw [hitems] at hk
    rw [hk.apply_eq hi]
  unfold applyPenalties
  split
  · exact happly
  · next hflag =>
    -- no rows at all: the orchestrator would apply nothing either
    rw [← happly]
    refine ext_getElem (by simp [apply]) fun i hi hi' => ?_
    simp only [apply, getElem_map, h.flag (eq_false_of_ne_true hflag), bind_none,
      elim_none, Kind.all, foldl_cons, foldl_nil, Penalties.comp_none]

end Batch

/-! ## Runs -/

namespace System

/-- The batches that are not empty are sound. -/
def Sound (s : System) : Prop := ∀ b ∈ s.batches, b.reqs ≠ [] → b.Sound

theorem Sound.replace {s : System} {b' : Batch} {others : List Batch} {waiting : List Req} (h : s.Sound)
    (used : List Batch) (hperm : s.batches.Perm (used ++ others)) (hb' : b'.reqs ≠ [] → b'.Sound) :
      Sound ⟨waiting, b' :: others⟩ := by
  intro c hc
  rcases mem_cons.mp hc with rfl | hc
  · exact hb'
  · exact h c (hperm.mem_iff.mpr (mem_append_right used hc))

theorem Sound.step {s s' : System} (h : s.Sound) (hstep : Step Req.Fresh s s') : s'.Sound := by
  cases hstep with
  | arrive params inputEmbeds => exact h
  | prefill reqs rest chunked hperm hne hok =>
    refine h.replace [] (.refl _) fun _ => .prepareForExtend fun r hr => ?_
    obtain ⟨r', hr', rfl⟩ := mem_map.mp hr
    exact hok r' hr'
  | @decode b _ _ hperm hne hwhole hrun =>
    have hb := h b (hperm.mem_iff.mpr mem_cons_self) hne
    exact h.replace [b] hperm fun _ => hb.prepareForDecode hwhole hrun
  | @merge b other _ hperm hne hne' hboth =>
    have hb := h b (hperm.mem_iff.mpr mem_cons_self) hne
    have hother := h other (hperm.mem_iff.mpr (mem_cons_of_mem _ mem_cons_self)) hne'
    exact h.replace [b, other] hperm fun _ => hb.mergeBatch hother hboth
  | @result b _ toks hperm hflight hlen =>
    refine h.replace [b] hperm fun hne => ?_
    have hreqs : b.reqs ≠ [] := by
      rintro hnil
      exact hne (by simp [Batch.processBatchResult, hnil])
    exact (h b (hperm.mem_iff.mpr mem_cons_self) hreqs).processBatchResult hflight hlen
  | @filter b _ keep retracted hperm hidle hnodup hbounds =>
    refine h.replace [b] hperm fun hne => ?_
    have hreqs : b.reqs ≠ [] := by
      rintro hnil
      refine hne ?_
      unfold Batch.filterBatch
      split
      · rfl
      split
      · exact hnil
      · simp [hnil, select]
    exact (h b (hperm.mem_iff.mpr mem_cons_self) hreqs).filterBatch hidle hne

theorem sound_of_run {s : System} (hrun : ReflTransGen (Step Req.Fresh) ⟨[], []⟩ s) : s.Sound := by
  induction hrun with
  | refl => exact nofun
  | tail _ hstep ih => exact ih.step hstep

/-- A request that is penalised for each time it has put a token out. -/
def onceEach (outputIds : List ℕ) : Req := ⟨⟨1, 0, 1, 0, [], [], 0⟩, outputIds, false, false⟩

/-- Two such requests are prefilled, and their first tokens come back. -/
theorem two_prefilled {ok : Req → Prop} (hok : ok (onceEach [])) : ReflTransGen (Step ok) ⟨[], []⟩
    ⟨[], [(Batch.prepareForExtend [onceEach [], onceEach []]).processBatchResult [5, 6]]⟩ := by
  refine .head (.arrive (onceEach []).params false) (.head (.arrive (onceEach []).params false) ?_)
  refine .head (.prefill [onceEach [], onceEach []] [] (fun _ => false) (.refl _) nofun ?_) ?_
  · simpa using hok
  · exact .single (.result _ (.refl _) rfl rfl)

/-- In every run in which requests are prefilled before they have put anything out, or with parameters that
penalise nothing, every forward pass applies to each row what the parameters of its request and its whole output
call for. -/
theorem penalties_follow_output {s : System} (hrun : ReflTransGen (Step Req.Fresh) ⟨[], []⟩ s) {b : Batch}
    (hb : b ∈ s.batches) (hflight : b.outputIds = none) : b.applyPenalties = b.reqs.map Req.penalties := by
  by_cases hne : b.reqs = []
  · unfold Batch.applyPenalties
    simp [hne, apply]
  · exact (sound_of_run hrun b hb hne).applyPenalties_eq hflight

/-- After one decode step of two requests. -/
theorem penalties_follow_output_two : ∃ s : System, ReflTransGen (Step Req.Fresh) ⟨[], []⟩ s ∧
    ∃ b ∈ s.batches, b.outputIds = none ∧ b.reqs = [onceEach [5], onceEach [6]] ∧
      b.applyPenalties = [(onceEach [5]).penalties, (onceEach [6]).penalties] := by
  have hprefilled : ReflTransGen (Step Req.Fresh) _ _ := two_prefilled (.inl rfl)
  have hrun := hprefilled.tail (.decode (.refl _) nofun (by decide) rfl)
  exact ⟨_, hrun, _, mem_cons_self, rfl, rfl, penalties_follow_output hrun mem_cons_self rfl⟩

/-- The second request is retracted, prefilled again and decoded: the token it has put out before is not
penalised. -/
theorem retracted_output_forgotten : ∃ s : System, ReflTransGen (Step fun _ => True) ⟨[], []⟩ s ∧
    ∃ b ∈ s.batches, b.outputIds = none ∧ b.reqs = [onceEach [6, 7]] ∧
      b.applyPenalties.map (fun p => p.additive 6) = [0] ∧ (onceEach [6, 7]).penalties.additive 6 = -1 := by
  have hprefilled : ReflTransGen (Step fun _ => True) _ _ := two_prefilled trivial
  have hretracted := hprefilled.tail (.filter [0] true (.refl _) nofun (by decide) (by decide))
  have hagain := hretracted.tail (.prefill [onceEach [6]] [] (fun _ => false) (.refl _) nofun (by simp))
  have hdecode := (hagain.tail (.result [7] (.refl _) rfl rfl)).tail (.decode (.refl _) nofun (by decide) rfl)
  exact ⟨_, hdecode, _, mem_cons_self, rfl, rfl, by decide +kernel, by decide +kernel⟩

end System

end SGLang.Sampling
