/-
# SGLang.Lora.LoRARegistry — acquiring, releasing and unloading adapters, as coroutines.

A request looks the ids of its adapters up, counts itself on each of them, runs, and counts itself off.
An unload takes the adapter's name out of the registry, waits until its counter is zero, deletes the
counter and only then asks the backend to drop the weights. Lookups and the registry's changes are made
under the writer side of a reader-writer lock, releases under its reader side; counters have conditions of
their own. All of it runs as coroutines of one event loop, so what matters is where they can be interleaved:
at every await.

The lookup and the count are not one step. `acquire` gives the writer lock back after it looked the id up and
increments the counter later, so an unload can find the counter at zero in between. `unload_after_last_release`
says that this is the only thing that goes wrong.
-/
import Mathlib.Algebra.BigOperators.Group.Multiset.Basic
import Mathlib.Algebra.Order.BigOperators.Group.Multiset
import Mathlib.Algebra.Order.Group.Int
import Mathlib.Data.Finset.Basic
import Mathlib.Data.List.ReduceOption
import SGLang.Lib.Dict
import SGLang.Lib.TaskPool

namespace SGLang.Lora

open SGLang.Lib Function Multiset Pool
open Option (bind_eq_some_iff map_eq_some_iff some_ne_none)

/-! ## `RWLock` -/

structure RWLock where
  readers : ℤ
  writerActive : Bool
  waitingWriters : ℤ
  deriving DecidableEq, Repr

namespace RWLock

variable (l : RWLock)

/-- The test of the loop in `acquire_reader`. -/
def readerMustWait : Bool := l.writerActive || decide (0 < l.waitingWriters)

/-- The test of the loop in `acquire_writer`. -/
def writerMustWait : Bool := l.writerActive || decide (0 < l.readers)

/-- A writer announces itself. -/
def announceWriter : RWLock := { l with waitingWriters := l.waitingWriters + 1 }

/-- A writer leaves the loop of `acquire_writer`. -/
def takeWriter : RWLock :=
  { l with writerActive := true, waitingWriters := l.waitingWriters - 1 }

end RWLock

/-! ## The shared state -/

/-- An adapter's `lora_id`. `uuid4` never repeats, so the ids are numbered in the order of their creation. -/
abbrev LoraId := ℕ

/-- What the registry records of adapters and of their use. `count id` is the value of the
`ConcurrentCounter` created for `id`, whether or not `_counters` still refers to it; `unloaded` lists the ids
for which `wait_for_unload` returned. The order of `_registry`, which only decides what is evicted, is left
out. -/
structure Books where
  registry : AList fun _ : String => LoraId
  counters : Finset LoraId
  count : LoraId → ℤ
  nextId : LoraId
  unloaded : List LoraId

/-- The state that the coroutines share: the registry, its lock and `lora_update_lock`. -/
structure Shared extends Books where
  lock : RWLock
  updateLocked : Bool

/-- The conditions a coroutine can sleep on. -/
inductive Cond
  | registryLock
  | counter (id : LoraId)
  deriving DecidableEq, Repr

/-! ## The coroutines -/

/-- What a holder of `lora_update_lock` does: load an adapter under a name, or unload one. -/
inductive Update
  | register (name : String)
  | unload (name : String)
  deriving DecidableEq, Repr

/-- The bodies that run under the writer lock, with what the coroutine does afterwards. -/
inductive WriterJob
  /-- `_lookup` of every name of an `acquire`. -/
  | lookup (names : List (Option String))
  /-- `_register_adapter`. -/
  | register (name : String) (rest : List Update)
  /-- The body of `unregister`. -/
  | unregister (name : String) (rest : List Update)
  deriving DecidableEq, Repr

/-- Where a coroutine stands: each constructor is a point between two awaits. -/
inductive Phase
  -- `async with self._registry_lock.writer_lock`
  | enterWriter (job : WriterJob)
  | queuedWriter (job : WriterJob)
  | inWriter (job : WriterJob)
  | leaveWriter (next : Phase)
  -- `acquire` after the lookup, then the request itself
  | fetch (ids : List (Option LoraId))
  | increment (ids : List (Option LoraId)) (todo : List LoraId)
  | running (ids : List (Option LoraId))
  -- `release`
  | enterReader (ids : List (Option LoraId))
  | inReader (ids : List (Option LoraId))
  | decrement (todo : List LoraId)
  | leaveReader (next : Phase)
  -- `load_lora_adapter`, `_unload_lora_adapter_locked`, `wait_for_unload`
  | lockUpdates (todo : List Update)
  | update (todo : List Update)
  | waitForUnload (id : LoraId) (rest : List Update)
  | waitForZero (id : LoraId) (rest : List Update)
  | deleteCounter (id : LoraId) (rest : List Update)
  | unlockUpdates (next : Phase)
  -- the ends of a coroutine
  | done
  | valueError
  | keyError
  | assertionError
  deriving DecidableEq, Repr

/-- The coroutines that can be started: a request for some adapters, and a sequence of updates. -/
def Phase.starts : Phase → Bool
  | .enterWriter (.lookup _) => true
  | .lockUpdates _ => true
  | _ => false

abbrev Out := Outcome Shared Phase Cond

/-- `_lookup`. A missing name stands for a request without adapter. -/
def lookupId (s : Books) : Option String → Option (Option LoraId)
  | none => some none
  | some name => (s.registry.lookup name).map some

/-- `_register_adapter` of a new `LoRARef`; `none` is the `ValueError` of a name that exists. -/
def registerAdapter (s : Books) (name : String) : Option Books :=
  if name ∈ s.registry then none
  else
    some { s with
      registry := s.registry.insert name s.nextId
      counters := insert s.nextId s.counters
      count := Function.update s.count s.nextId 0
      nextId := s.nextId + 1 }

/-- The loop of `acquire_writer`: take the lock or sleep until it is notified. -/
def tryWriter (s : Shared) (job : WriterJob) : Out :=
  if s.lock.writerMustWait then
    { shared := s, phase := .queuedWriter job, sleepOn := some .registryLock }
  else { shared := { s with lock := s.lock.takeWriter }, phase := .inWriter job }

/-- The body run under the writer lock. -/
def runJob (s : Shared) : WriterJob → Out
  | .lookup names =>
    match names.mapM (lookupId s.toBooks) with
    | none => { shared := s, phase := .leaveWriter .valueError }
    | some ids => { shared := s, phase := .leaveWriter (.fetch ids) }
  | .register name rest =>
    match registerAdapter s.toBooks name with
    | none => { shared := s, phase := .leaveWriter (.unlockUpdates .valueError) }
    | some books => { shared := { s with toBooks := books }, phase := .leaveWriter (.update rest) }
  | .unregister name rest =>
    match s.registry.lookup name with
    | none => { shared := s, phase := .leaveWriter (.unlockUpdates .valueError) }
    | some id =>
      { shared := { s with registry := s.registry.erase name }
        phase := .leaveWriter (.waitForUnload id rest) }

/-- Run a coroutine from its phase to the next await. A gather's parts run in any order: `choice` says
which one is next. -/
def Phase.step (s : Shared) (choice : ℕ) : Phase → Option Out
  | .enterWriter job => some (tryWriter { s with lock := s.lock.announceWriter } job)
  | .queuedWriter job => some (tryWriter s job)
  | .inWriter job => some (runJob s job)
  | .leaveWriter next =>
    some {
      shared := { s with lock := { s.lock with writerActive := false } }
      phase := next
      notify := some .registryLock }
  | .fetch ids =>
    -- the counter objects are looked up here, before any of them is incremented
    if ∀ id ∈ ids.reduceOption, id ∈ s.counters then
      some { shared := s, phase := .increment ids ids.reduceOption }
    else some { shared := s, phase := .keyError }
  | .increment ids [] => some { shared := s, phase := .running ids }
  | .increment ids todo =>
    todo[choice]?.map fun id =>
      { shared := { s with count := Function.update s.count id (s.count id + 1) }
        phase := .increment ids (todo.eraseIdx choice) }
  | .running ids => some { shared := s, phase := .enterReader ids }
  | .enterReader ids =>
    if s.lock.readerMustWait then
      some { shared := s, phase := .enterReader ids, sleepOn := some .registryLock }
    else
      some {
        shared := { s with lock := { s.lock with readers := s.lock.readers + 1 } }
        phase := .inReader ids }
  | .inReader ids =>
    if ∀ id ∈ ids.reduceOption, id ∈ s.counters then
      some { shared := s, phase := .decrement ids.reduceOption }
    else some { shared := s, phase := .leaveReader .keyError }
  | .decrement [] => some { shared := s, phase := .leaveReader .done }
  | .decrement todo =>
    todo[choice]?.map fun id =>
      { shared := { s with count := Function.update s.count id (s.count id - 1) }
        phase := .decrement (todo.eraseIdx choice)
        notify := some (.counter id) }
  | .leaveReader next =>
    let readers := s.lock.readers - 1
    some {
      shared := { s with lock := { s.lock with readers := readers } }
      phase := next
      notify := if readers = 0 then some .registryLock else none }
  | .lockUpdates todo =>
    if s.updateLocked then none
    else some { shared := { s with updateLocked := true }, phase := .update todo }
  | .update [] => some { shared := s, phase := .unlockUpdates .done }
  | .update (.register name :: rest) =>
    some { shared := s, phase := .enterWriter (.register name rest) }
  | .update (.unload name :: rest) =>
    some { shared := s, phase := .enterWriter (.unregister name rest) }
  | .waitForUnload id rest =>
    if id ∈ s.counters then some { shared := s, phase := .waitForZero id rest }
    else some { shared := s, phase := .unlockUpdates .assertionError }
  | .waitForZero id rest =>
    if s.count id = 0 then some { shared := s, phase := .deleteCounter id rest }
    else some { shared := s, phase := .waitForZero id rest, sleepOn := some (.counter id) }
  | .deleteCounter id rest =>
    if id ∈ s.counters then
      some {
        shared := { s with counters := s.counters.erase id, unloaded := id :: s.unloaded }
        phase := .update rest }
    else some { shared := s, phase := .unlockUpdates .keyError }
  | .unlockUpdates next => some { shared := { s with updateLocked := false }, phase := next }
  | .done | .valueError | .keyError | .assertionError => none

/-- The tokenizer manager: the registry with all coroutines that use it. -/
abbrev Manager := Pool Shared Phase Cond

/-- `LoRARegistry.__init__`, from the names in `lora_paths`. -/
def initBooks (loraPaths : List String) : Option Books :=
  loraPaths.foldlM registerAdapter ⟨∅, ∅, fun _ => 0, 0, []⟩

/-- No coroutine runs yet and no lock is held. -/
def Manager.init (books : Books) : Manager :=
  ⟨{ books with lock := ⟨0, false, 0⟩, updateLocked := false }, []⟩

/-! ## What a coroutine holds -/

/-- What the coroutine at some phase holds of the adapters. `claimed` are the ids it looked up for a request
and has not released, `pending` those of them it has not counted itself on yet; `unloading` is the id it took
out of the registry to unload, and `zeroed` says that it found the counter of that id at zero. -/
@[ext] structure Holding where
  claimed : List LoraId := []
  pending : List LoraId := []
  unloading : Option LoraId := none
  zeroed : Bool := false
  raised : Bool := false
  deriving DecidableEq

/-- The holding at each phase. A coroutine that raised `KeyError` or `AssertionError` is marked `raised`. -/
def Phase.holding : Phase → Holding
  | .leaveWriter next | .leaveReader next | .unlockUpdates next => next.holding
  | .fetch ids => { claimed := ids.reduceOption, pending := ids.reduceOption }
  | .increment ids todo => { claimed := ids.reduceOption, pending := todo }
  | .running ids | .enterReader ids | .inReader ids => { claimed := ids.reduceOption }
  | .decrement todo => { claimed := todo }
  | .waitForUnload id _ | .waitForZero id _ => { unloading := some id }
  | .deleteCounter id _ => { unloading := some id, zeroed := true }
  | .keyError | .assertionError => { raised := true }
  | _ => {}

/-- How often a holding is counted on `id`. -/
def Holding.weight (id : LoraId) (h : Holding) : ℤ := h.claimed.count id - h.pending.count id

/-- Everything a step can do to the books and to the holding of the coroutine that runs; `clear id` is known
when a wait finds the counter of `id` at zero. -/
inductive Effect (clear : LoraId → Prop) (b : Books) : Holding → Books → Holding → Prop
  | quiet (h : Holding) : Effect clear b h b h
  | lookup (ids : List LoraId) (hids : ∀ id ∈ ids, ∃ name, b.registry.lookup name = some id) :
      Effect clear b {} b { claimed := ids, pending := ids }
  | missing (h h' : Holding) (id : LoraId) (hid : id ∈ h.claimed ∨ h.unloading = some id)
      (hmiss : id ∉ b.counters) : Effect clear b h b h'
  | count (h : Holding) (id : LoraId) (todo : List LoraId) (hp : h.pending.Perm (id :: todo)) :
      Effect clear b h { b with count := Function.update b.count id (b.count id + 1) }
        { h with pending := todo }
  | uncount (todo rest : List LoraId) (id : LoraId) (hp : todo.Perm (id :: rest)) :
      Effect clear b { claimed := todo }
        { b with count := Function.update b.count id (b.count id - 1) } { claimed := rest }
  | register (name : String) (b' : Books) (hreg : registerAdapter b name = some b') :
      Effect clear b {} b' {}
  | unregister (name : String) (id : LoraId) (hname : b.registry.lookup name = some id) :
      Effect clear b {} { b with registry := b.registry.erase name } { unloading := some id }
  | zero (id : LoraId) (h0 : b.count id = 0) (hclear : clear id) :
      Effect clear b { unloading := some id } b { unloading := some id, zeroed := true }
  | delete (id : LoraId) :
      Effect clear b { unloading := some id, zeroed := true }
        { b with counters := b.counters.erase id, unloaded := id :: b.unloaded } {}

theorem lookup_registered {b : Books} {names : List (Option String)} {ids : List (Option LoraId)}
    (h : names.mapM (lookupId b) = some ids) :
    ∀ id ∈ ids.reduceOption, ∃ name, b.registry.lookup name = some id := by
  induction names generalizing ids with
  | nil =>
    cases h
    intro id hid
    cases hid
  | cons name names ih =>
    rw [List.mapM_cons] at h
    obtain ⟨x, hx, h⟩ := bind_eq_some_iff.mp h
    obtain ⟨xs, hxs, h⟩ := bind_eq_some_iff.mp h
    cases h
    cases name with
    | none =>
      cases hx
      rw [List.reduceOption_cons_of_none]
      exact ih hxs
    | some name =>
      obtain ⟨id, hid, rfl⟩ := map_eq_some_iff.mp hx
      rw [List.reduceOption_cons_of_some]
      intro id' hid'
      rcases List.mem_cons.mp hid' with rfl | hid'
      · exact ⟨name, hid⟩
      · exact ih hxs id' hid'

theorem tryWriter_effect (s : Shared) (job : WriterJob) :
    (tryWriter s job).shared.toBooks = s.toBooks ∧ (tryWriter s job).phase.holding = {} := by
  unfold tryWriter
  split
  · exact ⟨rfl, rfl⟩
  · exact ⟨rfl, rfl⟩

theorem runJob_effect (clear : LoraId → Prop) (s : Shared) (job : WriterJob) :
    Effect clear s.toBooks {} (runJob s job).shared.toBooks (runJob s job).phase.holding := by
  cases job with
  | lookup names =>
    simp only [runJob]
    split
    · exact .quiet _
    · next ids hids => exact .lookup _ (lookup_registered hids)
  | register name rest =>
    simp only [runJob]
    split
    · exact .quiet _
    · next books hbooks => exact .register name books hbooks
  | unregister name rest =>
    simp only [runJob]
    split
    · exact .quiet _
    · next id hid => exact .unregister name id hid

variable {k i : ℕ} {s : Manager}

/-- A choice among the parts of a gather leaves the other parts. -/
theorem perm_of_choice {todo : List LoraId} {id : LoraId} (h : todo[k]? = some id) :
    todo.Perm (id :: todo.eraseIdx k) := by
  obtain ⟨hk, rfl⟩ := List.getElem?_eq_some_iff.mp h
  exact (List.getElem_cons_eraseIdx_perm hk).symm

/-- Every step has one of the effects. -/
theorem step_effect (clear : LoraId → Prop) {s : Shared} {φ : Phase} {o : Out} (h : φ.step s k = some o)
    (hclear : ∀ id rest, φ = .waitForZero id rest → s.count id = 0 → clear id) :
    Effect clear s.toBooks φ.holding o.shared.toBooks o.phase.holding := by
  cases φ with
  | enterWriter job =>
    cases h
    obtain ⟨hb, hh⟩ := tryWriter_effect { s with lock := s.lock.announceWriter } job
    rw [hb, hh]
    exact .quiet _
  | queuedWriter job =>
    cases h
    obtain ⟨hb, hh⟩ := tryWriter_effect s job
    rw [hb, hh]
    exact .quiet _
  | inWriter job =>
    cases h
    exact runJob_effect clear s job
  | leaveWriter | running | leaveReader | unlockUpdates =>
    cases h
    exact .quiet _
  | fetch ids | inReader ids =>
    simp only [Phase.step] at h
    split at h
    · cases h
      exact .quiet _
    · next hmiss =>
      cases h
      push Not at hmiss
      obtain ⟨id, hid, hmiss⟩ := hmiss
      exact .missing _ _ id (.inl hid) hmiss
  | increment ids todo =>
    cases todo with
    | nil =>
      cases h
      exact .quiet _
    | cons id todo =>
      obtain ⟨id', hid', rfl⟩ := map_eq_some_iff.mp h
      exact .count (Phase.increment ids (id :: todo)).holding id' _ (perm_of_choice hid')
  | enterReader ids =>
    simp only [Phase.step] at h
    split at h
    · cases h
      exact .quiet _
    · cases h
      exact .quiet _
  | decrement todo =>
    cases todo with
    | nil =>
      cases h
      exact .quiet _
    | cons id todo =>
      obtain ⟨id', hid', rfl⟩ := map_eq_some_iff.mp h
      exact .uncount _ _ id' (perm_of_choice hid')
  | lockUpdates todo =>
    simp only [Phase.step] at h
    split at h
    · cases h
    · cases h
      exact .quiet _
  | update todo =>
    rcases todo with _ | ⟨_ | _, rest⟩
    · cases h
      exact .quiet _
    · cases h
      exact .quiet _
    · cases h
      exact .quiet _
  | waitForUnload id rest =>
    simp only [Phase.step] at h
    split at h
    · cases h
      exact .quiet _
    · next hmiss =>
      cases h
      exact .missing _ _ id (.inr rfl) hmiss
  | waitForZero id rest =>
    simp only [Phase.step] at h
    split at h
    · next h0 =>
      cases h
      exact .zero id h0 (hclear id rest rfl h0)
    · cases h
      exact .quiet _
  | deleteCounter id rest =>
    simp only [Phase.step] at h
    split at h
    · cases h
      exact .delete id
    · next hmiss =>
      cases h
      exact .missing _ _ id (.inr rfl) hmiss
  | done | valueError | keyError | assertionError => cases h

/-! ## The invariant -/

/-- The registry's own tables: a registered id has a counter and one name; an id not created yet, or
unloaded, has none. -/
structure Books.Valid (b : Books) : Prop where
  registered : ∀ name id, b.registry.lookup name = some id → id ∈ b.counters
  injective : Dict.Inj b.registry
  fresh : ∀ id, b.nextId ≤ id → id ∉ b.counters ∧ b.count id = 0 ∧ id ∉ b.unloaded
  unloaded : ∀ id ∈ b.unloaded, id ∉ b.counters

/-- What one coroutine holds, against the tables: a claim is made on a counter that exists, and so is an
unload, of an id that is not registered any more. -/
structure Holding.Fits (b : Books) (h : Holding) : Prop where
  pending_sub : h.pending ⊆ h.claimed
  claimed_mem : ∀ id ∈ h.claimed, id ∈ b.counters
  unloading_mem : ∀ id, h.unloading = some id →
    id ∈ b.counters ∧ ∀ name, b.registry.lookup name ≠ some id
  sound : h.raised = false

/-- An unload that saw zero has no claim left to wait for. -/
def Zeroed (H : Multiset Holding) : Prop :=
  ∀ h ∈ H, h.zeroed = true → ∀ id, h.unloading = some id → ∀ g ∈ H, id ∉ g.claimed

/-- The tables against what the coroutines hold. The counter of an id counts the claims made on it and
counted, and no two coroutines unload one id. -/
structure Inv (b : Books) (H : Multiset Holding) : Prop where
  valid : b.Valid
  fits : ∀ h ∈ H, h.Fits b
  counted : ∀ id, b.count id = (H.map (Holding.weight id)).sum
  once : ∀ id, (H.map Holding.unloading).count (some id) ≤ 1
  zeroed : Zeroed H

theorem Holding.empty_fits (b : Books) : ({} : Holding).Fits b := by
  refine ⟨List.Subset.refl _, ?_, ?_, rfl⟩
  · intro id hid
    cases hid
  · intro id hid
    cases hid

section Effects

variable {b b' : Books} {R : Multiset Holding} {h h' : Holding} {id : LoraId} {name : String}

/-- A coroutine that holds nothing changes nothing. -/
theorem inv_idle : Inv b R ↔ Inv b ({} ::ₘ R) := by
  have hw : ∀ id, Holding.weight id {} = 0 := fun id => rfl
  constructor
  · intro inv
    refine ⟨inv.valid, forall_mem_cons.mpr ⟨Holding.empty_fits b, inv.fits⟩, ?_, ?_, ?_⟩
    · intro id
      rw [map_cons, sum_cons, hw, Int.zero_add]
      exact inv.counted id
    · intro id
      rw [map_cons, count_cons_of_ne (some_ne_none id)]
      exact inv.once id
    · intro g hg hz id hid
      rcases mem_cons.mp hg with rfl | hg
      · cases hz
      · rw [forall_mem_cons]
        exact ⟨List.not_mem_nil, inv.zeroed g hg hz id hid⟩
  · intro inv
    refine ⟨inv.valid, (forall_mem_cons.mp inv.fits).2, ?_, ?_, ?_⟩
    · intro id
      rw [inv.counted id, map_cons, sum_cons, hw, Int.zero_add]
    · intro id
      have hone := inv.once id
      rw [map_cons, count_cons_of_ne (some_ne_none id)] at hone
      exact hone
    · intro g hg hz id hid g' hg'
      exact inv.zeroed g (mem_cons_of_mem hg) hz id hid g' (mem_cons_of_mem hg')

/-- A coroutine may lose claims, and may begin an unload that has not seen zero. -/
theorem Zeroed.mono (hz : Zeroed (h ::ₘ R)) (hc : h'.claimed ⊆ h.claimed)
    (hu : h'.zeroed = true → h.zeroed = true ∧ h'.unloading = h.unloading) :
    Zeroed (h' ::ₘ R) := by
  intro g hg hgz id hid
  rw [forall_mem_cons]
  rcases mem_cons.mp hg with rfl | hg
  · obtain ⟨hz', hu'⟩ := hu hgz
    have hall := hz h (mem_cons_self h R) hz' id (hu' ▸ hid)
    rw [forall_mem_cons] at hall
    exact ⟨fun hmem => hall.1 (hc hmem), hall.2⟩
  · have hall := hz g (mem_cons_of_mem hg) hgz id hid
    rw [forall_mem_cons] at hall
    exact ⟨fun hmem => hall.1 (hc hmem), hall.2⟩

theorem Inv.lookup (inv : Inv b ({} ::ₘ R)) {ids : List LoraId}
    (hids : ∀ id ∈ ids, ∃ name, b.registry.lookup name = some id) :
    Inv b ({ claimed := ids, pending := ids } ::ₘ R) := by
  have hR := (forall_mem_cons.mp inv.fits).2
  refine ⟨inv.valid, forall_mem_cons.mpr ⟨⟨List.Subset.refl ids, ?_, ?_, rfl⟩, hR⟩, ?_, ?_, ?_⟩
  · intro id hid
    obtain ⟨name, hname⟩ := hids id hid
    exact inv.valid.registered name id hname
  · intro id hid
    cases hid
  · intro id
    rw [inv.counted id]
    simp [Holding.weight]
  · intro id
    have hone := inv.once id
    rw [map_cons] at hone ⊢
    exact hone
  · intro g hg hz id hid
    rcases mem_cons.mp hg with rfl | hg
    · cases hz
    rw [forall_mem_cons]
    constructor
    · -- an id that is being unloaded is not registered any more
      intro hmem
      obtain ⟨name, hname⟩ := hids id hmem
      exact ((hR g hg).unloading_mem id hid).2 name hname
    · intro g' hg'
      exact inv.zeroed g (mem_cons_of_mem hg) hz id hid g' (mem_cons_of_mem hg')

/-- A counter that exists changes by as much as the holding of the coroutine that runs. -/
theorem Inv.recount (inv : Inv b (h ::ₘ R)) (h' : Holding) (hid : id ∈ b.counters) (d : ℤ) (fits : h'.Fits b)
    (hw : ∀ k, h'.weight k = h.weight k + if k = id then d else 0)
    (hu : h'.unloading = h.unloading) (hz : h'.zeroed = h.zeroed) (hc : h'.claimed ⊆ h.claimed) :
    Inv { b with count := update b.count id (b.count id + d) } (h' ::ₘ R) := by
  have hold := (forall_mem_cons.mp inv.fits).2
  refine ⟨⟨inv.valid.registered, inv.valid.injective, ?_, inv.valid.unloaded⟩, ?_, ?_, ?_, ?_⟩
  · intro k hk
    obtain ⟨hk1, hk2, hk3⟩ := inv.valid.fresh k hk
    have hne : k ≠ id := by
      rintro rfl
      exact hk1 hid
    refine ⟨hk1, ?_, hk3⟩
    show update b.count id _ k = 0
    rw [update_of_ne hne]
    exact hk2
  · rw [forall_mem_cons]
    refine ⟨{ fits with }, ?_⟩
    intro g hg
    exact ⟨(hold g hg).1, (hold g hg).2, (hold g hg).3, (hold g hg).4⟩
  · intro k
    have hk := inv.counted k
    rw [map_cons, sum_cons] at hk ⊢
    show update b.count id _ k = _
    rw [hw k]
    by_cases hkid : k = id
    · subst hkid
      rw [update_self, if_pos rfl]
      omega
    · rw [update_of_ne hkid, if_neg hkid]
      omega
  · intro k
    have hone := inv.once k
    rw [map_cons] at hone ⊢
    rw [hu]
    exact hone
  · apply inv.zeroed.mono hc
    intro hzt
    exact ⟨hz ▸ hzt, hu⟩

theorem count_cons_of_perm {l l' : List LoraId} (hp : l.Perm (id :: l')) (k : LoraId) :
    (l.count k : ℤ) = l'.count k + if k = id then 1 else 0 := by
  rw [hp.count_eq, List.count_cons]
  by_cases hk : k = id
  · subst hk
    simp
  · have : id ≠ k := fun h => hk h.symm
    simp [hk, this]

theorem Inv.count (inv : Inv b (h ::ₘ R)) {todo : List LoraId} (hp : h.pending.Perm (id :: todo)) :
    Inv { b with count := update b.count id (b.count id + 1) } ({ h with pending := todo } ::ₘ R) := by
  have fits := (forall_mem_cons.mp inv.fits).1
  have hsub : todo ⊆ h.pending := fun k hk => hp.symm.subset (List.mem_cons_of_mem id hk)
  have hid : id ∈ h.claimed := fits.pending_sub (hp.symm.subset List.mem_cons_self)
  refine inv.recount { h with pending := todo } (fits.claimed_mem id hid) 1 ?_ ?_ rfl rfl (List.Subset.refl _)
  · exact ⟨fun k hk => fits.pending_sub (hsub hk), fits.2, fits.3, fits.4⟩
  · intro k
    have hk := count_cons_of_perm hp k
    show (h.claimed.count k : ℤ) - todo.count k = h.claimed.count k - h.pending.count k + _
    rw [hk]
    omega

theorem Inv.uncount {todo rest : List LoraId} (inv : Inv b ({ claimed := todo } ::ₘ R))
    (hp : todo.Perm (id :: rest)) :
    Inv { b with count := update b.count id (b.count id - 1) } ({ claimed := rest } ::ₘ R) := by
  have fits := (forall_mem_cons.mp inv.fits).1
  have hsub : rest ⊆ todo := fun k hk => hp.symm.subset (List.mem_cons_of_mem id hk)
  have hid : id ∈ todo := hp.symm.subset List.mem_cons_self
  refine inv.recount { claimed := rest } (fits.claimed_mem id hid) (-1) ?_ ?_ rfl rfl hsub
  · exact ⟨List.nil_subset _, fun k hk => fits.claimed_mem k (hsub hk), fits.3, rfl⟩
  · intro k
    have hk := count_cons_of_perm hp k
    show (rest.count k : ℤ) - ([] : List LoraId).count k = todo.count k - ([] : List LoraId).count k + _
    rw [hk]
    split <;> omega

theorem registerAdapter_some (hreg : registerAdapter b name = some b') : name ∉ b.registry ∧ b' = { b with
      registry := b.registry.insert name b.nextId
      counters := insert b.nextId b.counters
      count := update b.count b.nextId 0
      nextId := b.nextId + 1 } := by
  unfold registerAdapter at hreg
  split at hreg
  · cases hreg
  · next hname => exact ⟨hname, (Option.some.inj hreg).symm⟩

theorem Books.Valid.register (v : b.Valid) (hreg : registerAdapter b name = some b') : b'.Valid := by
  obtain ⟨hname, rfl⟩ := registerAdapter_some hreg
  have hnew := v.fresh b.nextId (le_refl _)
  refine ⟨?_, ?_, ?_, ?_⟩
  · intro n id hn
    rcases Dict.lookup_insert_iff.mp hn with ⟨_, rfl⟩ | ⟨_, hn⟩
    · exact Finset.mem_insert_self _ _
    · exact Finset.mem_insert_of_mem (v.registered n id hn)
  · -- the new id is no registered name's id
    exact v.injective.insert fun n hn => absurd (v.registered n _ hn) hnew.1
  · intro id hid
    have hlt : b.nextId < id := hid
    obtain ⟨h1, h2, h3⟩ := v.fresh id (le_of_lt hlt)
    refine ⟨?_, ?_, h3⟩
    · intro hmem
      rcases Finset.mem_insert.mp hmem with rfl | hmem
      · exact lt_irrefl _ hlt
      · exact h1 hmem
    · show update b.count b.nextId 0 id = 0
      rw [update_of_ne (ne_of_gt hlt)]
      exact h2
  · intro id hid hmem
    rcases Finset.mem_insert.mp hmem with rfl | hmem
    · exact hnew.2.2 hid
    · exact v.unloaded id hid hmem

theorem Inv.register (inv : Inv b ({} ::ₘ R)) (hreg : registerAdapter b name = some b') :
    Inv b' ({} ::ₘ R) := by
  have valid := inv.valid.register hreg
  obtain ⟨hname, rfl⟩ := registerAdapter_some hreg
  have hnew := inv.valid.fresh b.nextId (le_refl _)
  refine ⟨valid, ?_, ?_, inv.once, inv.zeroed⟩
  · intro g hg
    obtain ⟨f1, f2, f3, f4⟩ := inv.fits g hg
    refine ⟨f1, fun id hid => Finset.mem_insert_of_mem (f2 id hid), ?_, f4⟩
    intro id hid
    obtain ⟨hmem, hnot⟩ := f3 id hid
    refine ⟨Finset.mem_insert_of_mem hmem, ?_⟩
    intro n hn
    rcases Dict.lookup_insert_iff.mp hn with ⟨_, rfl⟩ | ⟨_, hn⟩
    · exact hnew.1 hmem
    · exact hnot n hn
  · intro id
    show update b.count b.nextId 0 id = _
    rw [← inv.counted id]
    by_cases hid : id = b.nextId
    · rw [hid, update_self, hnew.2.1]
    · rw [update_of_ne hid]

theorem Inv.unregister (inv : Inv b ({} ::ₘ R)) (hname : b.registry.lookup name = some id) :
    Inv { b with registry := b.registry.erase name } ({ unloading := some id } ::ₘ R) := by
  have hR := (forall_mem_cons.mp inv.fits).2
  refine ⟨⟨?_, ?_, inv.valid.fresh, inv.valid.unloaded⟩, ?_, ?_, ?_, ?_⟩
  · intro n k hn
    exact inv.valid.registered n k (Dict.lookup_erase_iff.mp hn).2
  · exact inv.valid.injective.erase
  · rw [forall_mem_cons]
    refine ⟨⟨List.Subset.refl _, List.forall_mem_nil _, ?_, rfl⟩, ?_⟩
    · intro k hk
      cases hk
      refine ⟨inv.valid.registered name id hname, ?_⟩
      intro n hn
      obtain ⟨hne, hn⟩ := Dict.lookup_erase_iff.mp hn
      exact hne (inv.valid.injective n name id hn hname)
    · intro g hg
      obtain ⟨f1, f2, f3, f4⟩ := hR g hg
      refine ⟨f1, f2, ?_, f4⟩
      intro k hk
      refine ⟨(f3 k hk).1, ?_⟩
      intro n hn
      exact (f3 k hk).2 n (Dict.lookup_erase_iff.mp hn).2
  · intro k
    rw [inv.counted k]
    simp [Holding.weight]
  · intro k
    rw [map_cons]
    by_cases hk : k = id
    · -- nobody else unloads a registered id
      subst hk
      rw [count_cons_self, count_eq_zero_of_notMem]
      intro hmem
      obtain ⟨g, hg, hgid⟩ := mem_map.mp hmem
      exact ((hR g hg).unloading_mem k hgid).2 name hname
    · have hone := inv.once k
      rw [map_cons] at hone
      have hne : some k ≠ some id := fun h => hk (Option.some.inj h)
      rw [count_cons_of_ne hne]
      exact (count_le_count_cons _ _ _).trans hone
  · apply inv.zeroed.mono
    · exact List.nil_subset _
    · intro hz
      cases hz

/-- A counter at zero and no claim that is not counted yet: there is no claim at all. -/
theorem Inv.zero (inv : Inv b ({ unloading := some id } ::ₘ R)) (h0 : b.count id = 0)
    (hclear : ∀ g ∈ R, id ∉ g.pending) :
    Inv b ({ unloading := some id, zeroed := true } ::ₘ R) := by
  obtain ⟨fits, hR⟩ := forall_mem_cons.mp inv.fits
  have hsum : (R.map (Holding.weight id)).sum = 0 := by
    have h := inv.counted id
    rw [map_cons, sum_cons, h0] at h
    simpa [Holding.weight] using h.symm
  have hweight : ∀ g ∈ R, g.weight id = g.claimed.count id := by
    intro g hg
    unfold Holding.weight
    rw [List.count_eq_zero_of_not_mem (hclear g hg)]
    simp
  have hnone : ∀ g ∈ R, id ∉ g.claimed := by
    intro g hg hmem
    have hle : g.weight id ≤ (R.map (Holding.weight id)).sum := by
      apply single_le_sum
      · intro x hx
        obtain ⟨g', hg', rfl⟩ := mem_map.mp hx
        rw [hweight g' hg']
        exact Int.natCast_nonneg _
      · exact mem_map_of_mem _ hg
    rw [hsum, hweight g hg] at hle
    have hpos := List.count_pos_iff.mpr hmem
    omega
  refine ⟨inv.valid, ?_, ?_, ?_, ?_⟩
  · rw [forall_mem_cons]
    exact ⟨{ fits with }, hR⟩
  · intro k
    rw [inv.counted k]
    simp [Holding.weight]
  · intro k
    have hone := inv.once k
    rw [map_cons] at hone ⊢
    exact hone
  · intro g hg hz k hk
    rcases mem_cons.mp hg with rfl | hg
    · cases hk
      rw [forall_mem_cons]
      exact ⟨List.not_mem_nil, hnone⟩
    · have hall := inv.zeroed g (mem_cons_of_mem hg) hz k hk
      rw [forall_mem_cons] at hall ⊢
      exact hall

theorem Inv.delete (inv : Inv b ({ unloading := some id, zeroed := true } ::ₘ R)) :
    Inv { b with counters := b.counters.erase id, unloaded := id :: b.unloaded } ({} ::ₘ R) := by
  obtain ⟨fits, hR⟩ := forall_mem_cons.mp inv.fits
  obtain ⟨hid, hnot⟩ := fits.unloading_mem id rfl
  have hclaim : ∀ g ∈ R, id ∉ g.claimed := by
    intro g hg
    exact inv.zeroed _ (mem_cons_self _ _) rfl id rfl g (mem_cons_of_mem hg)
  have hother : ∀ g ∈ R, g.unloading ≠ some id := by
    intro g hg hgid
    have hone := inv.once id
    rw [map_cons, count_cons_self] at hone
    have hpos := count_pos.mpr (mem_map_of_mem Holding.unloading hg)
    rw [hgid] at hpos
    omega
  refine ⟨⟨?_, inv.valid.injective, ?_, ?_⟩, ?_, ?_, ?_, ?_⟩
  · intro n k hn
    apply Finset.mem_erase.mpr
    refine ⟨?_, inv.valid.registered n k hn⟩
    rintro rfl
    exact hnot n hn
  · intro k hk
    obtain ⟨h1, h2, h3⟩ := inv.valid.fresh k hk
    refine ⟨fun hmem => h1 (Finset.mem_of_mem_erase hmem), h2, ?_⟩
    intro hmem
    rcases List.mem_cons.mp hmem with rfl | hmem
    · exact h1 hid
    · exact h3 hmem
  · intro k hk hmem
    rcases List.mem_cons.mp hk with rfl | hk
    · exact Finset.notMem_erase _ _ hmem
    · exact inv.valid.unloaded k hk (Finset.mem_of_mem_erase hmem)
  · rw [forall_mem_cons]
    refine ⟨Holding.empty_fits _, ?_⟩
    intro g hg
    obtain ⟨f1, f2, f3, f4⟩ := hR g hg
    refine ⟨f1, ?_, ?_, f4⟩
    · intro k hk
      apply Finset.mem_erase.mpr
      refine ⟨?_, f2 k hk⟩
      rintro rfl
      exact hclaim g hg hk
    · intro k hk
      refine ⟨Finset.mem_erase.mpr ⟨?_, (f3 k hk).1⟩, (f3 k hk).2⟩
      rintro rfl
      exact hother g hg hk
  · intro k
    rw [inv.counted k]
    simp [Holding.weight]
  · intro k
    have hone := inv.once k
    rw [map_cons] at hone ⊢
    have hne : some k ≠ (none : Option LoraId) := some_ne_none k
    rw [count_cons_of_ne hne]
    exact (count_le_count_cons _ _ _).trans hone
  · apply inv.zeroed.mono
    · exact List.nil_subset _
    · intro hz
      cases hz

/-- Every effect keeps the invariant, if `clear id` says that no other coroutine has a claim on `id` that it
has not counted. -/
theorem Inv.effect {clear : LoraId → Prop} (inv : Inv b (h ::ₘ R)) (e : Effect clear b h b' h')
    (hclear : ∀ id, clear id → ∀ g ∈ R, id ∉ g.pending) :
    Inv b' (h' ::ₘ R) := by
  cases e with
  | quiet => exact inv
  | lookup ids hids => exact inv.lookup hids
  | missing h h' id hid hmiss =>
    have fits := (forall_mem_cons.mp inv.fits).1
    rcases hid with hid | hid
    · exact absurd (fits.claimed_mem id hid) hmiss
    · exact absurd (fits.unloading_mem id hid).1 hmiss
  | count h id todo hp => exact inv.count hp
  | uncount todo rest id hp => exact inv.uncount hp
  | register name b' hreg => exact inv.register hreg
  | unregister name id hname => exact inv.unregister hname
  | zero id h0 hc => exact inv.zero h0 (hclear id hc)
  | delete id => exact inv.delete

end Effects

/-! ## Runs -/

/-- The guard: a wait that is about to see its counter at zero runs only when no coroutine has looked that id
up and not counted itself yet. -/
def unloadClear (s : Manager) (i : ℕ) : Bool :=
  match s.tasks[i]? with
  | some ⟨.waitForZero id _, none⟩ =>
    decide (s.shared.count id ≠ 0) || s.tasks.all fun t => decide (id ∉ t.phase.holding.pending)
  | _ => true

/-- One step of the tokenizer manager, under a guard on what runs. -/
abbrev Manager.Step (guard : Manager → ℕ → Bool) : Manager → Manager → Prop :=
  Pool.Step Phase.starts (fun s φ choice => φ.step s choice) fun s i _ => guard s i

/-- The managers reached from a registry built for `lora_paths`, with any number of coroutines, interleaved
in any way the guard allows. -/
def Manager.Reachable (guard : Manager → ℕ → Bool) (s : Manager) : Prop :=
  ∃ loraPaths books, initBooks loraPaths = some books ∧
    Relation.ReflTransGen (Manager.Step guard) (Manager.init books) s

/-- Every interleaving. -/
abbrev anyOrder : Manager → ℕ → Bool := fun _ _ => true

/-- **The property.** For an id for which `wait_for_unload` returned, no request that looked it up has it
unreleased, be it that its `acquire` returned already or is still to go on; and no coroutine found a counter
missing. -/
def Manager.Settled (s : Manager) : Prop :=
  (∀ id ∈ s.shared.unloaded, ∀ φ ∈ s.phases, id ∉ φ.holding.claimed) ∧
    ∀ φ ∈ s.phases, φ.holding.raised = false

/-- The invariant of the registry, for a manager. -/
def Manager.Inv (s : Manager) : Prop := Lora.Inv s.shared.toBooks (s.crew.map Phase.holding)

theorem initBooks_inv {loraPaths : List String} {books : Books}
    (h : initBooks loraPaths = some books) : Inv books 0 := by
  have hempty : Inv ⟨∅, ∅, fun _ => 0, 0, []⟩ 0 := by
    refine ⟨⟨?_, ?_, ?_, ?_⟩, ?_, fun _ => rfl, fun _ => Nat.zero_le 1, ?_⟩
    · intro name id hid
      cases hid
    · intro name name' id hid
      cases hid
    · intro id _
      exact ⟨Finset.notMem_empty id, rfl, List.not_mem_nil⟩
    · intro id hid
      cases hid
    · intro h hh
      cases hh
    · intro h hh
      cases hh
  unfold initBooks at h
  revert hempty h
  generalize (⟨∅, ∅, fun _ => 0, 0, []⟩ : Books) = start
  intro h hstart
  induction loraPaths generalizing start with
  | nil =>
    cases h
    exact hstart
  | cons name loraPaths ih =>
    rw [List.foldlM_cons] at h
    obtain ⟨b, hb, h⟩ := bind_eq_some_iff.mp h
    exact ih b h (inv_idle.mpr ((inv_idle.mp hstart).register hb))

theorem starts_holding {φ : Phase} (h : φ.starts = true) : φ.holding = {} := by
  cases φ with
  | enterWriter job => rfl
  | lockUpdates todo => rfl
  | _ => cases h

/-- What the guard grants when a wait sees zero. -/
theorem unloadClear_spec {t : Task Phase Cond} (hi : s.tasks[i]? = some t) (awake : t.asleep = none)
    (hg : unloadClear s i = true) {id : LoraId} {rest : List Update} (hφ : t.phase = .waitForZero id rest)
    (h0 : s.shared.count id = 0) :
    ∀ φ ∈ s.phases, id ∉ φ.holding.pending := by
  obtain ⟨phase, asleep⟩ := t
  cases awake
  cases hφ
  unfold unloadClear at hg
  simp only [hi, h0, ne_eq, not_true_eq_false, decide_false, Bool.false_or, List.all_eq_true,
    decide_eq_true_eq] at hg
  intro φ hφ
  obtain ⟨t, ht, rfl⟩ := List.mem_map.mp hφ
  exact hg t ht

theorem Manager.Step.inv {s' : Manager} (h : Manager.Step unloadClear s s') (inv : s.Inv) : s'.Inv := by
  cases h with
  | spawn φ hφ =>
    unfold Manager.Inv
    rw [crew_spawn, map_cons, starts_holding hφ]
    exact inv_idle.mp inv
  | run i choice t o hi awake ho hg =>
    obtain ⟨rest, hcrew, hcrew'⟩ := crew_resume hi o
    unfold Manager.Inv at inv ⊢
    rw [hcrew, map_cons] at inv
    rw [hcrew', map_cons]
    -- a wait is clear when the others have no claim to count on it
    apply inv.effect (step_effect (fun id => ∀ φ ∈ s.phases, id ∉ φ.holding.pending) ho _)
    · intro id hclear g hg
      obtain ⟨φ, hφ, rfl⟩ := mem_map.mp hg
      apply hclear φ
      rw [← mem_crew, hcrew]
      exact mem_cons_of_mem hφ
    · intro id todo hφ h0
      exact unloadClear_spec hi awake hg hφ h0

theorem Manager.Reachable.inv (h : Manager.Reachable unloadClear s) : s.Inv := by
  obtain ⟨loraPaths, books, hbooks, hrun⟩ := h
  induction hrun with
  | refl => exact initBooks_inv hbooks
  | tail _ hstep ih => exact Manager.Step.inv hstep ih

theorem Manager.Inv.settled (inv : s.Inv) : s.Settled := by
  constructor
  · intro id hid φ hφ hmem
    have fits := inv.fits φ.holding (mem_map_of_mem _ (mem_crew.mpr hφ))
    exact inv.valid.unloaded id hid (fits.claimed_mem id hmem)
  · intro φ hφ
    exact (inv.fits φ.holding (mem_map_of_mem _ (mem_crew.mpr hφ))).sound

/-- When the guard would hold a wait back, letting it run ends the unload under a request that still claims
the id. -/
theorem Manager.Inv.overtaken (inv : s.Inv) (hg : unloadClear s i = false) :
    ∃ s', Relation.ReflTransGen (Manager.Step anyOrder) s s' ∧ ¬ s'.Settled := by
  unfold unloadClear at hg
  split at hg
  · next id rest hi =>
    simp only [ne_eq, decide_not, Bool.or_eq_false_iff, Bool.not_eq_false', decide_eq_true_eq,
      List.all_eq_false] at hg
    obtain ⟨h0, t, ht, hpend⟩ := hg
    replace hpend : id ∈ t.phase.holding.pending := by simpa using hpend
    -- the wait sees zero, then deletes the counter and returns
    let o₁ : Out := { shared := s.shared, phase := .deleteCounter id rest }
    let o₂ : Out :=
      { shared := { s.shared with
          counters := s.shared.counters.erase id, unloaded := id :: s.shared.unloaded }
        phase := .update rest }
    have hzero : Phase.step s.shared 0 (.waitForZero id rest) = some o₁ := if_pos h0
    have hwait := inv.fits _ (mem_map_of_mem Phase.holding (mem_crew.mpr (mem_phases hi)))
    have hdelete : Phase.step s.shared 0 (.deleteCounter id rest) = some o₂ :=
      if_pos (hwait.unloading_mem id rfl).1
    have hi₁ : (s.resume i o₁).tasks[i]? = some ⟨.deleteCounter id rest, none⟩ :=
      resume_self hi o₁
    refine ⟨(s.resume i o₁).resume i o₂, ?_, ?_⟩
    · exact Relation.ReflTransGen.refl.tail (.run i 0 _ o₁ hi rfl hzero rfl)
        |>.tail (.run i 0 _ o₂ hi₁ rfl hdelete rfl)
    · intro hsettled
      have hmem : t.phase ∈ s.phases := List.mem_map_of_mem ht
      have hne : t.phase ≠ .waitForZero id rest := by
        intro h
        rw [h] at hpend
        cases hpend
      have hne' : t.phase ≠ .deleteCounter id rest := by
        intro h
        rw [h] at hpend
        cases hpend
      have hmem₁ := mem_phases_resume hi o₁ hmem hne
      have hmem₂ := mem_phases_resume hi₁ o₂ hmem₁ hne'
      apply hsettled.1 id List.mem_cons_self t.phase hmem₂
      exact (inv.fits _ (mem_map_of_mem Phase.holding (mem_crew.mpr hmem))).pending_sub hpend
  · cases hg

/-- **An adapter is unloaded after its last release, if lookups are counted in time.** In every interleaving in
which no wait sees a counter at zero between a lookup and its count, every state is settled; and where the
guard fails, the property is lost two steps on. -/
theorem unload_after_last_release {s : Manager} (h : Manager.Reachable unloadClear s) :
    s.Settled ∧ ∀ i, unloadClear s i = false →
      ∃ s', Relation.ReflTransGen (Manager.Step anyOrder) s s' ∧ ¬ s'.Settled := by
  refine ⟨h.inv.settled, ?_⟩
  intro i hi
  exact h.inv.overtaken hi

/-- The manager after a list of scheduling decisions, from a registry with the one adapter `adapter`. -/
def scheduled (guard : Manager → ℕ → Bool) (ds : List (Decision Phase ℕ)) : Option Manager :=
  (initBooks ["adapter"]).bind fun books =>
    Pool.exec Phase.starts (fun s φ choice => φ.step s choice) (fun s i _ => guard s i)
      (Manager.init books) ds

theorem scheduled_reachable {guard : Manager → ℕ → Bool} {ds : List (Decision Phase ℕ)}
    (h : scheduled guard ds = some s) : Manager.Reachable guard s := by
  obtain ⟨books, hbooks, h⟩ := bind_eq_some_iff.mp h
  exact ⟨["adapter"], books, hbooks, exec_reachable h⟩

/-- A request for the adapter runs up to the lookup of the counter. -/
def acquireLooksUp : List (Decision Phase ℕ) :=
  [.spawn (.enterWriter (.lookup [some "adapter"])), .run 0 0, .run 0 0, .run 0 0]

/-- An unload of the adapter runs to its end. -/
def unloadRuns : List (Decision Phase ℕ) :=
  [.spawn (.lockUpdates [.unload "adapter"]), .run 1 0, .run 1 0, .run 1 0, .run 1 0, .run 1 0,
    .run 1 0, .run 1 0, .run 1 0]

/-- The unload overtakes `acquire([name])`, whose increments are tasks of their own: they run when the adapter
is unloaded, and the request runs with it. -/
theorem unload_overtakes_acquire :
    ∃ s, Manager.Reachable anyOrder s ∧ 0 ∈ s.shared.unloaded ∧ .running [some 0] ∈ s.phases := by
  have h : ((scheduled anyOrder (acquireLooksUp ++ [.run 0 0] ++ unloadRuns ++ [.run 0 0, .run 0 0])).map
      fun s => decide (0 ∈ s.shared.unloaded ∧ Phase.running [some 0] ∈ s.phases)) = some true := by
    decide
  obtain ⟨s, hs, hp⟩ := map_eq_some_iff.mp h
  exact ⟨s, scheduled_reachable hs, of_decide_eq_true hp⟩

/-- A request that runs and releases before the unload: the adapter is unloaded, and nobody claims it. -/
theorem unload_after_last_release_served :
    ∃ s : Manager, s.shared.unloaded = [0] ∧ s.phases.head? = some .done ∧ s.Settled := by
  have h : ((scheduled unloadClear (acquireLooksUp ++
      [.run 0 0, .run 0 0, .run 0 0, .run 0 0, .run 0 0, .run 0 0, .run 0 0, .run 0 0, .run 0 0] ++
      unloadRuns)).map fun s =>
      decide (s.shared.unloaded = [0] ∧ s.phases.head? = some .done)) = some true := by
    decide
  obtain ⟨s, hs, hp⟩ := map_eq_some_iff.mp h
  obtain ⟨hu, hd⟩ := of_decide_eq_true hp
  exact ⟨s, hu, hd, (unload_after_last_release (scheduled_reachable hs)).1⟩

end SGLang.Lora
