/-
# SGLang.Lora.LoRAManager — which adapters fit into a batch, fetching them and finding their slots.

The manager knows the loaded adapters and how many of them are pinned. `validateLoraBatch` decides whether a set
of adapters could be in the pool next to all pinned ones; `fetchNewLoras` brings a set into the pool;
`prepareLoraBatch` gives each request of a batch the slot of its adapter, or slot 0 if the adapter has none.
With overlap loading the adapters are fetched one at a time while batches run, and a request waits until the
event of its adapter's load is reached.

Two facts carry what follows: a set that passes the check fits into the pool together with the pinned adapters
(`card_le_of_validateLoraBatch`), and a set that fits is fetched (`fetchNewLoras_spec`).
-/
import SGLang.Lora.LoRAMemoryPool

namespace SGLang.Lora

open SGLang.Lib List LoRAMemoryPool LoRARefs
open Bool (false_ne_true)
open Dict (arrange)
open LoRARef (pinned)

/-! ## The loaded adapters -/

namespace LoRARefs

variable {refs : LoRARefs} {a : Uid} {id : LoraId} {ref : LoRARef}

/-- The pinned adapters. -/
def pinnedUids (refs : LoRARefs) : Finset Uid := ((refs.keys.map some).filter refs.isPinned).toFinset

theorem mem_pinnedUids : a ∈ refs.pinnedUids ↔ refs.isPinned a = true := by
  unfold pinnedUids
  rw [mem_toFinset, mem_filter]
  constructor
  · exact fun h => h.2
  · intro h
    refine ⟨?_, h⟩
    rcases a with _ | u
    · exact absurd h false_ne_true
    · apply mem_map_of_mem
      rw [← AList.mem_keys, ← AList.lookup_isSome]
      have hany : (refs.lookup u).any pinned = true := h
      cases hu : refs.lookup u with
      | none =>
        rw [hu] at hany
        exact absurd hany false_ne_true
      | some _ => rfl

theorem isPinned_insert :
    isPinned (refs.insert id ref) a = if a = some id then ref.pinned else refs.isPinned a := by
  rcases a with _ | u
  · rfl
  · by_cases hu : u = id
    · subst hu
      simp [isPinned]
    · simp [isPinned, hu, AList.lookup_insert_ne hu]

theorem isPinned_erase : isPinned (refs.erase id) a = if a = some id then false else refs.isPinned a := by
  rcases a with _ | u
  · rfl
  · by_cases hu : u = id
    · subst hu
      simp [isPinned]
    · simp [isPinned, hu, AList.lookup_erase_ne hu]

theorem isPinned_of_lookup (h : refs.lookup id = some ref) : refs.isPinned (some id) = ref.pinned := by
  show (refs.lookup id).any pinned = ref.pinned
  rw [h]
  rfl

theorem card_pinnedUids_insert (h : refs.lookup id = none) :
    ((pinnedUids (refs.insert id ref)).card : ℤ) = refs.pinnedUids.card + ref.pinned.toInt := by
  have hnot : some id ∉ refs.pinnedUids := by
    rw [mem_pinnedUids]
    show ¬ (refs.lookup id).any pinned = true
    rw [h]
    exact false_ne_true
  cases hp : ref.pinned with
  | false =>
    have heq : pinnedUids (refs.insert id ref) = refs.pinnedUids := by
      ext a
      rw [mem_pinnedUids, mem_pinnedUids, isPinned_insert, hp]
      split
      · rename_i ha
        rw [ha, ← mem_pinnedUids]
        simp [hnot]
      · rfl
    rw [heq]
    simp
  | true =>
    have heq : pinnedUids (refs.insert id ref) = insert (some id) refs.pinnedUids := by
      ext a
      rw [Finset.mem_insert, mem_pinnedUids, mem_pinnedUids, isPinned_insert, hp]
      by_cases ha : a = some id <;> simp [ha]
    rw [heq, Finset.card_insert_of_notMem hnot]
    simp

theorem card_pinnedUids_erase (h : refs.lookup id = some ref) :
    ((pinnedUids (refs.erase id)).card : ℤ) = refs.pinnedUids.card - ref.pinned.toInt := by
  have hpin := isPinned_of_lookup h
  have heq : pinnedUids (refs.erase id) = refs.pinnedUids.erase (some id) := by
    ext a
    rw [Finset.mem_erase, mem_pinnedUids, mem_pinnedUids, isPinned_erase]
    by_cases ha : a = some id <;> simp [ha]
  rw [heq]
  cases hp : ref.pinned with
  | false =>
    rw [Finset.erase_eq_of_notMem]
    · simp
    · rw [mem_pinnedUids, hpin, hp]
      exact false_ne_true
  | true =>
    have hmem : some id ∈ refs.pinnedUids := by rw [mem_pinnedUids, hpin, hp]
    have hpos := Finset.card_pos.mpr ⟨_, hmem⟩
    rw [Finset.card_erase_of_mem hmem]
    simp
    omega

end LoRARefs

/-! ## `LoRAManager` -/

structure LoRAManager where
  maxLorasPerBatch : ℕ
  loraRefs : LoRARefs
  numPinnedLoras : ℤ
  memoryPool : LoRAMemoryPool

namespace LoRAManager

variable (m : LoRAManager)

/-- `validate_new_adapter`. `supported` stands for what it asks about the adapter's configuration: no added
tokens, no DoRA, a rank and target modules that the pool has buffers for. -/
def validateNewAdapter (ref : LoRARef) (supported : Bool) : Bool :=
  supported && !(m.loraRefs.entries.any fun e => e.2.loraName == ref.loraName) &&
    !(ref.pinned && decide ((m.maxLorasPerBatch : ℤ) - 1 ≤ m.numPinnedLoras))

/-- An adapter that is not valid is reported to the caller and changes nothing. -/
def loadLoraAdapter (id : LoraId) (ref : LoRARef) (supported : Bool) : Except LoRAError LoRAManager :=
  if id ∈ m.loraRefs then
    .error .alreadyLoaded
  else if m.validateNewAdapter ref supported then
    .ok { m with
      loraRefs := m.loraRefs.insert id ref
      numPinnedLoras := m.numPinnedLoras + ref.pinned.toInt }
  else
    .ok m

/-- The adapter's slot in the pool, if it has one, stays as it is. -/
def unloadLoraAdapter (id : LoraId) : Except LoRAError LoRAManager :=
  match m.loraRefs.lookup id with
  | none => .error .adapterNotLoaded
  | some ref =>
    .ok { m with
      loraRefs := m.loraRefs.erase id
      numPinnedLoras := m.numPinnedLoras - ref.pinned.toInt }

/-- `pinned_loras_in_batch`. -/
def countPinned (refs : LoRARefs) : List Uid → Except LoRAError ℤ
  | [] => .ok 0
  | none :: rest => countPinned refs rest
  | some u :: rest =>
    match refs.lookup u with
    | none => .error .refNotFound
    | some ref => do
        let n ← countPinned refs rest
        return n + ref.pinned.toInt

/-- `loraIds` lists a set, possibly with repetitions. -/
def validateLoraBatch (loraIds : List Uid) : Except LoRAError Bool :=
  let set := loraIds.dedup
  if m.maxLorasPerBatch < set.length then
    .ok false
  else if m.numPinnedLoras = 0 then
    .ok true
  else do
    let pinnedLorasInBatch ← countPinned m.loraRefs set
    if m.numPinnedLoras < pinnedLorasInBatch then
      .error .pinnedMiscounted
    else
      return decide ((set.length : ℤ) - pinnedLorasInBatch ≤ m.maxLorasPerBatch - m.numPinnedLoras)

def withPool (P : LoRAMemoryPool) : LoRAManager := { m with memoryPool := P }

/-- `order` is the order in which Python iterates over `cur_uids`. -/
def fetchNewLoras (order : List Uid → List Uid) (newLoras runningLoras : List Uid) :
    Except LoRAError LoRAManager :=
  let curUids := arrange order (newLoras ++ runningLoras).dedup
  if m.maxLorasPerBatch < curUids.length then
    .error .tooManyLoras
  else do
    let P ← m.memoryPool.prepareLoraBatch m.loraRefs curUids
    return m.withPool P

/-- A request's entry of `weight_indices`, which `prepare_lora_batch` initialises with 0. The adapter's rank and
scaling are read in passing. -/
def weightIndex (uid : Uid) : Except LoRAError ℕ :=
  match m.memoryPool.buffers.index.lookup uid with
  | none => .ok 0
  | some bufferId => if m.loraRefs.isLoaded uid then .ok bufferId else .error .adapterNotLoaded

/-- `prepare_lora_batch`, as far as `weight_indices`. -/
def prepareLoraBatch (loraIds : List Uid) : Except LoRAError (List ℕ) :=
  loraIds.mapM m.weightIndex

/-- The manager before any adapter is loaded, with the base model in the pool. -/
def init (kind : EvictionKind) (maxLorasPerBatch : ℕ) : Except LoRAError LoRAManager :=
  fetchNewLoras ⟨maxLorasPerBatch, ∅, 0, LoRAMemoryPool.new kind maxLorasPerBatch⟩ id [none] []

/-! ### What is kept -/

structure Sound (m : LoRAManager) : Prop where
  pool : m.memoryPool.Sound
  slots : m.memoryPool.buffers.slots.length = m.maxLorasPerBatch
  counted : m.numPinnedLoras = m.loraRefs.pinnedUids.card

variable {m m' : LoRAManager} {a : Uid} {id : LoraId} {ref : LoRARef} {supported : Bool} {loraIds : List Uid}

/-- The adapters that hold a slot. -/
def held (m : LoRAManager) : Finset Uid := m.memoryPool.held

/-- The adapters that hold a slot and cannot lose it. -/
def pinnedHeld (m : LoRAManager) : Finset Uid := m.held.filter fun a => m.loraRefs.isPinned a = true

theorem mem_pinnedHeld : a ∈ m.pinnedHeld ↔ a ∈ m.held ∧ m.loraRefs.isPinned a = true := Finset.mem_filter

theorem pinnedHeld_subset : m.pinnedHeld ⊆ m.loraRefs.pinnedUids := by
  intro a ha
  rw [mem_pinnedUids]
  exact (mem_pinnedHeld.mp ha).2

/-- Loading an adapter keeps the pool and, if the adapter's id is new to the pool, which adapters are pinned in
it. -/
theorem loadLoraAdapter_spec (h : m.Sound) (hl : m.loadLoraAdapter id ref supported = .ok m') :
    m'.Sound ∧ m'.memoryPool = m.memoryPool ∧ m'.maxLorasPerBatch = m.maxLorasPerBatch ∧
      (some id ∉ m.held → m'.pinnedHeld = m.pinnedHeld) := by
  unfold loadLoraAdapter at hl
  split at hl
  · cases hl
  · rename_i hid
    split at hl
    · cases hl
      have hnone : m.loraRefs.lookup id = none := AList.lookup_eq_none.mpr hid
      refine ⟨⟨h.pool, h.slots, ?_⟩, rfl, rfl, ?_⟩
      · rw [card_pinnedUids_insert hnone, h.counted]
      · intro hnew
        ext a
        rw [mem_pinnedHeld, mem_pinnedHeld]
        show a ∈ m.held ∧ isPinned (m.loraRefs.insert id ref) a = true ↔ _
        rw [isPinned_insert]
        by_cases ha : a = some id
        · simp [ha, hnew]
        · rw [if_neg ha]
    · cases hl
      exact ⟨h, rfl, rfl, fun _ => rfl⟩

theorem unloadLoraAdapter_spec (h : m.Sound) (hl : m.unloadLoraAdapter id = .ok m') :
    m'.Sound ∧ m'.memoryPool = m.memoryPool ∧ m'.maxLorasPerBatch = m.maxLorasPerBatch ∧
      m'.pinnedHeld ⊆ m.pinnedHeld := by
  unfold unloadLoraAdapter at hl
  split at hl
  · cases hl
  · rename_i ref hid
    cases hl
    refine ⟨⟨h.pool, h.slots, ?_⟩, rfl, rfl, ?_⟩
    · rw [card_pinnedUids_erase hid, h.counted]
    · intro a ha
      rw [mem_pinnedHeld] at ha ⊢
      have hpin : isPinned (m.loraRefs.erase id) a = true := ha.2
      rw [isPinned_erase] at hpin
      split at hpin
      · exact absurd hpin false_ne_true
      · exact ⟨ha.1, hpin⟩

/-! ### The check -/

theorem countPinned_eq {refs : LoRARefs} (l : List Uid) :
    ∀ {n : ℤ}, countPinned refs l = .ok n → n = (l.filter refs.isPinned).length := by
  induction l with
  | nil =>
    intro n h
    cases h
    rfl
  | cons a l ih =>
    intro n h
    rcases a with _ | u
    · rw [filter_cons_of_neg (show ¬ refs.isPinned none = true from false_ne_true)]
      exact ih h
    · unfold countPinned at h
      cases hu : refs.lookup u with
      | none =>
        rw [hu] at h
        cases h
      | some ref =>
        rw [hu] at h
        obtain ⟨k, hrest, h⟩ := exists_of_bind_eq_ok h
        have hn : k + ref.pinned.toInt = n := Except.ok.inj h
        have hpin := isPinned_of_lookup hu
        rw [← hn, ih hrest, filter_cons, hpin]
        cases ref.pinned <;> simp

/-- A set that passes the check fits into the pool together with all pinned adapters. -/
theorem card_le_of_validateLoraBatch (h : m.Sound) (hv : m.validateLoraBatch loraIds = .ok true) :
    (loraIds.toFinset ∪ m.loraRefs.pinnedUids).card ≤ m.maxLorasPerBatch := by
  have hcard : loraIds.toFinset.card = loraIds.dedup.length := card_toFinset loraIds
  simp only [validateLoraBatch] at hv
  split at hv
  · exact absurd (Except.ok.inj hv) false_ne_true
  · rename_i hsize
    split at hv
    · rename_i hzero
      have hempty : m.loraRefs.pinnedUids = ∅ := by
        rw [h.counted] at hzero
        exact Finset.card_eq_zero.mp (by exact_mod_cast hzero)
      rw [hempty, Finset.union_empty, hcard]
      omega
    · obtain ⟨n, hc, hv⟩ := exists_of_bind_eq_ok hv
      have hv' : (if m.numPinnedLoras < n then Except.error LoRAError.pinnedMiscounted
        else .ok (decide ((loraIds.dedup.length : ℤ) - n ≤ m.maxLorasPerBatch - m.numPinnedLoras)))
          = .ok true := hv
      split at hv'
      · cases hv'
      · have hroom := of_decide_eq_true (Except.ok.inj hv')
        -- the pinned adapters of the set are counted once on each side
        have hinter : (loraIds.toFinset ∩ m.loraRefs.pinnedUids).card =
            (loraIds.dedup.filter m.loraRefs.isPinned).length := by
          rw [← toFinset_card_of_nodup ((nodup_dedup loraIds).filter _)]
          congr 1
          ext a
          rw [Finset.mem_inter, mem_toFinset, mem_pinnedUids, mem_toFinset, mem_filter, mem_dedup]
        have hn := countPinned_eq _ hc
        have hsum := Finset.card_union_add_card_inter loraIds.toFinset m.loraRefs.pinnedUids
        have hcount := h.counted
        rw [hinter, hcard] at hsum
        omega

/-! ### Fetching -/

/-- A set that fits into the pool next to the pinned adapters in it is fetched, unless one of its adapters is
not loaded. -/
theorem fetchNewLoras_spec (h : m.Sound) (order : List Uid → List Uid) {newLoras runningLoras : List Uid}
    (hfits : ((newLoras ++ runningLoras).toFinset ∪ m.pinnedHeld).card ≤ m.maxLorasPerBatch) :
    (∃ Q, m.fetchNewLoras order newLoras runningLoras = .ok (m.withPool Q) ∧
        Prepared m.loraRefs (newLoras ++ runningLoras) (newLoras ++ runningLoras) m.memoryPool Q) ∨
      m.fetchNewLoras order newLoras runningLoras = .error .adapterNotLoaded ∧
        ∃ a ∈ newLoras ++ runningLoras, m.loraRefs.isLoaded a = false := by
  have hperm := Dict.arrange_perm order (newLoras ++ runningLoras).dedup
  have hmem : ∀ a, a ∈ arrange order (newLoras ++ runningLoras).dedup ↔ a ∈ newLoras ++ runningLoras := by
    intro a
    rw [hperm.mem_iff, mem_dedup]
  have hsize : ¬ m.maxLorasPerBatch < (arrange order (newLoras ++ runningLoras).dedup).length := by
    rw [hperm.length_eq, ← card_toFinset]
    have hle := Finset.card_le_card
      (Finset.subset_union_left : (newLoras ++ runningLoras).toFinset ⊆ _ ∪ m.pinnedHeld)
    omega
  have hstay : Stays m.loraRefs (arrange order (newLoras ++ runningLoras).dedup)
      ((newLoras ++ runningLoras).toFinset ∪ m.pinnedHeld) m.memoryPool := by
    refine ⟨?_, ?_, ?_⟩
    · intro a ha
      exact Finset.mem_union_left _ (mem_toFinset.mpr ((hmem a).mp ha))
    · intro a ha hpin
      exact Finset.mem_union_right _ (mem_pinnedHeld.mpr ⟨ha, hpin⟩)
    · rw [h.slots]
      exact hfits
  simp only [fetchNewLoras]
  rw [if_neg hsize]
  rcases prepareLoraBatch_spec h.pool hstay with ⟨Q, hQ, hprep⟩ | ⟨herr, a, ha, hmiss⟩
  · refine Or.inl ⟨Q, ?_, hprep.congr hmem⟩
    rw [hQ]
    rfl
  · refine Or.inr ⟨?_, a, (hmem a).mp ha, hmiss⟩
    rw [herr]
    rfl

/-- Nobody loses a slot to a set of which only `uid` may be missing, if a slot is empty in case it is. -/
theorem held_subset_of_fetchNewLoras {order : List Uid → List Uid} {uid : Uid}
    {newLoras runningLoras : List Uid} (hheld : ∀ a ∈ newLoras ++ runningLoras, a = uid ∨ a ∈ m.held)
    (hroom : uid ∈ m.held ∨ m.memoryPool.buffers.firstEmpty.isSome = true)
    (hm : m.fetchNewLoras order newLoras runningLoras = .ok m') : m.held ⊆ m'.held := by
  simp only [fetchNewLoras] at hm
  split at hm
  · cases hm
  · obtain ⟨Q, hQ, hm⟩ := exists_of_bind_eq_ok hm
    cases hm
    apply held_subset_of_prepareLoraBatch _ hroom hQ
    intro a ha
    rw [(Dict.arrange_perm order _).mem_iff, mem_dedup] at ha
    exact hheld a ha

variable {Q : LoRAMemoryPool}

theorem Sound.withPool (h : m.Sound) (hprep : Prepared m.loraRefs loraIds loraIds m.memoryPool Q) :
    (m.withPool Q).Sound where
  pool := hprep.sound
  slots := by
    show Q.buffers.slots.length = m.maxLorasPerBatch
    rw [hprep.slots]
    exact h.slots
  counted := h.counted

/-- Fetching a set pins nothing outside the set. -/
theorem pinnedHeld_withPool_subset (hprep : Prepared m.loraRefs loraIds loraIds m.memoryPool Q) :
    (m.withPool Q).pinnedHeld ⊆ loraIds.toFinset ∪ m.pinnedHeld := by
  intro a ha
  rw [mem_pinnedHeld] at ha
  rw [Finset.mem_union, mem_toFinset, mem_pinnedHeld]
  rcases hprep.subset a ha.1 with hold | hcur
  · exact Or.inr ⟨hold, ha.2⟩
  · exact Or.inl hcur

theorem sound_init {kind : EvictionKind} {n : ℕ} (hm : init kind n = .ok m) :
    m.Sound ∧ m.numPinnedLoras = 0 := by
  unfold init at hm
  rcases Nat.eq_zero_or_pos n with rfl | hn
  · -- with no slot at all the base model does not fit
    exact absurd hm (by simp [fetchNewLoras, arrange])
  · have hsound : (⟨n, ∅, 0, new kind n⟩ : LoRAManager).Sound :=
      ⟨sound_new kind n, length_replicate, rfl⟩
    have hpinned : (⟨n, ∅, 0, new kind n⟩ : LoRAManager).pinnedHeld = ∅ := by
      rw [← Finset.subset_empty]
      exact pinnedHeld_subset
    have hfits : (([none] ++ []).toFinset ∪ (⟨n, ∅, 0, new kind n⟩ : LoRAManager).pinnedHeld).card ≤ n := by
      rw [hpinned]
      exact hn
    rcases fetchNewLoras_spec hsound id hfits with ⟨Q, hQ, hprep⟩ | ⟨herr, _⟩
    · rw [hm] at hQ
      cases hQ
      exact ⟨hsound.withPool hprep, rfl⟩
    · rw [hm] at herr
      cases herr

/-! ### Finding the slots -/

/-- An adapter in the pool gets its slot, which has its weights. -/
theorem weightIndex_spec (h : m.Sound) (ha : a ∈ m.held) :
    (∃ k, m.weightIndex a = .ok k ∧ m.memoryPool.weights[k]? = some (some a)) ∨
      m.weightIndex a = .error .adapterNotLoaded ∧ m.loraRefs.isLoaded a = false := by
  obtain ⟨k, hk⟩ := SlotPool.mem_held_iff_lookup.mp ha
  unfold weightIndex
  rw [hk]
  dsimp only
  split
  · exact Or.inl ⟨k, rfl, h.pool.weights a k hk⟩
  · rename_i hload
    exact Or.inr ⟨rfl, Bool.eq_false_iff.mpr hload⟩

/-- Every request of a batch whose adapters are in the pool gets the slot with its adapter's weights. -/
theorem prepareLoraBatch_spec (h : m.Sound) (hheld : ∀ a ∈ loraIds, a ∈ m.held) :
    (∃ w, m.prepareLoraBatch loraIds = .ok w ∧
        Forall₂ (fun a k => m.memoryPool.weights[k]? = some (some a)) loraIds w) ∨
      m.prepareLoraBatch loraIds = .error .adapterNotLoaded ∧ ∃ a ∈ loraIds, m.loraRefs.isLoaded a = false := by
  unfold prepareLoraBatch
  induction loraIds with
  | nil => exact Or.inl ⟨[], rfl, Forall₂.nil⟩
  | cons a l ih =>
    rw [mapM_cons]
    rcases weightIndex_spec h (hheld a mem_cons_self) with ⟨k, hk, hw⟩ | ⟨herr, hmiss⟩
    · rw [hk]
      rcases ih fun b hb => hheld b (mem_cons_of_mem _ hb) with ⟨w, hl, hws⟩ | ⟨herr, b, hb, hmiss⟩
      · refine Or.inl ⟨k :: w, ?_, Forall₂.cons hw hws⟩
        rw [hl]
        rfl
      · refine Or.inr ⟨?_, b, mem_cons_of_mem _ hb, hmiss⟩
        rw [herr]
        rfl
    · refine Or.inr ⟨?_, a, mem_cons_self, hmiss⟩
      rw [herr]
      rfl

end LoRAManager

/-! ## `LoRAOverlapLoader` -/

/-- `events` are the keys of `lora_to_overlap_load_event`. -/
structure LoRAOverlapLoader where
  manager : LoRAManager
  events : List Uid

namespace LoRAOverlapLoader

def tryStartOverlapLoad (L : LoRAOverlapLoader) (order : List Uid → List Uid) (id : Uid)
    (runningLoras : List Uid) : Except LoRAError LoRAOverlapLoader := do
  let lorasToBeLoaded := runningLoras ++ L.events
  if ← L.manager.validateLoraBatch (id :: lorasToBeLoaded) then
    let m ← L.manager.fetchNewLoras order [id] lorasToBeLoaded
    return ⟨m, id :: L.events⟩
  else
    return L

/-- `done` is what `event.query()` says of the adapter's event, if it has one. -/
def tryOverlapLoadLora (L : LoRAOverlapLoader) (order : List Uid → List Uid) (done : Bool) (id : Uid)
    (runningLoras : List Uid) : Except LoRAError (Bool × LoRAOverlapLoader) :=
  if id ∉ L.events then do
    let L' ← L.tryStartOverlapLoad order id runningLoras
    return (false, L')
  else if !done then
    .ok (false, L)
  else
    .ok (true, ⟨L.manager, L.events.erase id⟩)

variable {L L' : LoRAOverlapLoader} {order : List Uid → List Uid} {id c : Uid} {runningLoras : List Uid}
  {done b : Bool}

/-- A load of `id`, if it is started, cannot take the slot of `c`: `c` is counted, or nobody has to make
room. -/
def Spares (L : LoRAOverlapLoader) (c id : Uid) (runningLoras : List Uid) : Prop :=
  L.manager.validateLoraBatch (id :: (runningLoras ++ L.events)) = .ok true →
    c ∈ id :: (runningLoras ++ L.events) ∨ id ∈ L.manager.held ∨
      L.manager.memoryPool.buffers.firstEmpty.isSome = true

instance : Decidable (L.Spares c id runningLoras) := by
  unfold Spares
  infer_instance

/-- What a start of a load, or of none, does. -/
structure Started (id : Uid) (runningLoras : List Uid) (L L' : LoRAOverlapLoader) : Prop where
  sound : L'.manager.Sound
  events : ∀ a ∈ L'.events, a ∈ L'.manager.held
  running : ∀ a ∈ runningLoras, a ∈ L'.manager.held
  spared : ∀ c ∈ L.manager.held, L.Spares c id runningLoras → c ∈ L'.manager.held

section

variable (h : L.manager.Sound) (hevents : ∀ a ∈ L.events, a ∈ L.manager.held)
  (hrunning : ∀ a ∈ runningLoras, a ∈ L.manager.held)
include h hevents hrunning

theorem tryStartOverlapLoad_spec
    (hstart : L.tryStartOverlapLoad order id runningLoras = .ok L') : Started id runningLoras L L' := by
  obtain ⟨fits, hv, hstart⟩ := exists_of_bind_eq_ok hstart
  cases fits with
  | false =>
    cases hstart
    exact ⟨h, hevents, hrunning, fun _ hc _ => hc⟩
  | true =>
    have hcard := LoRAManager.card_le_of_validateLoraBatch h hv
    have hfits : (([id] ++ (runningLoras ++ L.events)).toFinset ∪ L.manager.pinnedHeld).card
        ≤ L.manager.maxLorasPerBatch :=
      (Finset.card_le_card (Finset.union_subset_union_right LoRAManager.pinnedHeld_subset)).trans hcard
    have hstart' : (do
      let m ← L.manager.fetchNewLoras order [id] (runningLoras ++ L.events)
      return (⟨m, id :: L.events⟩ : LoRAOverlapLoader)) = .ok L' := hstart
    rcases LoRAManager.fetchNewLoras_spec h order hfits with ⟨Q, hQ, hprep⟩ | ⟨herr, _⟩
    · rw [hQ] at hstart'
      cases hstart'
      have hloaded : ∀ a ∈ id :: (runningLoras ++ L.events), a ∈ Q.held := hprep.loaded
      refine ⟨h.withPool hprep, ?_, ?_, ?_⟩
      · intro a ha
        apply hloaded a
        rcases mem_cons.mp ha with rfl | ha
        · exact mem_cons_self
        · exact mem_cons_of_mem _ (mem_append_right _ ha)
      · intro a ha
        exact hloaded a (mem_cons_of_mem _ (mem_append_left _ ha))
      · intro c hc hspare
        rcases hspare hv with hcounted | hroom
        · exact hprep.kept c hc (Or.inl hcounted)
        · apply LoRAManager.held_subset_of_fetchNewLoras _ hroom hQ hc
          intro a (ha : a ∈ id :: (runningLoras ++ L.events))
          rcases mem_cons.mp ha with rfl | ha
          · exact Or.inl rfl
          · rcases mem_append.mp ha with ha | ha
            · exact Or.inr (hrunning a ha)
            · exact Or.inr (hevents a ha)
    · rw [herr] at hstart'
      cases hstart'

/-- The loader's answer is yes only for an adapter that has a slot. -/
theorem tryOverlapLoadLora_spec (htry : L.tryOverlapLoadLora order done id runningLoras = .ok (b, L')) :
    Started id runningLoras L L' ∧ (b = true → id ∈ L'.manager.held) := by
  unfold tryOverlapLoadLora at htry
  split at htry
  · obtain ⟨L₁, hstart, htry⟩ := exists_of_bind_eq_ok htry
    cases htry
    exact ⟨tryStartOverlapLoad_spec h hevents hrunning hstart, fun hb => absurd hb false_ne_true⟩
  · rename_i hid
    split at htry
    · cases htry
      exact ⟨⟨h, hevents, hrunning, fun _ hc _ => hc⟩, fun hb => absurd hb false_ne_true⟩
    · cases htry
      refine ⟨⟨h, ?_, hrunning, fun _ hc _ => hc⟩, fun _ => hevents id (not_not.mp hid)⟩
      exact fun a ha => hevents a (mem_of_mem_erase ha)

end

end LoRAOverlapLoader

end SGLang.Lora
