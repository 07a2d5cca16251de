/-
# SGLang.Lora.LoRAMemoryPool — the buffer slots of adapters and who may be evicted from them.

The pool has one buffer slot per adapter a batch may use. To prepare a batch it marks the batch's adapters as
used and loads those that have no slot, each into an empty slot or into the slot of a victim that the eviction
policy chooses among the adapters that are neither in the batch nor pinned. The base model is an adapter like
the others, `none`, and has a slot of its own while it is in use; it is evicted only if nothing else can be.

`prepareLoraBatch_spec` says when this works: if the batch's adapters and the pinned ones that hold a slot are
at most as many as the slots, the only thing that can go wrong is an adapter that is not loaded any more, and
otherwise every adapter of the batch is in a slot afterwards, with its weights.
-/
import SGLang.Lib.SlotPool
import SGLang.Lora.LoRARegistry

namespace SGLang.Lora

open SGLang.Lib SlotPool Finset Or List

/-- What a request asks for in `lora_id`: an adapter, or the base model (`none`). -/
abbrev Uid := Option LoraId

instance : LawfulBEq Uid := inferInstance

/-- What preparing a batch can raise. -/
inductive LoRAError
  /-- Raised by `assert len(cur_uids) <= self.max_loras_per_batch`. -/
  | tooManyLoras
  /-- Says "No available buffer slots found." -/
  | noAvailableSlot
  /-- Says "Failed to select LRU victim from candidates", and the same of FIFO. -/
  | noVictim
  /-- The `KeyError` of `uid_to_buffer_id[victim_uid]`. -/
  | noBufferId
  /-- Raised by `assert lora_adapter is not None`, or the `KeyError` of `self.loras[uid]`. -/
  | adapterNotLoaded
  /-- Says "LoRA adapter with ID … is already loaded." -/
  | alreadyLoaded
  /-- Says "LoRA ID … not found in lora_refs." -/
  | refNotFound
  /-- Says "This indicates a bug in the LoRA loading logic." -/
  | pinnedMiscounted
  /-- Raised by `assert self.chunked_req is None` in the scheduler. -/
  | chunkedTwice
  deriving DecidableEq, Repr

/-! ## `LRUEvictionPolicy` and `FIFOEvictionPolicy` -/

inductive EvictionKind
  | lru
  | fifo
  deriving DecidableEq, Repr

/-- The `order` is `access_order` of the one policy and `insertion_order` of the other, oldest first. -/
structure EvictionPolicy where
  kind : EvictionKind
  order : List LoraId
  deriving DecidableEq, Repr

namespace EvictionPolicy

variable (p : EvictionPolicy)

def markUsed : Uid → EvictionPolicy
  | none => p
  | some u =>
    match p.kind with
    | .lru => { p with order := p.order.erase u ++ [u] }
    | .fifo => if u ∈ p.order then p else { p with order := p.order ++ [u] }

/-- The oldest adapter that is tracked and a candidate, or the base model. -/
def selectVictim (candidates : List Uid) : Except LoRAError Uid :=
  match p.order.find? fun u => decide (some u ∈ candidates) with
  | some u => .ok (some u)
  | none => if none ∈ candidates then .ok none else .error .noVictim

def remove : Uid → EvictionPolicy
  | none => p
  | some u => { p with order := p.order.erase u }

variable {p : EvictionPolicy} {u v : LoraId} {a : Uid}

theorem mem_markUsed (h : u ∈ p.order) : u ∈ (p.markUsed a).order := by
  rcases a with _ | v
  · exact h
  · unfold markUsed
    rcases p.kind with _ | _
    · by_cases huv : u = v
      · simp [huv]
      · simp [mem_erase_of_ne huv, h]
    · dsimp only
      split
      · exact h
      · exact mem_append_left _ h

theorem mem_markUsed_self : u ∈ (p.markUsed (some u)).order := by
  unfold markUsed
  rcases p.kind with _ | _
  · simp
  · dsimp only
    split
    · assumption
    · simp

theorem mem_remove (h : u ∈ p.order) (hne : some u ≠ a) : u ∈ (p.remove a).order := by
  rcases a with _ | v
  · exact h
  · exact (mem_erase_of_ne fun huv => hne (congrArg some huv)).mpr h

/-- If every candidate but the base model is tracked, the policy finds a victim among the candidates. -/
theorem selectVictim_spec {candidates : List Uid} (hne : candidates ≠ [])
    (htracked : ∀ u, some u ∈ candidates → u ∈ p.order) :
    ∃ a ∈ candidates, p.selectVictim candidates = .ok a := by
  unfold selectVictim
  cases hfind : p.order.find? fun u => decide (some u ∈ candidates) with
  | some u =>
    have hu := find?_some hfind
    exact ⟨some u, of_decide_eq_true hu, rfl⟩
  | none =>
    rw [find?_eq_none] at hfind
    obtain ⟨a, ha⟩ := exists_mem_of_ne_nil _ hne
    rcases a with _ | u
    · exact ⟨none, ha, if_pos ha⟩
    · exact absurd (decide_eq_true ha) (hfind u (htracked u ha))

end EvictionPolicy

/-! ## `LoRAMemoryPool` -/

/-- What the manager records of a loaded adapter. -/
structure LoRARef where
  loraName : String
  pinned : Bool
  deriving DecidableEq, Repr

/-- The dictionary `lora_refs`. The dictionaries `loras` and `configs` have the same keys. -/
abbrev LoRARefs := AList fun _ : LoraId => LoRARef

/-- The test `lora_ref and lora_ref.pinned`, never of the base model. -/
def LoRARefs.isPinned (refs : LoRARefs) : Uid → Bool
  | none => false
  | some u => (refs.lookup u).any LoRARef.pinned

/-- Whether `load_lora_weight_to_buffer` has weights for the adapter; the base model's are zero. -/
def LoRARefs.isLoaded (refs : LoRARefs) : Uid → Bool
  | none => true
  | some u => (refs.lookup u).isSome

/-- Here `buffers` are `buffer_id_to_uid` (`none` for `EMPTY_SLOT`) and `uid_to_buffer_id`; `weights` says whose
weights were last written into the buffers of a slot. -/
structure LoRAMemoryPool where
  buffers : SlotPool Uid
  weights : List (Option Uid)
  evictionPolicy : EvictionPolicy

namespace LoRAMemoryPool

/-- The pool before anything is loaded. -/
def new (kind : EvictionKind) (maxLorasPerBatch : ℕ) : LoRAMemoryPool :=
  ⟨SlotPool.empty maxLorasPerBatch, List.replicate maxLorasPerBatch none, ⟨kind, []⟩⟩

/-- The adapters that hold a slot. -/
def held (P : LoRAMemoryPool) : Finset Uid := P.buffers.held

/-- The adapters in slots that may go: not in the batch, not pinned. -/
def candidates (P : LoRAMemoryPool) (refs : LoRARefs) (curUids : List Uid) : List Uid :=
  P.buffers.slots.reduceOption.filter fun uid => decide (uid ∉ curUids) && !refs.isPinned uid

/-- The `candidates_to_use`: adapters before the base model. -/
def preferAdapters (candidates : List Uid) : List Uid :=
  match candidates.filter Option.isSome with
  | [] => candidates
  | nonNone => nonNone

variable (P : LoRAMemoryPool)

/-- The victim's slot becomes empty and the policy forgets it. -/
def evict (victim : Uid) (bufferId : ℕ) : LoRAMemoryPool :=
  { P with
    buffers := P.buffers.vacate victim bufferId
    evictionPolicy := P.evictionPolicy.remove victim }

def getAvailableBufferSlot (refs : LoRARefs) (curUids : List Uid) : Except LoRAError (LoRAMemoryPool × ℕ) :=
  match P.buffers.firstEmpty with
  | some bufferId => .ok (P, bufferId)
  | none =>
    match P.candidates refs curUids with
    | [] => .error .noAvailableSlot
    | c :: cs => do
        let victim ← P.evictionPolicy.selectVictim (preferAdapters (c :: cs))
        match P.buffers.index.lookup victim with
        | none => .error .noBufferId
        | some bufferId => .ok (P.evict victim bufferId, bufferId)

/-- This is `load_lora_weight_to_buffer` and the two assignments after it. -/
def load (uid : Uid) (bufferId : ℕ) : LoRAMemoryPool :=
  { P with
    buffers := P.buffers.put bufferId uid
    weights := P.weights.set bufferId (some uid) }

/-- The second loop of `prepare_lora_batch`. -/
def loadLoop (refs : LoRARefs) (curUids : List Uid) :
    List Uid → LoRAMemoryPool → Except LoRAError LoRAMemoryPool
  | [], P => .ok P
  | uid :: rest, P =>
    if uid ∈ P.buffers.index then
      loadLoop refs curUids rest P
    else do
      let (P', bufferId) ← P.getAvailableBufferSlot refs curUids
      if refs.isLoaded uid then
        loadLoop refs curUids rest (P'.load uid bufferId)
      else
        .error .adapterNotLoaded

/-- The first loop of `prepare_lora_batch`. -/
def markAll (P : LoRAMemoryPool) (curUids : List Uid) : LoRAMemoryPool :=
  { P with evictionPolicy := curUids.foldl EvictionPolicy.markUsed P.evictionPolicy }

/-- Here `curUids` is the set in the order in which Python iterates over it. -/
def prepareLoraBatch (P : LoRAMemoryPool) (refs : LoRARefs) (curUids : List Uid) :
    Except LoRAError LoRAMemoryPool :=
  loadLoop refs curUids curUids (P.markAll curUids)

/-! ### What is kept -/

/-- The slots and the index agree, the slots hold the weights of their adapters, and the policy tracks every
adapter that has a slot. -/
structure Sound (P : LoRAMemoryPool) : Prop where
  valid : P.buffers.Valid
  size : P.weights.length = P.buffers.slots.length
  weights : ∀ a k, P.buffers.index.lookup a = some k → P.weights[k]? = some (some a)
  tracked : ∀ u, some u ∈ P.held → u ∈ P.evictionPolicy.order

variable {P P' Q : LoRAMemoryPool} {refs : LoRARefs} {curUids l : List Uid} {a b uid : Uid} {k : ℕ}
  {stay : Finset Uid}

theorem sound_new (kind : EvictionKind) (n : ℕ) : (new kind n).Sound where
  valid := valid_empty n
  size := by simp [new, empty]
  weights := by
    intro a k h
    simp [new, empty] at h
  tracked := by
    intro u h
    obtain ⟨k, hk⟩ := mem_held_iff_lookup.mp h
    simp [new, empty] at hk

theorem mem_slots_of_held (h : P.Sound) (ha : a ∈ P.held) : a ∈ P.buffers.slots.reduceOption := by
  obtain ⟨k, hk⟩ := mem_held_iff_lookup.mp ha
  rw [reduceOption_mem_iff]
  exact mem_of_getElem? ((h.valid a k).mp hk)

theorem held_of_mem_slots (h : P.Sound) (ha : a ∈ P.buffers.slots.reduceOption) : a ∈ P.held := by
  rw [reduceOption_mem_iff] at ha
  obtain ⟨k, hk⟩ := getElem?_of_mem ha
  exact mem_held_iff_lookup.mpr ⟨k, (h.valid a k).mpr hk⟩

theorem mem_candidates (h : P.Sound) :
    a ∈ P.candidates refs curUids ↔ a ∈ P.held ∧ a ∉ curUids ∧ refs.isPinned a = false := by
  unfold candidates
  rw [mem_filter, Bool.and_eq_true, decide_eq_true_iff, Bool.not_eq_true']
  constructor
  · rintro ⟨hslot, hrest⟩
    exact ⟨held_of_mem_slots h hslot, hrest⟩
  · rintro ⟨hheld, hrest⟩
    exact ⟨mem_slots_of_held h hheld, hrest⟩

theorem mem_preferAdapters (h : a ∈ preferAdapters l) : a ∈ l := by
  unfold preferAdapters at h
  split at h
  · exact h
  · exact mem_of_mem_filter h

theorem preferAdapters_ne_nil (h : l ≠ []) : preferAdapters l ≠ [] := by
  unfold preferAdapters
  split
  · exact h
  · assumption

/-! ### Evicting and loading -/

theorem held_evict : (P.evict a k).held = P.held.erase a := held_vacate

theorem held_load : (P.load a k).held = insert a P.held := held_put

theorem Sound.evict (h : P.Sound) (ha : P.buffers.index.lookup a = some k) : (P.evict a k).Sound where
  valid := h.valid.vacate ha
  size := by
    show P.weights.length = (P.buffers.vacate a k).slots.length
    rw [length_vacate]
    exact h.size
  weights := by
    intro b j hb
    have hb' : (P.buffers.index.erase a).lookup b = some j := hb
    exact h.weights b j (Dict.lookup_erase_iff.mp hb').2
  tracked := by
    intro u hu
    rw [held_evict, mem_erase] at hu
    exact EvictionPolicy.mem_remove (h.tracked u hu.2) hu.1

/-- The adapter must be tracked already: the first loop has marked it. -/
theorem Sound.load (h : P.Sound) (hk : P.buffers.slots[k]? = some none) (ha : a ∉ P.held)
    (htracked : ∀ u, a = some u → u ∈ P.evictionPolicy.order) : (P.load a k).Sound where
  valid := h.valid.put hk ha
  size := by
    show (P.weights.set k (some a)).length = (P.buffers.put k a).slots.length
    rw [length_put, length_set]
    exact h.size
  weights := by
    intro b j hb
    have hb' : (P.buffers.index.insert a k).lookup b = some j := hb
    have hlt : k < P.weights.length := by
      rw [h.size]
      exact (List.getElem?_eq_some_iff.mp hk).1
    show (P.weights.set k (some a))[j]? = some (some b)
    rcases Dict.lookup_insert_iff.mp hb' with ⟨rfl, rfl⟩ | ⟨-, hb'⟩
    · rw [getElem?_set_self hlt]
    · -- another adapter's slot is not the empty one
      have hkj : k ≠ j := by
        intro hkj
        have hslot := (h.valid b j).mp hb'
        rw [← hkj, hk] at hslot
        exact absurd hslot (by simp)
      rw [getElem?_set_ne hkj]
      exact h.weights b j hb'
  tracked := by
    intro u hu
    rw [held_load, mem_insert] at hu
    rcases hu with hu | hu
    · exact htracked u hu.symm
    · exact h.tracked u hu

/-- What must keep its slot while a batch is prepared. -/
structure Stays (refs : LoRARefs) (curUids : List Uid) (stay : Finset Uid) (P : LoRAMemoryPool) : Prop where
  batch : ∀ a ∈ curUids, a ∈ stay
  pinned : ∀ a ∈ P.held, refs.isPinned a = true → a ∈ stay
  fits : stay.card ≤ P.buffers.slots.length

/-- A slot is found: it is empty now, and nobody that stays has lost a slot. -/
structure SlotFound (refs : LoRARefs) (curUids : List Uid) (P P' : LoRAMemoryPool) (k : ℕ) : Prop where
  sound : P'.Sound
  free : P'.buffers.slots[k]? = some none
  slots : P'.buffers.slots.length = P.buffers.slots.length
  subset : P'.held ⊆ P.held
  kept : ∀ a ∈ P.held, a ∈ curUids ∨ refs.isPinned a = true → a ∈ P'.held
  order : ∀ u, u ∈ P.evictionPolicy.order → some u ∈ curUids → u ∈ P'.evictionPolicy.order

theorem getAvailableBufferSlot_spec (h : P.Sound) (hstay : Stays refs curUids stay P) (ha : a ∈ curUids)
    (hnew : a ∉ P.held) :
    ∃ P' k, P.getAvailableBufferSlot refs curUids = .ok (P', k) ∧ SlotFound refs curUids P P' k := by
  unfold getAvailableBufferSlot
  cases hempty : P.buffers.firstEmpty with
  | some k =>
    exact ⟨P, k, rfl, h, firstEmpty_spec hempty, rfl, Finset.Subset.refl _, fun _ hb _ => hb, fun _ hu _ => hu⟩
  | none =>
    -- the pool is full, so somebody in it need not stay
    obtain ⟨b, hb, hbstay⟩ := h.valid.exists_victim hempty hstay.fits (hstay.batch a ha) hnew
    have hbcand : b ∈ P.candidates refs curUids := by
      rw [mem_candidates h]
      refine ⟨hb, fun hcur => hbstay (hstay.batch b hcur), ?_⟩
      rw [Bool.eq_false_iff]
      exact fun hpin => hbstay (hstay.pinned b hb hpin)
    cases hcand : P.candidates refs curUids with
    | nil =>
      rw [hcand] at hbcand
      exact absurd hbcand not_mem_nil
    | cons c cs =>
      have hmem : ∀ v ∈ preferAdapters (c :: cs), v ∈ P.held ∧ v ∉ curUids ∧ refs.isPinned v = false := by
        intro v hv
        apply (mem_candidates h).mp
        rw [hcand]
        exact mem_preferAdapters hv
      obtain ⟨v, hv, hsel⟩ := EvictionPolicy.selectVictim_spec
        (preferAdapters_ne_nil (cons_ne_nil c cs)) (fun u hu => h.tracked u (hmem _ hu).1)
      obtain ⟨hvheld, hvcur, hvpin⟩ := hmem v hv
      obtain ⟨k, hk⟩ := mem_held_iff_lookup.mp hvheld
      refine ⟨P.evict v k, k, ?_, h.evict hk, vacate_slot h.valid hk, length_vacate, ?_, ?_, ?_⟩
      · dsimp only
        rw [hsel]
        show (match P.buffers.index.lookup v with
          | none => Except.error LoRAError.noBufferId
          | some bufferId => Except.ok (P.evict v bufferId, bufferId)) = _
        rw [hk]
      · rw [held_evict]
        exact erase_subset _ _
      · intro b hb hbstays
        rw [held_evict, mem_erase]
        refine ⟨?_, hb⟩
        rintro rfl
        rcases hbstays with hcur | hpin
        · exact hvcur hcur
        · rw [hvpin] at hpin
          exact absurd hpin Bool.false_ne_true
      · intro u hu hcur
        apply EvictionPolicy.mem_remove hu
        rintro rfl
        exact hvcur hcur

/-- What loading a batch's adapters does to the pool. -/
structure Prepared (refs : LoRARefs) (curUids todo : List Uid) (P Q : LoRAMemoryPool) : Prop where
  sound : Q.Sound
  slots : Q.buffers.slots.length = P.buffers.slots.length
  loaded : ∀ a ∈ todo, a ∈ Q.held
  subset : ∀ a ∈ Q.held, a ∈ P.held ∨ a ∈ curUids
  kept : ∀ a ∈ P.held, a ∈ curUids ∨ refs.isPinned a = true → a ∈ Q.held

theorem SlotFound.load_sound (h : SlotFound refs curUids P P' k) (ha : a ∈ curUids) (hnew : a ∉ P.held)
    (horder : ∀ u, some u ∈ curUids → u ∈ P.evictionPolicy.order) : (P'.load a k).Sound := by
  apply h.sound.load h.free
  · exact fun hheld => hnew (h.subset hheld)
  · rintro u rfl
    exact h.order u (horder u ha) ha

/-- The loop ends with every adapter of the batch in a slot, or at an adapter that is not loaded. The induction
is on the adapters still to be looked at; what stays is the same throughout. -/
theorem loadLoop_spec :
    ∀ (todo : List Uid) {P : LoRAMemoryPool}, P.Sound → Stays refs curUids stay P → (∀ a ∈ todo, a ∈ curUids) →
      (∀ u, some u ∈ curUids → u ∈ P.evictionPolicy.order) →
      (∃ Q, loadLoop refs curUids todo P = .ok Q ∧ Prepared refs curUids todo P Q) ∨
        loadLoop refs curUids todo P = .error .adapterNotLoaded ∧ ∃ a ∈ todo, refs.isLoaded a = false := by
  intro todo
  induction todo with
  | nil =>
    intro P h _ _ _
    refine inl ⟨P, rfl, h, rfl, ?_, fun _ ha => inl ha, fun _ ha _ => ha⟩
    exact fun a ha => absurd ha not_mem_nil
  | cons uid rest ih =>
    intro P h hstay htodo horder
    have hcur : uid ∈ curUids := htodo uid mem_cons_self
    have hrest : ∀ a ∈ rest, a ∈ curUids := fun a ha => htodo a (mem_cons_of_mem _ ha)
    rw [loadLoop]
    by_cases hin : uid ∈ P.buffers.index
    · rw [if_pos hin]
      have hheld : uid ∈ P.held := mem_held.mpr hin
      rcases ih h hstay hrest horder with ⟨Q, hQ, hprep⟩ | ⟨herr, a, ha, hmiss⟩
      · refine inl ⟨Q, hQ, hprep.sound, hprep.slots, ?_, hprep.subset, hprep.kept⟩
        intro a ha
        rcases mem_cons.mp ha with rfl | ha
        · exact hprep.kept a hheld (inl hcur)
        · exact hprep.loaded a ha
      · exact inr ⟨herr, a, mem_cons_of_mem _ ha, hmiss⟩
    · rw [if_neg hin]
      have hnew : uid ∉ P.held := fun hheld => hin (mem_held.mp hheld)
      obtain ⟨P', k, hget, hfound⟩ := getAvailableBufferSlot_spec h hstay hcur hnew
      rw [hget]
      show (∃ Q, (if refs.isLoaded uid then loadLoop refs curUids rest (P'.load uid k)
          else .error .adapterNotLoaded) = .ok Q ∧ _) ∨
        (if refs.isLoaded uid then loadLoop refs curUids rest (P'.load uid k)
          else .error .adapterNotLoaded) = .error .adapterNotLoaded ∧ _
      cases hload : refs.isLoaded uid with
      | false => exact inr ⟨if_neg Bool.false_ne_true, uid, mem_cons_self, hload⟩
      | true =>
        rw [if_pos rfl]
        have hsub : ∀ a ∈ (P'.load uid k).held, a ∈ P.held ∨ a ∈ curUids := by
          intro a ha
          rw [held_load, mem_insert] at ha
          rcases ha with rfl | ha
          · exact inr hcur
          · exact inl (hfound.subset ha)
        have hstay' : Stays refs curUids stay (P'.load uid k) := by
          refine ⟨hstay.batch, ?_, ?_⟩
          · intro a ha hpin
            rcases hsub a ha with ha | ha
            · exact hstay.pinned a ha hpin
            · exact hstay.batch a ha
          · show stay.card ≤ (P'.buffers.put k uid).slots.length
            rw [length_put, hfound.slots]
            exact hstay.fits
        have horder' : ∀ u, some u ∈ curUids → u ∈ (P'.load uid k).evictionPolicy.order :=
          fun u hu => hfound.order u (horder u hu) hu
        rcases ih (hfound.load_sound hcur hnew horder) hstay' hrest horder' with
          ⟨Q, hQ, hprep⟩ | ⟨herr, a, ha, hmiss⟩
        · refine inl ⟨Q, hQ, hprep.sound, ?_, ?_, ?_, ?_⟩
          · rw [hprep.slots]
            show (P'.buffers.put k uid).slots.length = _
            rw [length_put, hfound.slots]
          · intro a ha
            rcases mem_cons.mp ha with rfl | ha
            · apply hprep.kept a _ (inl hcur)
              rw [held_load]
              exact mem_insert_self _ _
            · exact hprep.loaded a ha
          · intro a ha
            rcases hprep.subset a ha with ha | ha
            · exact hsub a ha
            · exact inr ha
          · intro a ha hkeep
            apply hprep.kept a _ hkeep
            rw [held_load]
            exact mem_insert_of_mem (hfound.kept a ha hkeep)
        · exact inr ⟨herr, a, mem_cons_of_mem _ ha, hmiss⟩

/-- Nothing is loaded for a batch that is in the pool already. -/
theorem loadLoop_of_held (todo : List Uid) (h : ∀ a ∈ todo, a ∈ P.held) :
    loadLoop refs curUids todo P = .ok P := by
  induction todo with
  | nil => rfl
  | cons uid rest ih =>
    rw [loadLoop, if_pos (mem_held.mp (h uid mem_cons_self))]
    exact ih fun a ha => h a (mem_cons_of_mem _ ha)

/-- Nobody loses a slot to the only adapter that is missing if a slot is empty. -/
theorem held_subset_of_firstEmpty (todo : List Uid) (hk : P.buffers.firstEmpty = some k)
    (hheld : ∀ a ∈ todo, a = uid ∨ a ∈ P.held) (hQ : loadLoop refs curUids todo P = .ok Q) :
    P.held ⊆ Q.held := by
  induction todo with
  | nil =>
    cases hQ
    exact Finset.Subset.refl _
  | cons a rest ih =>
    have hrest : ∀ b ∈ rest, b = uid ∨ b ∈ P.held := fun b hb => hheld b (mem_cons_of_mem _ hb)
    rw [loadLoop] at hQ
    by_cases hin : a ∈ P.buffers.index
    · rw [if_pos hin] at hQ
      exact ih hrest hQ
    · rw [if_neg hin, getAvailableBufferSlot, hk] at hQ
      have ha : a = uid := (hheld a mem_cons_self).resolve_right fun h => hin (mem_held.mp h)
      have hQ' : (if refs.isLoaded a then loadLoop refs curUids rest (P.load a k)
          else .error .adapterNotLoaded) = .ok Q := hQ
      split at hQ'
      · -- with this adapter in its slot there is nothing left to load
        rw [loadLoop_of_held] at hQ'
        · cases hQ'
          rw [held_load]
          exact Finset.subset_insert _ _
        · intro b hb
          rw [held_load, mem_insert, ha]
          exact hrest b hb
      · cases hQ'

/-! ### A whole batch -/

theorem mem_foldl_markUsed (l : List Uid) : ∀ {p : EvictionPolicy} {u : LoraId}, u ∈ p.order ∨ some u ∈ l →
      u ∈ (l.foldl EvictionPolicy.markUsed p).order := by
  induction l with
  | nil =>
    intro p u h
    rcases h with h | h
    · exact h
    · exact absurd h not_mem_nil
  | cons a l ih =>
    intro p u h
    apply ih
    rcases h with h | h
    · exact inl (EvictionPolicy.mem_markUsed h)
    · rcases mem_cons.mp h with rfl | h
      · exact inl EvictionPolicy.mem_markUsed_self
      · exact inr h

theorem Sound.markAll (h : P.Sound) : (P.markAll curUids).Sound where
  valid := h.valid
  size := h.size
  weights := h.weights
  tracked := fun u hu => mem_foldl_markUsed curUids (inl (h.tracked u hu))

/-- If the batch and the pinned adapters in the pool fit into it, preparing the batch can only fail at an
adapter that is not loaded. -/
theorem prepareLoraBatch_spec (h : P.Sound) (hstay : Stays refs curUids stay P) :
    (∃ Q, P.prepareLoraBatch refs curUids = .ok Q ∧ Prepared refs curUids curUids P Q) ∨
      P.prepareLoraBatch refs curUids = .error .adapterNotLoaded ∧ ∃ a ∈ curUids, refs.isLoaded a = false := by
  have hstay' : Stays refs curUids stay (P.markAll curUids) := { hstay with }
  have horder : ∀ u, some u ∈ curUids → u ∈ (P.markAll curUids).evictionPolicy.order :=
    fun u hu => mem_foldl_markUsed curUids (inr hu)
  rcases loadLoop_spec curUids h.markAll hstay' (fun _ ha => ha) horder with ⟨Q, hQ, hprep⟩ | herr
  · exact inl ⟨Q, hQ, hprep.sound, hprep.slots, hprep.loaded, hprep.subset, hprep.kept⟩
  · exact inr herr

/-- Nobody loses a slot to a batch of which only `uid` may be missing, if a slot is empty in case it is. -/
theorem held_subset_of_prepareLoraBatch (hheld : ∀ a ∈ curUids, a = uid ∨ a ∈ P.held)
    (hroom : uid ∈ P.held ∨ P.buffers.firstEmpty.isSome = true) (hQ : P.prepareLoraBatch refs curUids = .ok Q) :
    P.held ⊆ Q.held := by
  unfold prepareLoraBatch at hQ
  rcases hroom with huid | hempty
  · rw [loadLoop_of_held] at hQ
    · cases hQ
      exact Finset.Subset.refl _
    · intro a ha
      rcases hheld a ha with rfl | ha
      · exact huid
      · exact ha
  · obtain ⟨k, hk⟩ := Option.isSome_iff_exists.mp hempty
    exact held_subset_of_firstEmpty (P := P.markAll curUids) curUids hk hheld hQ

/-- Only the batch matters, not the order in which it is listed. -/
theorem Prepared.congr (h : Prepared refs curUids curUids P Q) (hl : ∀ a, a ∈ curUids ↔ a ∈ l) :
    Prepared refs l l P Q where
  sound := h.sound
  slots := h.slots
  loaded := fun a ha => h.loaded a ((hl a).mpr ha)
  subset := by
    intro a ha
    rw [← hl a]
    exact h.subset a ha
  kept := by
    intro a ha hkeep
    rw [← hl a] at hkeep
    exact h.kept a ha hkeep

theorem card_held_le (h : P.Sound) : P.held.card ≤ P.buffers.slots.length := h.valid.card_le_length

end LoRAMemoryPool

end SGLang.Lora
