/-
# SGLang.MemCache.RadixCacheEventBooks — the events account for the tree.

A consumer of the event stream books every announced block and strikes it when it is taken back.
`Announced` says that its books agree with the tree: every node carries the hashes of its pages, chained
from the root, and a block is booked once for every page of the tree with its hash. Lookups and splits keep
the books as they are, a new leaf announces its pages behind those of its parent, an evicted leaf takes its
own back, and a reset clears them.
-/
import SGLang.MemCache.RadixCacheEvents

namespace SGLang.MemCache.EventCache

open SGLang.Lib SGLang.Lib.PageTree RadixKey KVEvent RadixCache List
open EventNode (hashValue)
open Option (getD_some)

/-! ## Walks -/

/-- Updates that leave the hashes alone. -/
def KeepsHash (g : EventNode → EventNode) : Prop := ∀ d, (g d).hashValue = d.hashValue

/-- The two halves of a split share out the hashes. -/
def SharesHash (ps m : ℕ) (up down : EventNode → EventNode) : Prop :=
  ∀ d, (up d).hashValue = d.hashValue.map (List.take (m / ps)) ∧
    (down d).hashValue = d.hashValue.map (List.drop (m / ps))

/-- What a walk does to the tree. -/
abbrev Walked (ps : ℕ) : EventTree → EventTree → Prop := Quiet ps KeepsHash (SharesHash ps)

theorem keepsHash_onBase {g : NodeData → NodeData} : KeepsHash (onBase g) := fun _ => rfl

theorem walked_of_quiet {ps : ℕ} {t t' : EventTree} (h : QuietSteps ps t t') : Walked ps t t' := by
  refine h.mono ?_ ?_
  · rintro g ⟨g₀, rfl, -⟩
    exact keepsHash_onBase
  · rintro m up down ⟨now, rfl, rfl⟩ d
    simp only [Payload.upper, Payload.lower, splitNodeHashValue_eq, and_self]

/-! ## The books -/

/-- How often a block is among the hashes of a node. -/
def tally (h : ℤ) (_ : RadixKey) (d : EventNode) : ℤ :=
  ((d.hashValue.getD []).map hashStrToInt64).count h

/-- A store event announces a page of one of these keys, behind the page before it. -/
def Follows (sha256 : List UInt8 → Digest) (ps : ℕ) (keys : List (List (Option String × Tok))) :
    KVEvent → Prop
  | .blockStored blockHash parent tokenIds blockSize _ => ∃ before page after,
    before ++ page ++ after ∈ keys ∧ ps ∣ before.length ∧ page.length = ps ∧
    tokenIds = page.map Prod.snd ∧ blockSize = ps ∧
    some blockHash =
      (pageHashes (pageHash sha256) ps (before ++ page)).getLast?.map hashStrToInt64 ∧
    parent = (pageHashes (pageHash sha256) ps before).getLast?.map hashStrToInt64
  | _ => True

/-- The events recorded so far agree with the tree. -/
structure Announced (sha256 : List UInt8 → Digest) (ps : ℕ) (keys : List (List (Option String × Tok)))
    (t : EventTree) (evs : List KVEvent) : Prop where
  wf : WF ps t
  chained : t.Chained (pageHash sha256) ps hashValue
  hashed : t.AllHashed hashValue
  root_hash : ∀ nd, t.nodes t.root = some nd → nd.data.hashValue = some []
  balance_eq : ∀ h, balance h evs = t.sum (tally h)
  follows : ∀ ev ∈ evs, Follows sha256 ps keys ev

section Books

variable {sha256 : List UInt8 → Digest} {ps n p : ℕ} {keys : List (List (Option String × Tok))}
variable {t t' : EventTree} {evs : List KVEvent} {l : List ℕ} {key : RadixKey} {d : NodeData}
variable {nd pd : Node RadixKey ChildKey EventNode} {ev : KVEvent} {keys' : List (List (Option String × Tok))}

theorem Follows.mono (h : Follows sha256 ps keys ev) (hsub : keys ⊆ keys') : Follows sha256 ps keys' ev := by
  cases ev with
  | blockStored h' parent toks size medium =>
    rcases h with ⟨before, page, after, hmem, hrest⟩
    exact ⟨before, page, after, hsub hmem, hrest⟩
  | blockRemoved h' medium => trivial
  | allBlocksCleared => trivial

theorem tally_split {h : ℤ} {m : ℕ} {up down : EventNode → EventNode} (hh : SharesHash ps m up down)
    (k k' k'' : RadixKey) (d : EventNode) :
    tally h k (up d) + tally h k' (down d) = tally h k'' d := by
  unfold tally
  rw [(hh d).1, (hh d).2]
  cases d.hashValue with
  | none => rfl
  | some hs =>
    simp only [Option.map_some, getD_some]
    rw [← Nat.cast_add, ← count_append, ← map_append, take_append_drop]

/-- A walk changes neither the hashes of the pages nor how many there are. -/
theorem Announced.walked (h : Announced sha256 ps keys t evs) (hq : Walked ps t t') :
    Announced sha256 ps keys t' evs := by
  have hhash := hq.hashed (fun _ hg => hg) (fun _ _ _ hh => hh) h.wf h.chained h.hashed
  have hkeep : WF ps t' ∧ t'.AtRoot (fun _ d => d.hashValue = some []) ∧
      ∀ b, t'.sum (tally b) = t.sum (tally b) := by
    apply hq.invariant (P := fun u => WF ps u ∧ u.AtRoot (fun _ d => d.hashValue = some []) ∧
      ∀ b, u.sum (tally b) = t.sum (tally b))
    · rintro u n g hg ⟨wf, hroot, hsum⟩
      refine ⟨wf.modifyData, hroot.modifyData fun _ _ d hd => (hg d).trans hd, ?_⟩
      · intro b
        rw [sum_modifyData_congr, hsum]
        intro k d
        unfold tally
        rw [hg]
    · rintro u c m nd up down hc hne hm₀ hm hd hh ⟨wf, hroot, hsum⟩
      refine ⟨wf.splitAt hc hne hm₀ hm hd, hroot.split wf hc hne, ?_⟩
      · intro b
        have hs := sum_splitAt (f := tally b) m up down wf hc hne
        have ht := @tally_split ps b m up down hh (PagedKey.take nd.key m) (PagedKey.drop nd.key m)
          nd.key nd.data
        rw [← hsum]
        linarith
    · exact ⟨h.wf, h.root_hash, fun _ => rfl⟩
  refine ⟨hkeep.1, hhash.1, hhash.2, hkeep.2.1, ?_, h.follows⟩
  intro b
  rw [h.balance_eq, hkeep.2.2]

/-- The events of the pages that continue `above` follow one another. -/
theorem follows_chainEvents {above us : List (Option String × Tok)} {medium : StorageMedium} (hps : 0 < ps)
    (ha : ps ∣ above.length) (hd : ps ∣ us.length) (hkey : above ++ us ∈ keys)
    (hev : ev ∈ chainEvents sha256 medium (pageHashes (pageHash sha256) ps above).getLast?
      (pages ps us)) : Follows sha256 ps keys ev := by
  rcases mem_chainEvents hev with ⟨P, page, Q, hP, rfl⟩
  rcases pages_middle hps hd hP with ⟨before, after, rfl, rfl, hb, hlen⟩
  have hprior : lastHash (pageHash sha256) (pageHashes (pageHash sha256) ps above).getLast?
      (pages ps before) = (pageHashes (pageHash sha256) ps (above ++ before)).getLast? := by
    rw [← lastHash_pages, ← lastHash_append, ← pages_append hps ha, lastHash_pages]
  have hab : ps ∣ (above ++ before).length := by
    rw [length_append]
    exact Nat.dvd_add ha hb
  have hne : page ≠ [] := ne_nil_of_length_pos (by omega)
  refine ⟨above ++ before, page, after, by simpa using hkey, hab, hlen, rfl, hlen, ?_, ?_⟩
  · rw [pageHashes_append hps hab, pages_of_le hne hlen.le, hprior]
    simp [chain]
  · rw [hprior]

/-- A new leaf continues the chain of its parent and announces its pages. -/
theorem Announced.grow (h : Announced sha256 ps keys t evs) (hp : t.nodes p = some pd)
    (hl : t.Path p l) (hck : t.child p (key.childKey ps) = none) (hpos : 0 < key.len)
    (hd : ps ∣ key.len) (hkey : t.labels l ++ key.units ∈ keys) :
    Announced sha256 ps keys
      (t.addLeaf ps p key ⟨d, some (hashesBelow (pageHash sha256) ps (t.labels l) key.units)⟩).1
      (evs ++ chainEvents sha256 .gpu (pageHashes (pageHash sha256) ps (t.labels l)).getLast?
        (pages ps key.units)) := by
  have hunits : key.units ≠ [] := ne_nil_of_length_pos (by rwa [length_units])
  have hdu : ps ∣ key.units.length := by rwa [length_units]
  refine ⟨h.wf.addLeaf hp hck hunits hdu, ?_, ?_, ?_, ?_, ?_⟩
  · apply h.chained.add h.wf hp hl
    rintro hs ⟨⟩
    rfl
  · exact Each.add h.hashed h.wf hp ⟨_, rfl⟩
  · exact AtRoot.add (P := fun _ (d : EventNode) => d.hashValue = some []) h.root_hash h.wf hp
  · intro b
    rcases @countP_chainEvents sha256 .gpu
      (pageHashes (pageHash sha256) ps (t.labels l)).getLast? (pages ps key.units) b with ⟨hst, hrm, hcl⟩
    rw [balance_append hcl, h.balance_eq, sum_addLeaf (tally b) h.wf hp, hst, hrm]
    simp [tally, hashesBelow]
  · intro ev hev
    rcases mem_append.mp hev with hev | hev
    · exact h.follows ev hev
    · exact follows_chainEvents h.wf.ps_pos (h.wf.dvd_labels hl) hdu hkey hev

/-- A leaf that leaves the tree takes its pages back. -/
theorem Announced.shrink {hs : List Digest} (h : Announced sha256 ps keys t evs)
    (hn : t.nodes n = some nd) (hne : n ≠ t.root) (hleaf : t.Leaf n)
    (hhs : nd.data.hashValue = some hs) : Announced sha256 ps keys (t.removeLeaf ps n)
      (evs ++ removeEvents ps nd.key hs .gpu) := by
  have hlen : hs.length = (pages ps nd.key.units).length := by
    rcases h.wf.above hn hne with ⟨us, hus, -⟩
    rw [h.chained n nd us hs hn hus hhs, hashesBelow, length_chain]
    rfl
  rw [removeEvents_eq h.wf.ps_pos hlen]
  refine ⟨h.wf.removeLeaf hn hne hleaf, h.chained.remove h.wf hn hne, Each.remove h.hashed h.wf hn hne,
    AtRoot.remove (P := fun _ (d : EventNode) => d.hashValue = some []) h.root_hash h.wf hn hne, ?_, ?_⟩
  · intro b
    rcases @countP_removed .gpu b hs with ⟨hst, hrm, hcl⟩
    have hsum := sum_removeLeaf (f := tally b) h.wf hn hne
    have htally : tally b nd.key nd.data = ((hs.map hashStrToInt64).count b : ℤ) := by
      rw [tally, hhs, getD_some]
    rw [balance_append hcl, h.balance_eq, hst, hrm, ← htally, ← hsum]
    push_cast
    ring
  · intro ev hev
    rcases mem_append.mp hev with hev | hev
    · exact h.follows ev hev
    · rcases mem_map.mp hev with ⟨d, -, rfl⟩
      trivial

theorem Announced.mono (h : Announced sha256 ps keys t evs) (hsub : keys ⊆ keys') :
    Announced sha256 ps keys' t evs :=
  { h with follows := fun ev hev => (h.follows ev hev).mono hsub }

/-- A new root without pages has nothing to account for. -/
theorem Announced.cleared {root : ℕ} {now : ℤ} (hps : 0 < ps) (h : ∀ ev ∈ evs, Follows sha256 ps keys ev) :
    Announced sha256 ps keys (.single root rootKey (Payload.ofRoot (rootData now))) (evs ++
      [.allBlocksCleared]) where
  wf := WF.single hps
  chained := by
    intro n nd above hs hn habove
    have hne := habove.ne_root
    exact absurd hn (by simp [single, show n ≠ root from hne])
  hashed := each_single
  root_hash := by
    intro nd hnd
    simp only [single, if_true, Option.some.injEq] at hnd
    rw [← hnd]
    rfl
  balance_eq := by
    intro b
    rw [balance_cleared, sum_single]
  follows := by
    intro ev hev
    rcases mem_append.mp hev with hev | hev
    · exact h ev hev
    · rw [mem_singleton.mp hev]
      trivial

end Books

/-! ## Operations -/

section Operations

variable {sha256 : List UInt8 → Digest} {cfg : EventConfig} {c c' : EventCache} {locks : List ℕ}
variable {keys : List (List (Option String × Tok))} {published : List KVEvent} {n : ℕ} {now : ℤ}
variable {nd : Node RadixKey ChildKey EventNode} {r : List (List ℕ) × ℕ} {ties : ℕ → ℕ}

/-- The books of a cache, with the events already taken from its queue. -/
def Audited (sha256 : List UInt8 → Digest) (ps : ℕ) (keys : List (List (Option String × Tok)))
    (published : List KVEvent) (c : EventCache) : Prop :=
  Announced sha256 ps keys c.tree (published ++ c.kvEventQueue)

/-- The event of a leaf just added: its hashes are set and its pages announced. -/
theorem recordStoreEvent_audited {t : EventTree} {p : ℕ} {pd : Node RadixKey ChildKey EventNode}
    {l : List ℕ} {key : RadixKey} {d : NodeData} (hen : cfg.enableKvCacheEvents = true)
    (h : Announced sha256 cfg.pageSize keys t (published ++ c.kvEventQueue)) (hp : t.nodes p = some pd)
    (hl : t.Path p l) (hck : t.child p (key.childKey cfg.pageSize) = none) (hpos : 0 < key.len)
    (hd : cfg.pageSize ∣ key.len) (hkey : t.labels l ++ key.units ∈ keys)
    (htree : c.tree = (t.addLeaf cfg.pageSize p key ⟨d, none⟩).1) :
    Audited sha256 cfg.pageSize keys published (recordStoreEvent sha256 cfg c t.next) := by
  have hnew : c.tree.nodes t.next = some ⟨p, ∅, key, ⟨d, none⟩⟩ := by
    rw [htree]
    exact nodes_addLeaf_new h.wf hp
  have hparent : c.tree.nodes p = some { pd with
      children := pd.children.insert (PagedKey.childKey cfg.pageSize key) t.next } := by
    rw [htree]
    exact nodes_addLeaf_parent h.wf hp
  have hhash := h.hashed p pd hp
  have hblock : parentBlockHash (p = t.root) pd.data.hashValue = _ :=
    parentBlockHash_eq h.chained h.wf hp hl hhash
  have hhs : computeHashes sha256 hashValue cfg.pageSize c.tree p key =
      hashesBelow (pageHash sha256) cfg.pageSize (t.labels l) key.units := by
    have hsame : computeHashes sha256 hashValue cfg.pageSize c.tree p key =
        computeHashes sha256 hashValue cfg.pageSize t p key := by
      unfold computeHashes
      rw [hparent, hp]
    rw [hsame]
    exact computeHashes_eq h.chained h.wf hp hl (fun hr => h.root_hash pd (hr ▸ hp)) hhash
  have hstored : storeEvents cfg.pageSize key
      (hashesBelow (pageHash sha256) cfg.pageSize (t.labels l) key.units) .gpu
      ((pageHashes (pageHash sha256) cfg.pageSize (t.labels l)).getLast?.map hashStrToInt64) = _ :=
    storeEvents_eq h.wf.ps_pos rfl
  have hgrow := @Announced.grow sha256 cfg.pageSize p keys t _ l key d pd h hp hl hck hpos hd hkey
  rw [append_assoc] at hgrow
  unfold Audited recordStoreEvent
  rw [if_pos hen]
  simp only [hnew, nodeHashes, hhs, parentHashValue, hparent]
  rw [htree, addLeaf_root, modifyData_addLeaf h.wf hp, hblock, hstored]
  exact hgrow

/-- Deleting a leaf leaves the queue alone. -/
theorem deleteLeaf_eq {ps : ℕ} (hn : c.tree.nodes n = some nd) (h : c.deleteLeaf ps n = .ok c') :
    c'.tree = c.tree.removeLeaf ps n ∧ c'.kvEventQueue = c.kvEventQueue := by
  simp only [deleteLeaf, getObject_live hn, if_neg (not_isOldRoot hn), bind, Except.bind] at h
  split at h
  · cases h
    simp only [updateLeafStatus_tree, updateLeafStatus_queue, unlink, hn, Option.isSome_some, if_true, and_self]
  · cases h

theorem recordRemoveEvent_audited {t : EventTree} (hen : cfg.enableKvCacheEvents = true)
    (h : Announced sha256 cfg.pageSize keys t (published ++ c.kvEventQueue)) (hn : t.nodes n = some nd)
    (hne : n ≠ t.root) (hleaf : t.Leaf n) (htree : c.tree = t.removeLeaf cfg.pageSize n) :
    Audited sha256 cfg.pageSize keys published (recordRemoveEvent sha256 cfg c nd) := by
  rcases h.hashed n nd hn hne with ⟨hs, hhs⟩
  have hshrink := h.shrink hn hne hleaf hhs
  unfold Audited recordRemoveEvent
  rw [if_pos hen]
  simp only [nodeHashes, hhs, htree]
  rwa [← append_assoc]

theorem shiftLock_walked {ps : ℕ} {δ : ℤ} :
    Walked ps c.tree (c.shiftLock n δ).tree ∧ (c.shiftLock n δ).kvEventQueue = c.kvEventQueue := by
  unfold shiftLock modifyObject
  split
  · exact ⟨.touch n (.refl _) keepsHash_onBase, rfl⟩
  · exact ⟨.refl _, rfl⟩

/-- Lock rounds change neither hashes nor events. -/
theorem lockStep_walked {f : EventCache × ℤ → ℕ → EventCache × ℤ} (hf : f = incStep ∨ f = decStep) (ps : ℕ)
    (s : EventCache × ℤ) (n : ℕ) :
    Walked ps s.1.tree (f s n).1.tree ∧ (f s n).1.kvEventQueue = s.1.kvEventQueue := by
  rcases hf with rfl | rfl
  all_goals
    simp only [incStep, decStep]
    split
    · exact ⟨.refl _, rfl⟩
    · simp only [updateLeafStatus_tree, updateLeafStatus_queue]
      exact shiftLock_walked

theorem foldl_audited {f : EventCache × ℤ → ℕ → EventCache × ℤ} (hf : f = incStep ∨ f = decStep) {ps : ℕ}
    (l : List ℕ) (s : EventCache × ℤ) (h : Audited sha256 ps keys published s.1) :
    Audited sha256 ps keys published (l.foldl f s).1 := by
  induction l generalizing s with
  | nil => exact h
  | cons n l ih =>
    apply ih
    unfold Audited
    rw [(lockStep_walked hf ps s n).2]
    exact Announced.walked h (lockStep_walked hf ps s n).1

variable (h : Audited sha256 cfg.pageSize keys published c)

include h

theorem matchPrefix_audited {key : RadixKey} {r : MatchResult} (hf : c.tree.Fits slots)
    (hrun : c.matchPrefix cfg.toConfig now key = .ok (c', r)) :
      Audited sha256 cfg.pageSize keys published c' := by
  obtain ⟨t', r', l, hrun', hq, -⟩ := matchPrefix_walk now h.wf hf key
  rw [hrun] at hrun'
  cases hrun'
  exact Announced.walked h (walked_of_quiet hq)

theorem incLockRef_audited : Audited sha256 cfg.pageSize keys published (c.incLockRef n).1 :=
  foldl_audited (.inl rfl) _ (c, 0) h

theorem decLockRef_audited : Audited sha256 cfg.pageSize keys published (c.decLockRef n).1 :=
  foldl_audited (.inr rfl) _ (c, 0) h

variable (hen : cfg.enableKvCacheEvents = true)

include hen

theorem insert_audited {p : InsertParams} {L : ℕ} (hkey : (insertKey cfg.toConfig p).units ∈ keys)
    (hrun : c.insert cfg.toConfig now p (recorder sha256 cfg) = .ok (c', L)) :
    Audited sha256 cfg.pageSize keys published c' := by
  have hdvd : cfg.pageSize ∣ (insertKey cfg.toConfig p).len := dvd_len_pageAligned
  obtain ⟨t₁, w, l, rest, hq, hl, happ, hd, hck, hrun'⟩ := insertHelper_walk (recorder sha256 cfg) now
    (p.priority.getD 0) p.chunked (insertValue cfg.toConfig p) h.wf hdvd
  rw [RadixCache.insert, hrun'] at hrun
  have h₁ := Announced.walked h (walked_of_quiet hq)
  by_cases hpos : 0 < rest.len
  · rw [if_pos hpos] at hrun
    generalize newData now _ _ _ = d at hrun
    cases hrun
    obtain ⟨wd, hwd⟩ := h₁.wf.node_of_path hl
    refine recordStoreEvent_audited (d := d) hen ?_ hwd hl (hck hpos) hpos hd (by rwa [happ]) ?_
    · simpa only [afterAddLeaf, updateLeafStatus_queue] using h₁
    · simp only [afterAddLeaf, updateLeafStatus_tree]
      rfl
  · rw [if_neg hpos] at hrun
    cases hrun
    exact h₁

/-- The eviction loop deletes leaves, so each round keeps the books. -/
theorem evictLoop_audited {numTokens fuel numEvicted : ℕ} {heap : List HeapEntry} {freed : List (List ℕ)}
    (hacc : Accounting cfg.pageSize c.forget locks) (hheap : HeapOf cfg.toConfig c.forget heap)
    (hrun : evictLoop (recorder sha256 cfg) cfg.toConfig numTokens ties fuel c heap numEvicted freed =
      .ok (c', r)) :
    Audited sha256 cfg.pageSize keys published c' := by
  induction fuel generalizing c heap numEvicted freed with
  | zero => cases hrun
  | succ fuel ih =>
    rw [evictLoop] at hrun
    split at hrun
    · split at hrun
      · cases hrun
        exact h
      · next e heap' hpop =>
        rcases heappop_spec hpop with ⟨he, rfl, -⟩
        rcases (hacc.leaves_iff _).mp (hheap.leaf he) with ⟨xd, hxd, hne, -, hleaf⟩
        rcases nodes_of_mapData hxd with ⟨x, hx, rfl⟩
        rcases deleteLeaf_spec hacc (hheap.leaf he) hxd with ⟨c₁, hdel, hacc₁, htree₁, hkeep⟩
        rw [deleteLeaf_forget] at hdel
        generalize hdel₁ : c.deleteLeaf cfg.pageSize e.node = res at hdel
        cases res with
        | error err => cases hdel
        | ok c₂ =>
          cases hdel
          rcases deleteLeaf_eq hx hdel₁ with ⟨htree, hqueue⟩
          rcases h.wf.parent_node hx hne with ⟨pd₀, hp₀⟩
          have hp := nodes_removeLeaf_parent h.wf hx hne hp₀
          rw [← htree] at hp
          have hpf : c₂.forget.tree.nodes x.parent = some _ := nodes_mapData_of_some hp
          have hheap' := hheap.step hacc hacc₁ he hxd htree₁ hpf hkeep
          simp only [getObject_live hx, hdel₁, getObject_live hp, bind, Except.bind] at hrun
          have hstep : Audited sha256 cfg.pageSize keys published (recordRemoveEvent sha256 cfg c₂ x) := by
            apply recordRemoveEvent_audited hen _ hx hne (leaf_mapData.mp hleaf) htree
            rw [hqueue]
            exact h
          have hforget : (recordRemoveEvent sha256 cfg c₂ x).forget = c₂.forget := unseen_recorder.remove c₂ x
          exact ih hstep (hforget ▸ hacc₁) (hforget ▸ hheap') hrun
    · cases hrun
      exact h

theorem evict_audited {numTokens : ℕ} (hacc : Accounting cfg.pageSize c.forget locks)
    (hrun : c.evict cfg.toConfig ties numTokens (recorder sha256 cfg) = .ok (c', r)) :
    Audited sha256 cfg.pageSize keys published c' := by
  unfold evict at hrun
  rw [← evictionHeap_forget] at hrun
  exact evictLoop_audited h hen hacc hacc.heapOf hrun

theorem reset_audited : Audited sha256 cfg.pageSize keys published (c.reset now (recorder sha256 cfg)) := by
  unfold Audited reset
  dsimp only [recorder]
  rw [recordAllClearedEvent, if_pos hen, ← append_assoc]
  exact Announced.cleared h.wf.ps_pos h.follows

/-- Events that are taken from the queue are not lost. -/
theorem takeEvents_audited :
    Audited sha256 cfg.pageSize keys (published ++ (takeEvents cfg c).2) (takeEvents cfg c).1 := by
  unfold Audited takeEvents
  rw [if_pos hen, append_nil]
  exact h

end Operations

/-! ## Runs -/

/-- A cache in use, with the events already taken from its queue. -/
structure Session extends RadixCache.Session EventNode (List KVEvent) where
  published : List KVEvent

namespace Session

/-- All events recorded so far, in order. -/
def events (s : Session) : List KVEvent := s.published ++ s.cache.kvEventQueue

/-- The session of the plain cache. -/
def forget (s : Session) : RadixCache.Session := s.toSession.forget

end Session

/-- A call of the cache, or its events are taken. -/
inductive Step (sha256 : List UInt8 → Digest) (cfg : EventConfig) : Session → Session → Prop
  | call {s s' : RadixCache.Session EventNode (List KVEvent)} {published : List KVEvent} :
      Call (recorder sha256 cfg) cfg.toConfig s s' → Step sha256 cfg ⟨s, published⟩ ⟨s', published⟩
  | takeEvents {s : RadixCache.Session EventNode (List KVEvent)} {published : List KVEvent} :
      Step sha256 cfg ⟨s, published⟩
        ⟨{ s with cache := (takeEvents cfg s.cache).1 }, published ++ (takeEvents cfg s.cache).2⟩

/-- What the cache can be after some operations. -/
def Reachable (sha256 : List UInt8 → Digest) (cfg : EventConfig) (s : Session) : Prop :=
  ∃ now, Relation.ReflTransGen (Step sha256 cfg) ⟨⟨init cfg now, [], []⟩, []⟩ s

section Runs

variable {sha256 : List UInt8 → Digest} {cfg : EventConfig} {s s' : Session}

/-- Every operation is one of the plain cache, or takes events. -/
theorem Step.forget (h : Step sha256 cfg s s') :
    RadixCache.Step cfg.toConfig s.forget s'.forget ∨ s'.forget = s.forget := by
  cases h with
  | call h => exact .inl (h.forget unseen_recorder)
  | takeEvents =>
    right
    unfold Session.forget RadixCache.Session.forget
    rw [takeEvents_forget]

/-- **The cache with events runs like the plain one.** -/
theorem Reachable.forget (h : Reachable sha256 cfg s) : RadixCache.Reachable cfg.toConfig s.forget := by
  rcases h with ⟨now, hrun⟩
  refine ⟨now, ?_⟩
  induction hrun with
  | refl => rw [Session.forget, RadixCache.Session.forget, init_forget]
  | tail _ hstep ih =>
    rcases hstep.forget with hs | heq
    · exact ih.tail hs
    · rwa [heq]

/-- Every operation of the plain cache is one of the cache with events. -/
theorem Step.lift {p : RadixCache.Session} (h : RadixCache.Step cfg.toConfig s.forget p) :
    ∃ s', Step sha256 cfg s s' ∧ s'.forget = p := by
  obtain ⟨s', hs', heq⟩ := Call.lift unseen_recorder h
  exact ⟨⟨s', s.published⟩, .call hs', heq⟩

/-- **Hashes and events leave the cache alone.** With them and without them the same calls lead to the same
trees, sizes and locks. -/
theorem reachable_forget_iff (sha256 : List UInt8 → Digest) (cfg : EventConfig) (p : RadixCache.Session) :
    RadixCache.Reachable cfg.toConfig p ↔ ∃ s, Reachable sha256 cfg s ∧ s.forget = p := by
  constructor
  · rintro ⟨now, hrun⟩
    induction hrun with
    | refl => exact ⟨_, ⟨now, .refl⟩, by rw [Session.forget, RadixCache.Session.forget, init_forget]⟩
    | tail _ hstep ih =>
      obtain ⟨s, ⟨now, hs⟩, rfl⟩ := ih
      obtain ⟨s', hs', heq⟩ := Step.lift hstep
      exact ⟨s', ⟨now, hs.tail hs'⟩, heq⟩
  · rintro ⟨s, hs, rfl⟩
    exact hs.forget

/-- The keys that were inserted. -/
def insertedKeys (cfg : EventConfig) (log : List InsertParams) : List (List (Option String × Tok)) :=
  log.map fun p => (RadixCache.insertKey cfg.toConfig p).units

theorem Step.audited (hen : cfg.enableKvCacheEvents = true) (h : Step sha256 cfg s s')
    (hacc : Accounting cfg.pageSize s.cache.forget s.locks)
    (hs : Audited sha256 cfg.pageSize (insertedKeys cfg s.inserted) s.published s.cache) :
    Audited sha256 cfg.pageSize (insertedKeys cfg s'.inserted) s'.published s'.cache := by
  cases h with
  | call h =>
    cases h with
    | @insert c c' locks log now p L hfit hrun =>
      exact insert_audited (Announced.mono hs (subset_cons_self _ _)) hen mem_cons_self hrun
    | matchPrefix hrun =>
      exact matchPrefix_audited hs (fun n nd hn => hacc.fits n _ (nodes_mapData_of_some hn)) hrun
    | evict hrun => exact evict_audited hs hen hacc hrun
    | reset => exact reset_audited hs hen
    | @incLockRef _ _ _ _ n _ hn hrun =>
      have haud := incLockRef_audited (n := n) hs
      rwa [hrun] at haud
    | @decLockRef _ _ _ _ n _ hmem hn hrun =>
      have haud := decLockRef_audited (n := n) hs
      rwa [hrun] at haud
  | takeEvents => exact takeEvents_audited hs hen

theorem Reachable.audited (hps : 0 < cfg.pageSize) (hen : cfg.enableKvCacheEvents = true)
    (h : Reachable sha256 cfg s) :
    Audited sha256 cfg.pageSize (insertedKeys cfg s.inserted) s.published s.cache := by
  rcases h with ⟨now, hrun⟩
  induction hrun with
  | refl =>
    unfold Audited init recordAllClearedEvent
    rw [if_pos hen]
    exact Announced.cleared hps (by simp)
  | tail hbefore hstep ih =>
    have hacc := (Reachable.forget ⟨now, hbefore⟩).accounting hps
    exact hstep.audited hen hacc ih

/-- The pages of the tree whose chained hash is announced as `h`. -/
def pagesWithHash (sha256 : List UInt8 → Digest) (ps : ℕ) (t : EventTree) (h : ℤ) : ℕ :=
  ∑ n ∈ Finset.range t.next, ((pathHashes sha256 ps t n).map hashStrToInt64).count h

/-- The hashes a node carries are those of its path. -/
theorem Announced.hashValue_eq {ps n : ℕ} {keys : List (List (Option String × Tok))} {t : EventTree}
    {evs : List KVEvent} {nd : Node RadixKey ChildKey EventNode}
    (h : Announced sha256 ps keys t evs) (hn : t.nodes n = some nd) (hne : n ≠ t.root) :
    nd.data.hashValue = some (pathHashes sha256 ps t n) := by
  rcases h.hashed n nd hn hne with ⟨hs, hhs⟩
  rcases h.wf.path hn with ⟨l, hl⟩
  rcases hl.parent hn hne with ⟨l₀, rfl, -⟩
  rw [hhs, pathHashes_eq h.wf hl, label_eq hn]
  exact congrArg some (h.chained n nd _ hs hn ⟨l₀, hl, rfl⟩ hhs)

/-- So the tally of the nodes counts the pages. -/
theorem Announced.sum_eq {ps : ℕ} {keys : List (List (Option String × Tok))} {t : EventTree}
    {evs : List KVEvent} (h : Announced sha256 ps keys t evs) (b : ℤ) :
    t.sum (tally b) = (pagesWithHash sha256 ps t b : ℤ) := by
  unfold PageTree.sum pagesWithHash
  rw [Nat.cast_sum]
  apply Finset.sum_congr rfl
  intro n _
  by_cases hr : n = t.root
  · have hup : t.up n = some [] := by
      rw [hr, h.wf.up_eq .root]
      rfl
    rw [contrib, if_pos hr, pathHashes, hup]
    rfl
  · rw [contrib, if_neg hr]
    cases hn : t.nodes n with
    | none =>
      have hup : t.up n = none := by
        by_contra hcon
        rcases Option.ne_none_iff_exists'.mp hcon with ⟨r, hr'⟩
        rcases h.wf.node_of_path (path_of_upAux hr') with ⟨nd, hnd⟩
        rw [hn] at hnd
        cases hnd
      rw [pathHashes, hup]
      rfl
    | some nd =>
      rw [Option.map_some, getD_some, tally, h.hashValue_eq hn hr, getD_some]

/-- **The events account for the tree.** With events enabled, after any operations: a block is announced
once more than taken back, since the last clear, for every page of the tree with its chained hash; every
announced page lies behind the page its event names as parent; and every node carries the chained hashes of
its path. -/
theorem events_account_for_tree (hps : 0 < cfg.pageSize) (hen : cfg.enableKvCacheEvents = true)
    (h : Reachable sha256 cfg s) :
    (∀ b, balance b s.events = pagesWithHash sha256 cfg.pageSize s.cache.tree b) ∧
    (∀ ev ∈ s.events, Follows sha256 cfg.pageSize (insertedKeys cfg s.inserted) ev) ∧
    ∀ n nd, s.cache.tree.nodes n = some nd → n ≠ s.cache.tree.root →
      nd.data.hashValue = some (pathHashes sha256 cfg.pageSize s.cache.tree n) := by
  have haud : Announced sha256 cfg.pageSize _ s.cache.tree s.events := h.audited hps hen
  refine ⟨?_, haud.follows, ?_⟩
  · intro b
    rw [haud.balance_eq, haud.sum_eq]
  · intro n nd hn hne
    exact haud.hashValue_eq hn hne

/-- Pages of two tokens, with events. -/
def pairEvents : EventConfig := ⟨RadixCache.pairConfig, true⟩

/-- The second of two prompts splits the node of the first: three pages are announced, and the books agree
with the three nodes. -/
theorem events_account_for_tree_of_split : ∃ s : Session, Reachable List.reverse pairEvents s ∧
    s.cache.tree.next = 4 ∧ s.events.length = 4 ∧
    ∀ b, balance b s.events = pagesWithHash List.reverse 2 s.cache.tree b := by
  have hstep₁ : Call (recorder reverse pairEvents) pairConfig ⟨init pairEvents 0, [], []⟩ _ :=
    .insert (by decide) (rfl : RadixCache.insert _ 1 (init pairEvents 0) firstPrompt _ = .ok (_, _))
  have hrun := (Relation.ReflTransGen.single (.call hstep₁ : Step reverse pairEvents ⟨_, []⟩ _)).tail
    (.call (.insert (by decide) (rfl : RadixCache.insert _ 2 _ secondPrompt _ = .ok (_, _))))
  exact ⟨_, ⟨0, hrun⟩, rfl, rfl, (events_account_for_tree (by decide) rfl ⟨0, hrun⟩).1⟩

end Runs

end SGLang.MemCache.EventCache
