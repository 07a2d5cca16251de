/-
# SGLang.MemCache.RadixCacheStore — the cache as a map from prompts to slots.

The tree of a `RadixCache` stands for a partial map from page-aligned prompts, each under its
`extra_key`, to device slots (`PageTree.Stores`). Seen through that map, `match_prefix` is a longest
prefix query that changes nothing, `insert` extends the map at absent positions only, and `evict`
forgets. `Logged` follows every slot back to the call that put it there, which gives the isolation of
namespaces.
-/
import SGLang.MemCache.RadixCacheAccounting

namespace SGLang.MemCache

open SGLang.Lib SGLang.Lib.PageTree RadixKey List

namespace RadixCache

variable {ps n L : ℕ} {c c' : RadixCache} {locks l : List ℕ} {t t' : Tree} {now : ℤ} {cfg : Config}
variable {key : RadixKey} {value vs : List ℕ} {us : List (Option String × Tok)}

/-- A key in the view of the cache: bigrams under EAGLE. -/
def viewKey (cfg : Config) (key : RadixKey) : RadixKey :=
  (key.maybeToBigramView cfg.isEagle ([] : List ℕ)).1

theorem units_lookupKey : (lookupKey cfg key).units =
    (viewKey cfg key).units.take ((viewKey cfg key).len / cfg.pageSize * cfg.pageSize) :=
  units_pageAligned

/-- Cutting a prompt down to whole pages does not change its longest stored prefix. -/
theorem isLongest_aligned (h : IsLongest ps t (us.take (us.length / ps * ps)) L) : IsLongest ps t us L := by
  have hle : us.length / ps * ps ≤ us.length := Nat.div_mul_le_self _ _
  have hlen : (us.take (us.length / ps * ps)).length = us.length / ps * ps := by
    rw [length_take, min_eq_left hle]
  have hL := h.le
  rw [hlen] at hL
  have htake : ∀ j, j ≤ us.length / ps * ps → (us.take (us.length / ps * ps)).take j = us.take j :=
    fun j hj => by
    rw [take_take, min_eq_left hj]
  refine ⟨h.dvd, hL.trans hle, htake L hL ▸ h.present, fun j hj hjle hjp => ?_⟩
  have hjle' := le_floor_of_dvd hj hjle
  exact h.greatest j hj (by rwa [hlen]) (by rwa [htake j hjle'])

/-! ## The three operations -/

/-- What `match_prefix` returns, read off the map, and the map after it. -/
theorem matchPrefix_stores (now : ℤ) (h : Accounting cfg.pageSize c locks) (key : RadixKey) :
    ∃ c' r, c.matchPrefix cfg now key = .ok (c', r) ∧
      IsLongest cfg.pageSize c.tree (viewKey cfg key).units r.deviceIndices.length ∧
      c.tree.Stores NodeData.value ((viewKey cfg key).units.take r.deviceIndices.length) r.deviceIndices ∧
      ∀ us vs, c'.tree.Stores NodeData.value us vs ↔ c.tree.Stores NodeData.value us vs := by
  obtain ⟨c', r, hrun, -, ⟨l, hq, hl, hr, hpre, hlong⟩, -⟩ := matchPrefix_spec now h key
  obtain ⟨wf', hf', hstores⟩ := hq.plain h.wf h.fits
  have hlen : r.deviceIndices.length = (c'.tree.labels l).length := by
    rw [hr, hf'.length_along hl]
  rw [units_lookupKey, ← length_units (viewKey cfg key)] at hpre hlong
  refine ⟨c', r, hrun, ?_, ?_, hstores⟩
  · rw [hlen]
    exact isLongest_aligned ((hq.isLongest h.wf h.fits).mp hlong)
  · rw [← hstores]
    have htake : (viewKey cfg key).units.take (c'.tree.labels l).length = c'.tree.labels l :=
      (prefix_iff_eq_take.mp (hpre.trans (List.take_prefix _ _))).symm
    refine ⟨r.lastNode, l, hl, ?_, ?_⟩
    · rw [hlen, htake]
    · rw [hlen, htake, hr, ← hf'.length_along hl, take_length]

/-- What `insert` adds to the map: the rest of the key, on top of the prefix that was there. -/
theorem Inserted.stores (h : Inserted ps t key value t' L) (wf : WF ps t) (hf : t.Fits NodeData.value) :
    IsLongest ps t key.units L ∧ ∃ old, t.Stores NodeData.value (key.units.take L) old ∧
      ∀ us vs, t'.Stores NodeData.value us vs ↔ t.Stores NodeData.value us vs ∨
        (us <+: key.units ∧ L < us.length ∧ vs = (old ++ value.drop L).take us.length) := by
  obtain ⟨t₁, w, l, rest, hq, hw, happ, hL, hd, hlong, hcase⟩ := h.ex
  obtain ⟨wf₁, hf₁, hstores⟩ := hq.plain wf hf
  have htake : key.units.take L = t₁.labels l := by
    rw [← happ, ← hL, take_left']
    rfl
  have hal : (t₁.along NodeData.value l).length = L := by rw [hf₁.length_along hw, hL]
  have hold : t₁.Stores NodeData.value (key.units.take L) (t₁.along NodeData.value l) :=
    ⟨w, l, hw, by rw [htake], by rw [htake, hL, ← hal, take_length]⟩
  refine ⟨(hq.isLongest wf hf).mp hlong, _, (hstores _ _).mp hold, fun us vs => ?_⟩
  have hunits : key.units.length = L + rest.len := by
    rw [← happ, length_append, hL, length_units]
  rcases hcase with ⟨hzero, rfl⟩ | ⟨data, hpos, hdata, -, hnone, rfl⟩
  · rw [hstores]
    refine ⟨.inl, ?_⟩
    rintro (h | ⟨hpre, hlt, -⟩)
    · exact h
    · have := hpre.length_le
      omega
  · obtain ⟨wd, hwd⟩ := wf₁.node_of_path hw
    rw [stores_addLeaf wf₁ hwd hw, hstores, hdata]
    constructor
    · rintro (h | ⟨hpre, hvs⟩)
      · exact .inl h
      · have hpre' : us <+: key.units := happ ▸ hpre
        rcases le_or_gt us.length L with hle | hgt
        · -- a short prefix of the new path was there before
          refine .inl ((hstores us vs).mp ⟨w, l, hw, ?_, ?_⟩)
          · exact prefix_of_prefix_length_le hpre (prefix_append _ _) (hL ▸ hle)
          · rw [hvs, take_append_of_le_length (by omega)]
        · exact .inr ⟨hpre', hgt, hvs⟩
    · rintro (h | ⟨hpre, -, hvs⟩)
      · exact .inl h
      · exact .inr ⟨by rw [pagedKey_units, happ]; exact hpre, hvs⟩

theorem Evicted.stores {freed : List (List ℕ)} (h : Evicted ps c c' freed) (hc : Accounting ps c locks)
    (hs : c'.tree.Stores NodeData.value us vs) : c.tree.Stores NodeData.value us vs := by
  refine h.rule (P := fun c' _ => c'.tree.Stores NodeData.value us vs → _) hc id ?_ hs
  intro c₁ c₂ n nd _ hacc _ hn hne _ _ htree ih hs
  rw [htree] at hs
  exact ih (stores_of_removeLeaf hacc.wf hn hne hs)

theorem stores_addLocks {δ : ℤ} : (t.modifyAll l (NodeData.addLock δ)).Stores NodeData.value us vs ↔
    t.Stores NodeData.value us vs :=
  modifyAll_rule (P := fun u => u.Stores NodeData.value us vs ↔ t.Stores NodeData.value us vs)
    (fun _ _ => (stores_modifyData (g := NodeData.addLock δ) fun _ => rfl).trans) .rfl

/-! ## Where a slot comes from -/

/-- Every stored slot was given, at its position, with a key that starts with the units it is stored
under. -/
def Logged (cfg : Config) (c : RadixCache) (log : List InsertParams) : Prop :=
  ∀ us vs, c.tree.Stores NodeData.value us vs → ∀ i < us.length, ∃ p ∈ log,
    us.take (i + 1) <+: (insertKey cfg p).units ∧ (insertValue cfg p)[i]? = vs[i]?

theorem Logged.insert {p : InsertParams} {log : List InsertParams} (h : Logged cfg c log)
    (hacc : Accounting cfg.pageSize c locks)
    (hins : Inserted cfg.pageSize c.tree (insertKey cfg p) (insertValue cfg p) c'.tree L) :
    Logged cfg c' (p :: log) := by
  obtain ⟨hlong, old, hold, hiff⟩ := hins.stores hacc.wf hacc.fits
  have holdlen : old.length = L := by
    rw [hold.length_eq hacc.fits, length_take, min_eq_left hlong.le]
  intro us vs hs i hi
  rcases (hiff us vs).mp hs with hs | ⟨hpre, -, rfl⟩
  · obtain ⟨q, hq, hrest⟩ := h us vs hs i hi
    exact ⟨q, mem_cons_of_mem _ hq, hrest⟩
  · rw [getElem?_take_of_lt hi]
    have htake : us.take (i + 1) = (insertKey cfg p).units.take (i + 1) := by
      obtain ⟨r, hr⟩ := hpre
      rw [← hr, take_append_of_le_length (by omega)]
    rcases lt_or_ge i L with hiL | hiL
    · -- a position that was there already
      have hiL' : i < ((insertKey cfg p).units.take L).length := by
        rw [length_take, min_eq_left hlong.le]
        exact hiL
      obtain ⟨q, hq, hqpre, hqv⟩ := h _ _ hold i hiL'
      rw [take_take, min_eq_left (by omega : i + 1 ≤ L), ← htake] at hqpre
      refine ⟨q, mem_cons_of_mem _ hq, hqpre, ?_⟩
      rw [hqv, getElem?_append_left (by omega)]
    · refine ⟨p, mem_cons_self, (List.take_prefix _ _).trans hpre, ?_⟩
      rw [getElem?_append_right (by omega), getElem?_drop, holdlen, Nat.add_sub_cancel' hiL]

theorem Step.logged {s s' : Session} (h : Step cfg s s')
    (hacc : Accounting cfg.pageSize s.cache s.locks) (hs : Logged cfg s.cache s.inserted) :
    Logged cfg s'.cache s'.inserted := by
  cases h with
  | insert hp hrun =>
    obtain ⟨c'', L', hrun', -, hins⟩ := insert_spec _ hacc hp
    rw [hrun] at hrun'
    cases hrun'
    exact hs.insert hacc hins
  | matchPrefix hrun =>
    obtain ⟨c'', r', hrun', -, -, hstores⟩ := matchPrefix_stores _ hacc _
    rw [hrun] at hrun'
    cases hrun'
    exact fun us vs hst => hs us vs ((hstores us vs).mp hst)
  | evict hrun =>
    obtain ⟨c'', freed', hrun', hev, -⟩ := evict_spec hacc
    rw [hrun] at hrun'
    cases hrun'
    exact fun us vs hst => hs us vs ((hev.evicted hacc).stores hacc hst)
  | reset =>
    intro us vs hst i hi
    rw [stores_single hst] at hi
    exact absurd hi (Nat.not_lt_zero _)
  | incLockRef hn hrun =>
    obtain ⟨l, hl⟩ := hacc.path_of_isSome hn
    obtain ⟨c'', δ', hrun', -, htree⟩ := incLockRef_spec hacc hl
    rw [hrun] at hrun'
    cases hrun'
    intro us vs hst
    rw [htree, stores_addLocks] at hst
    exact hs us vs hst
  | decLockRef hmem hn hrun =>
    obtain ⟨l, hl⟩ := hacc.path_of_isSome hn
    obtain ⟨c'', δ', hrun', -, htree⟩ := decLockRef_spec hacc hl hmem
    rw [hrun] at hrun'
    cases hrun'
    intro us vs hst
    rw [htree, stores_addLocks] at hst
    exact hs us vs hst

theorem Reachable.logged {s : Session} (hps : 0 < cfg.pageSize) (h : Reachable cfg s) :
    Logged cfg s.cache s.inserted := by
  obtain ⟨now, hrun⟩ := h
  induction hrun with
  | refl =>
    intro us vs hst i hi
    rw [stores_single hst] at hi
    exact absurd hi (Nat.not_lt_zero _)
  | tail hrun hstep ih => exact hstep.logged (Reachable.accounting hps ⟨now, hrun⟩) ih

theorem extraKey_view {α : Type} (key : RadixKey) (isEagle : Bool) (value : List α) :
    (key.maybeToBigramView isEagle value).1.extraKey = key.extraKey := by
  unfold maybeToBigramView
  split <;> rfl

theorem extraKey_insertKey {p : InsertParams} : (insertKey cfg p).extraKey = p.key.extraKey := by
  rw [← extraKey_view p.key cfg.isEagle (p.value.getD []), insertKey, pageAligned]
  split
  · rfl
  · exact extraKey_getSlice _ _ _

/-- **The cache is a map from prompts to slots, one for each `extra_key`.** In every state reached by
calls of the public interface:

* the slots of a page-aligned prompt are unique;
* `match_prefix` raises nothing, returns the slots of the longest stored prefix of whole pages of the
  key, changes nothing that is stored, and every slot it returns was given to `insert` at that very
  position with a key that agrees up to there, under the same `extra_key`;
* `insert` raises nothing, returns the length of the longest stored prefix, and adds exactly the
  longer prefixes of its key: the slots that were there, followed by the given ones. -/
theorem longest_cached_prefix_semantics (hps : 0 < cfg.pageSize) {s : Session} (h : Reachable cfg s) :
    (∀ us vs vs', cfg.pageSize ∣ us.length → s.cache.tree.Stores NodeData.value us vs →
      s.cache.tree.Stores NodeData.value us vs' → vs = vs') ∧
    (∀ now key, ∃ c' r, s.cache.matchPrefix cfg now key = .ok (c', r) ∧
      IsLongest cfg.pageSize s.cache.tree (viewKey cfg key).units r.deviceIndices.length ∧
      s.cache.tree.Stores NodeData.value ((viewKey cfg key).units.take r.deviceIndices.length) r.deviceIndices ∧
      (∀ us vs, c'.tree.Stores NodeData.value us vs ↔ s.cache.tree.Stores NodeData.value us vs) ∧
      ∀ i < r.deviceIndices.length, ∃ p ∈ s.inserted, p.key.extraKey = key.extraKey ∧
        (insertKey cfg p).units.take (i + 1) = (viewKey cfg key).units.take (i + 1) ∧
        (insertValue cfg p)[i]? = r.deviceIndices[i]?) ∧
    (∀ now p, p.Fits cfg → ∃ c' L, s.cache.insert cfg now p = .ok (c', L) ∧
      IsLongest cfg.pageSize s.cache.tree (insertKey cfg p).units L ∧
      ∃ old, s.cache.tree.Stores NodeData.value ((insertKey cfg p).units.take L) old ∧
        ∀ us vs, c'.tree.Stores NodeData.value us vs ↔ s.cache.tree.Stores NodeData.value us vs ∨
          (us <+: (insertKey cfg p).units ∧ L < us.length ∧
            vs = (old ++ (insertValue cfg p).drop L).take us.length)) := by
  have hacc := h.accounting hps
  have hlog := h.logged hps
  refine ⟨fun us vs vs' hd h h' => h.functional hacc.wf hacc.fits h' hd, fun now key => ?_, fun now p hp => ?_⟩
  · obtain ⟨c', r, hrun, hlong, hstored, hsame⟩ := matchPrefix_stores now hacc key
    refine ⟨c', r, hrun, hlong, hstored, hsame, fun i hi => ?_⟩
    have hile : i + 1 ≤ (viewKey cfg key).len := by
      have := hlong.le
      rw [length_units] at this
      omega
    have hlen : ((viewKey cfg key).units.take r.deviceIndices.length).length =
        r.deviceIndices.length := by rw [length_take, min_eq_left hlong.le]
    obtain ⟨p, hp, hpre, hv⟩ := hlog _ _ hstored i (by rwa [hlen])
    rw [take_take, min_eq_left (by omega : i + 1 ≤ r.deviceIndices.length)] at hpre
    have hunits : (insertKey cfg p).units.take (i + 1) = (viewKey cfg key).units.take (i + 1) := by
      have := prefix_iff_eq_take.mp hpre
      rw [length_take, length_units, min_eq_left hile] at this
      exact this.symm
    have hple : i + 1 ≤ (insertKey cfg p).len := by
      have := hpre.length_le
      rwa [length_take, length_units, length_units, min_eq_left hile] at this
    have hextra := ((units_take_eq_iff (Nat.succ_pos i) hple hile).mp hunits).1
    rw [extraKey_insertKey, viewKey, extraKey_view] at hextra
    exact ⟨p, hp, hextra, hunits, hv⟩
  · obtain ⟨c', L, hrun, -, hins⟩ := insert_spec now hacc hp
    obtain ⟨hlong, old, hold, hiff⟩ := hins.stores hacc.wf hacc.fits
    exact ⟨c', L, hrun, hlong, old, hold, hiff⟩

/-- After two prompts under different keys, one lookup sees the slots of its own namespace. -/
theorem longest_cached_prefix_semantics_salted : ∃ s : Session, Reachable pairConfig s ∧
    (∃ c r, s.cache.matchPrefix pairConfig 3 ⟨[1, 2, 3, 4, 9], some "salt", false⟩ = .ok (c, r) ∧
      r.deviceIndices = [20, 21] ∧
      ∀ us vs, c.tree.Stores NodeData.value us vs ↔ s.cache.tree.Stores NodeData.value us vs) := by
  have h₁ := (Relation.ReflTransGen.refl (a := (⟨init 0, [], []⟩ : Session))).tail
    (Call.insert (by decide) (rfl : (init 0).insert pairConfig 1 firstPrompt = .ok (_, _)))
  have h₂ := h₁.tail (.insert (by decide) (rfl : RadixCache.insert pairConfig 2 _
    ⟨⟨[1, 2, 5, 6], some "salt", false⟩, some [20, 21, 22, 23], none, false⟩ = .ok (_, _)))
  obtain ⟨c, r, hrun, -, -, hsame, -⟩ := (longest_cached_prefix_semantics (by decide) ⟨0, h₂⟩).2.1 3
    ⟨[1, 2, 3, 4, 9], some "salt", false⟩
  refine ⟨_, ⟨0, h₂⟩, c, r, hrun, ?_, hsame⟩
  have hr := congrArg (fun e => e.toOption.map fun q : RadixCache × MatchResult => q.2.deviceIndices) hrun
  exact (Option.some.inj hr).symm

end RadixCache

end SGLang.MemCache
