/-
# SGLang.MemCache.RadixCacheAccounting — locks, sizes and the set of evictable leaves.

`Books` is what the counters of a `RadixCache` stand for: the two sizes are sums over the tree, and
`evictableLeaves` is the set of unlocked leaves. `Accounting` adds that `lock_ref` counts the
outstanding locks below a node. Every operation keeps them; the single rounds of `inc_lock_ref` and
`dec_lock_ref` keep `Books`, and the whole walk keeps `Accounting`, as long as they are called on nodes
of the tree. On a node that was reset away the rounds are made before the assertion fails, and the
accounts are wrong from then on (`accounts_wrong_after_reset`).
-/
import SGLang.MemCache.RadixCacheWalk

namespace SGLang.MemCache

open SGLang.Lib SGLang.Lib.PageTree RadixKey List NodeData

namespace RadixCache

/-! ## What the counters stand for -/

/-- What an unlocked node adds to `evictable_size_`. -/
def evictableLen (k : RadixKey) (d : NodeData) : ℤ := if d.lockRef = 0 then k.len else 0

/-- What a locked node adds to `protected_size_`. -/
def protectedLen (k : RadixKey) (d : NodeData) : ℤ := if 0 < d.lockRef then k.len else 0

/-- A non-root node without locks and without children. -/
def EvictableLeaf (t : Tree) (n : ℕ) : Prop :=
  ∃ nd, t.nodes n = some nd ∧ n ≠ t.root ∧ nd.data.lockRef = 0 ∧ t.Leaf n

/-- The counters of the cache agree with its tree. -/
structure Books (ps : ℕ) (c : RadixCache) : Prop where
  wf : WF ps c.tree
  fits : c.tree.Fits value
  root_lock : ∀ nd, c.tree.nodes c.tree.root = some nd → nd.data.lockRef = 1
  lock_nonneg : ∀ n nd, c.tree.nodes n = some nd → 0 ≤ nd.data.lockRef
  evictable_eq : c.evictableSize = c.tree.sum evictableLen
  protected_eq : c.protectedSize = c.tree.sum protectedLen
  leaves_iff : ∀ n, n ∈ c.evictableLeaves ↔ EvictableLeaf c.tree n

/-- The counters agree with the tree, and the lock counts with the outstanding locks. -/
structure Accounting (ps : ℕ) (c : RadixCache) (locks : List ℕ) : Prop extends Books ps c where
  lock_eq : ∀ n nd, c.tree.nodes n = some nd → n ≠ c.tree.root →
    nd.data.lockRef = c.tree.holds locks n
  locks_lt : ∀ n ∈ locks, n < c.tree.next

variable {ps n : ℕ} {c c' : RadixCache} {locks l : List ℕ} {t t' : Tree} {now : ℤ}
variable {nd pd : Node RadixKey ChildKey NodeData} {x numTokens tie : ℕ} {g : NodeData → NodeData}
  {cfg : Config}
  {s : RadixCache × ℤ} {freed : List (List ℕ)} {e : HeapEntry} {heap heap' : List HeapEntry}

/-- Lock counts are not negative: they count locks, and the root keeps its own. -/
theorem Accounting.of_locks (wf : WF ps c.tree) (fits : c.tree.Fits value)
    (hroot : c.tree.AtRoot fun _ d => d.lockRef = 1) (hev : c.evictableSize = c.tree.sum evictableLen)
    (hpr : c.protectedSize = c.tree.sum protectedLen)
    (hleaves : ∀ n, n ∈ c.evictableLeaves ↔ EvictableLeaf c.tree n)
    (hlock : ∀ n nd, c.tree.nodes n = some nd → n ≠ c.tree.root → nd.data.lockRef = c.tree.holds locks n)
    (hlt : ∀ n ∈ locks, n < c.tree.next) : Accounting ps c locks := by
  refine ⟨⟨wf, fits, hroot, fun n nd hn => ?_, hev, hpr, hleaves⟩, hlock, hlt⟩
  by_cases hne : n = c.tree.root
  · exact (hroot nd (hne ▸ hn)).symm ▸ Int.one_nonneg
  · exact hlock n nd hn hne ▸ Int.natCast_nonneg _

/-- A locked node has a locked parent. -/
theorem Accounting.parent_locked (h : Accounting ps c locks) (hn : c.tree.nodes n = some nd)
    (hne : n ≠ c.tree.root)
    (hlock : 0 < nd.data.lockRef) (hp : c.tree.nodes nd.parent = some pd) : 0 < pd.data.lockRef := by
  by_cases hroot : nd.parent = c.tree.root
  · rw [hroot] at hp
    rw [h.root_lock pd hp]
    exact Int.zero_lt_one
  · rw [h.lock_eq _ _ hn hne] at hlock
    rw [h.lock_eq _ _ hp hroot]
    have hle : c.tree.holds locks n ≤ c.tree.holds locks nd.parent :=
      h.wf.holds_parent_le hn hroot
    omega

/-! ## Leaf status -/

theorem mem_updateLeafStatus_ne (hx : x ≠ n) :
    x ∈ (c.updateLeafStatus n).evictableLeaves ↔ x ∈ c.evictableLeaves := by
  unfold updateLeafStatus
  split
  · rfl
  · split
    · simp [hx]
    · split <;> simp [hx]

/-- The status of the node itself comes out right, whatever it was. -/
theorem mem_updateLeafStatus_self (wf : WF ps c.tree) (hn : c.tree.nodes n = some nd)
    (hroot : n = c.tree.root → 0 < nd.data.lockRef) (hnonneg : 0 ≤ nd.data.lockRef) :
    n ∈ (c.updateLeafStatus n).evictableLeaves ↔ EvictableLeaf c.tree n := by
  have hleaf := wf.leaf_iff hn
  simp only [updateLeafStatus, object_live hn, base_nodeData]
  split
  · next hlock =>
    simp only [Finset.mem_erase, ne_eq, not_true_eq_false, false_and, false_iff]
    rintro ⟨nd', hnd', -, hz, -⟩
    rw [hn] at hnd'
    cases hnd'
    omega
  · next hlock =>
    split
    · next hempty =>
      simp only [Finset.mem_insert, true_or, true_iff]
      exact ⟨nd, hn, fun he => hlock (hroot he), by omega, hleaf.mpr hempty⟩
    · next hempty =>
      simp only [Finset.mem_erase, ne_eq, not_true_eq_false, false_and, false_iff]
      rintro ⟨-, -, -, -, hl⟩
      exact hempty (hleaf.mp hl)

/-! ## Quiet steps -/

theorem evictableLeaf_touch (hg : Inert g) : EvictableLeaf (t.modifyData n g) x ↔ EvictableLeaf t x := by
  constructor
  · rintro ⟨nd, hnd, hne, hlock, hleaf⟩
    obtain ⟨nd₀, h₀, rfl⟩ := nodes_modifyData_some hnd
    refine ⟨nd₀, h₀, hne, ?_, leaf_modifyData.mp hleaf⟩
    by_cases hx : x = n
    · simpa [hx, (hg.plain nd₀.data).2] using hlock
    · simpa [hx] using hlock
  · rintro ⟨nd, hnd, hne, hlock, hleaf⟩
    refine ⟨_, nodes_modifyData_of_some hnd, hne, ?_, leaf_modifyData.mpr hleaf⟩
    by_cases hx : x = n
    · simpa [hx, (hg.plain nd.data).2] using hlock
    · simpa [hx] using hlock

/-- Quiet payload updates keep the accounts. -/
theorem Accounting.touch (hg : Inert g) (h : Accounting ps { c with tree := t } locks) :
    Accounting ps { c with tree := t.modifyData n g } locks := by
  refine .of_locks h.wf.modifyData (fits_modifyData (fun d => (hg.plain d).1) h.fits)
    (AtRoot.modifyData h.root_lock fun _ _ d hd => (hg.plain d).2.trans hd) ?_ ?_ ?_ ?_ ?_
  · refine h.evictable_eq.trans (sum_modifyData_congr evictableLen fun k d => ?_).symm
    simp [evictableLen, (hg.plain d).2]
  · refine h.protected_eq.trans (sum_modifyData_congr protectedLen fun k d => ?_).symm
    simp [protectedLen, (hg.plain d).2]
  · intro x
    exact (h.leaves_iff x).trans (evictableLeaf_touch hg).symm
  · intro x xd hx hxr
    obtain ⟨xd₀, h₀, rfl⟩ := nodes_modifyData_some hx
    have := h.lock_eq x xd₀ h₀ hxr
    by_cases hxn : x = n <;> simpa [hxn, (hg.plain xd₀.data).2] using this
  · exact h.locks_lt

/-- A split keeps the accounts: both halves carry the locks of the node that was split. -/
theorem Accounting.split {m : ℕ} {xd : Node RadixKey ChildKey NodeData} {up down : NodeData → NodeData}
    (h : Accounting ps { c with tree := t } locks) (hx : t.nodes x = some xd) (hxr : x ≠ t.root) (hm₀ : 0 < m)
    (hm : m < (PagedKey.units xd.key).length) (hd : ps ∣ m) (hh : Halving ps m up down) :
    Accounting ps { c with tree := (t.splitAt ps x m up down).1 } locks := by
  obtain ⟨hupv, hdownv, hupl, hdownl⟩ := hh.plain xd.data
  have wf := h.wf
  have wf' : WF ps (t.splitAt ps x m up down).1 := wf.splitAt hx hxr hm₀ hm hd
  have hroot : (t.splitAt ps x m up down).1.root = t.root := splitAt_root
  have hlens : ((xd.key.take m).len : ℤ) + (xd.key.drop m).len = xd.key.len := by
    rw [len_take, len_drop]
    omega
  -- where the lock counts of the new heap come from
  have hlock : ∀ {y : ℕ} {yd : Node RadixKey ChildKey NodeData},
      (t.splitAt ps x m up down).1.nodes y = some yd →
      (y = t.next ∧ yd.data.lockRef = xd.data.lockRef) ∨
      (y ≠ t.next ∧ ∃ yd₀, t.nodes y = some yd₀ ∧ yd.data.lockRef = yd₀.data.lockRef) := by
    intro y yd hy
    rcases nodes_splitAt_cases wf hx hxr hy with ⟨rfl, rfl⟩ | ⟨rfl, rfl⟩ | ⟨hyw, -, yd₀, h₀, hcore⟩
    · exact .inl ⟨rfl, hupl⟩
    · exact .inr ⟨(wf.lt_next hx).ne, xd, hx, hdownl⟩
    · exact .inr ⟨hyw, yd₀, h₀, by rw [(core_eq hcore).2]⟩
  -- the halves share out the length, whatever the lock count makes of it
  have hsum {f : RadixKey → NodeData → ℤ}
      (hf : f (xd.key.take m) (up xd.data) + f (xd.key.drop m) (down xd.data) = f xd.key xd.data) :
      t.sum f = (t.splitAt ps x m up down).1.sum f := by
    have h : _ = _ + f (xd.key.take m) (up xd.data) + f (xd.key.drop m) (down xd.data) :=
      sum_splitAt f m up down wf hx hxr
    linarith
  refine .of_locks wf' (fits_splitAt wf hx hxr hupv hdownv h.fits)
    (AtRoot.split h.root_lock wf hx hxr (P := fun _ (d : NodeData) => d.lockRef = 1))
    (h.evictable_eq.trans (hsum ?_)) (h.protected_eq.trans (hsum ?_)) ?_ ?_ ?_
  · simp only [evictableLen, hupl, hdownl]
    split <;> omega
  · simp only [protectedLen, hupl, hdownl]
    split <;> omega
  · intro y
    refine (h.leaves_iff y).trans ?_
    constructor
    · rintro ⟨yd, hy, hyr, hz, hleaf⟩
      have hyw : y ≠ t.next := (wf.lt_next hy).ne
      have hleaf' := (leaf_splitAt up down wf hx hxr hyw (m := m)).mpr hleaf
      rcases eq_or_ne y x with rfl | hyx
      · rw [hx] at hy
        cases hy
        exact ⟨_, nodes_splitAt_lower wf hx hxr, by rwa [hroot], hdownl.trans hz, hleaf'⟩
      · obtain ⟨yd', hy', heq⟩ := core_some (core_splitAt wf hx hxr hyw hyx).symm hy
        exact ⟨yd', hy', by rwa [hroot], by rw [(core_eq heq).2]; exact hz, hleaf'⟩
    · rintro ⟨yd, hy, hyr, hz, hleaf⟩
      rcases hlock hy with ⟨rfl, -⟩ | ⟨hyw, yd₀, h₀, heq⟩
      · exact absurd hleaf (not_leaf_splitAt_upper up down wf hx hxr)
      · exact ⟨yd₀, h₀, by rwa [hroot] at hyr, heq ▸ hz, (leaf_splitAt up down wf hx hxr hyw).mp hleaf⟩
  · intro y yd hy hyr
    rw [hroot] at hyr
    rcases hlock hy with ⟨rfl, heq⟩ | ⟨hyw, yd₀, h₀, heq⟩
    · rw [heq, h.lock_eq x xd hx hxr, holds_splitAt_upper wf hx hxr wf' h.locks_lt]
    · rw [heq, h.lock_eq y yd₀ h₀ hyr, holds_splitAt wf hx hxr wf' h.locks_lt hyw]
  · intro y hy
    rw [splitAt_next hx]
    exact (h.locks_lt y hy).trans (Nat.lt_succ_self _)

/-- A walk keeps the accounts. -/
theorem Accounting.quiet (h : Accounting ps { c with tree := t } locks) (hq : QuietSteps ps t t') :
    Accounting ps { c with tree := t' } locks :=
  hq.invariant (P := fun u => Accounting ps { c with tree := u } locks) (fun _ _ _ hg h => h.touch hg)
    (fun _ _ _ _ _ _ hx hxr hm₀ hm hd hh h => h.split hx hxr hm₀ hm hd hh) h

/-! ## Insertion -/

section AddLeaf

variable {w : ℕ} {wd : Node RadixKey ChildKey NodeData} {key : RadixKey} {data : NodeData}

@[simp] theorem afterAddLeaf_tree : (c.afterAddLeaf ps w key data).tree = (c.tree.addLeaf ps w key data).1 := by
  simp [afterAddLeaf]

/-- Hanging an unlocked node keeps the accounts. -/
theorem Accounting.addLeaf (h : Accounting ps c locks) (hw : c.tree.nodes w = some wd)
    (hck : c.tree.child w (key.childKey ps) = none) (hpos : 0 < key.len) (hd : ps ∣ key.len)
    (hlen : data.value.length = key.len) (hlock : data.lockRef = 0) :
    Accounting ps (c.afterAddLeaf ps w key data) locks := by
  have wf := h.wf
  have hne : PagedKey.units key ≠ [] := by
    rw [ne_eq, ← length_eq_zero_iff, pagedKey_units, length_units]
    omega
  have wf' : WF ps (c.tree.addLeaf ps w key data).1 := wf.addLeaf hw hck hne (by simpa using hd)
  have hnew : (c.tree.addLeaf ps w key data).1.nodes _ = _ := nodes_addLeaf_new wf hw
  have hroot_lock : (c.tree.addLeaf ps w key data).1.AtRoot fun _ d => d.lockRef = 1 :=
    AtRoot.add h.root_lock wf hw
  have hroot : ∀ {y : ℕ} {yd : Node RadixKey ChildKey NodeData},
      (c.tree.addLeaf ps w key data).1.nodes y = some yd → y = c.tree.root → 0 < yd.data.lockRef := by
    rintro y yd hy rfl
    rw [hroot_lock yd hy]
    exact Int.zero_lt_one
  refine .of_locks (by simpa using wf') ?_ (by simpa using hroot_lock) ?_ ?_ ?_ ?_ ?_
  · simpa using fits_addLeaf wf hw h.fits (by simpa using hlen)
  · rw [afterAddLeaf_tree, sum_addLeaf evictableLen wf hw, ← h.evictable_eq]
    simp [afterAddLeaf, evictableLen, hlock]
  · rw [afterAddLeaf_tree, sum_addLeaf protectedLen wf hw, ← h.protected_eq]
    simp [afterAddLeaf, protectedLen, hlock]
  · intro y
    rw [afterAddLeaf_tree]
    have hnext : c.tree.next + 1 - 1 = c.tree.next := rfl
    simp only [afterAddLeaf, addLeaf_next, hnext]
    rcases eq_or_ne y c.tree.next with rfl | hyw
    · have := mem_updateLeafStatus_self (c := updateLeafStatus { c with
        tree := (c.tree.addLeaf ps w key data).1, evictableSize := c.evictableSize + key.len } w)
        (by simpa using wf') (by simpa using hnew) (fun he => hroot hnew (by simpa using he)) hlock.ge
      simpa using this
    · rw [mem_updateLeafStatus_ne hyw]
      rcases eq_or_ne y w with rfl | hyw'
      · have hpar : (c.tree.addLeaf ps y key data).1.nodes y = _ := nodes_addLeaf_parent wf hw
        exact mem_updateLeafStatus_self wf' hpar (fun he => hroot hpar he) (h.lock_nonneg _ wd hw)
      · rw [mem_updateLeafStatus_ne hyw', h.leaves_iff]
        simp [EvictableLeaf, addLeaf_root, leaf_addLeaf wf hw, nodes_addLeaf_other hyw hyw', hyw', ne_eq,
          not_false_eq_true, true_and]
  · intro y yd hy hyr
    rw [afterAddLeaf_tree] at hy hyr ⊢
    rcases nodes_addLeaf_cases wf hw hy with ⟨rfl, rfl⟩ | ⟨-, yd₀, h₀, hcore⟩
    · rw [hlock, holds_addLeaf_new wf hw wf' h.locks_lt, Nat.cast_zero]
    · rw [← (core_eq hcore).2, h.lock_eq y yd₀ h₀ hyr, holds_addLeaf wf hw wf' h.locks_lt]
  · intro y hy
    rw [afterAddLeaf_tree, addLeaf_next]
    exact (h.locks_lt y hy).trans (Nat.lt_succ_self _)

end AddLeaf

/-- What `insert` does to a tree: quiet steps down to the longest stored prefix, and a new unlocked
node with the rest of the key and of the slots, if anything is left. -/
structure Inserted (ps : ℕ) (t : Tree) (key : RadixKey) (value : List ℕ) (t' : Tree) (L : ℕ) : Prop where
  ex : ∃ t₁ w l rest, QuietSteps ps t t₁ ∧ t₁.Path w l ∧ t₁.labels l ++ rest.units = key.units ∧
    (t₁.labels l).length = L ∧ ps ∣ rest.len ∧ IsLongest ps t₁ key.units L ∧
    ((rest.len = 0 ∧ t' = t₁) ∨ ∃ data, 0 < rest.len ∧ data.value = value.drop L ∧
      data.lockRef = 0 ∧ t₁.child w (rest.childKey ps) = none ∧ t' = (t₁.addLeaf ps w rest data).1)

theorem insertHelper_spec (h : Accounting ps c locks) {key : RadixKey} {value : List ℕ}
    {priority : ℤ} {chunked : Bool} (hd : ps ∣ key.len) (hlen : value.length = key.len) :
    ∃ c' L, insertHelper .silent ps now c key value priority chunked = .ok (c', L) ∧
      Accounting ps c' locks ∧ Inserted ps c.tree key value c'.tree L := by
  obtain ⟨t₁, w, l, rest, hq, hw, happ, hdr, hnone, hrun⟩ :=
    insertHelper_walk .silent now priority chunked value h.wf hd
  obtain ⟨wf₁, -, -⟩ := hq.keeps h.wf h.fits
  have hlongest : IsLongest ps t₁ key.units (t₁.labels l).length := by
    rw [← happ]
    refine IsLongest.of_child_none wf₁ hw fun hne => hnone ?_
    rw [← length_units]
    exact length_pos_of_ne_nil hne
  have hsum : (t₁.labels l).length + rest.len = key.len := by
    rw [← length_units, ← length_units, ← happ, length_append]
  by_cases hrest : 0 < rest.len
  · obtain ⟨wd, hwd⟩ := wf₁.node_of_path hw
    rw [if_pos hrest] at hrun
    have hdata : (newData now priority chunked (value.drop (t₁.labels l).length)).value = _ ∧ _ :=
      incHitCount_keeps _
    refine ⟨_, _, hrun, ?_, ⟨t₁, w, l, rest, hq, hw, happ, rfl, hdr, hlongest,
      .inr ⟨_, hrest, hdata.1, hdata.2, hnone hrest, afterAddLeaf_tree⟩⟩⟩
    refine Accounting.addLeaf (c := { c with tree := t₁ }) (h.quiet hq) hwd (hnone hrest) hrest hdr ?_ hdata.2
    rw [ofLeaf_nodeData, hdata.1, length_drop]
    omega
  · rw [if_neg hrest] at hrun
    exact ⟨_, _, hrun, h.quiet hq, ⟨t₁, w, l, rest, hq, hw, happ, rfl, hdr, hlongest, .inl ⟨by omega, rfl⟩⟩⟩

/-- What a lookup finds: after quiet steps, the node of the longest stored prefix and its slots. -/
structure Matched (ps : ℕ) (t : Tree) (key : RadixKey) (t' : Tree) (r : MatchResult) : Prop where
  ex : ∃ l, QuietSteps ps t t' ∧ t'.Path r.lastNode l ∧
    r.deviceIndices = t'.along NodeData.value l ∧ t'.labels l <+: key.units ∧
    IsLongest ps t' key.units (t'.labels l).length

theorem matchPrefix_spec (now : ℤ) (h : Accounting cfg.pageSize c locks) (key : RadixKey) :
    ∃ c' r, c.matchPrefix cfg now key = .ok (c', r) ∧ Accounting cfg.pageSize c' locks ∧
      Matched cfg.pageSize c.tree (lookupKey cfg key) c'.tree r ∧
      c'.evictableLeaves = c.evictableLeaves := by
  obtain ⟨t', r, l, hrun, hq, hw, hvs, hpre, hlong⟩ := matchPrefix_walk now h.wf h.fits key
  exact ⟨_, r, hrun, h.quiet hq, ⟨l, hq, hw, hvs, hpre, hlong⟩, rfl⟩

/-! ## Locks -/

/-- One round of a lock walk: the lock count of a node changes, the node moves between the two sizes,
and its leaf status is recomputed. -/
theorem Books.relock {δ ev pr : ℤ} (h : Books ps c) (hn : c.tree.nodes n = some nd)
    (hne : n ≠ c.tree.root) (hpos : 0 ≤ nd.data.lockRef + δ)
    (hev : ev = c.evictableSize - evictableLen nd.key nd.data + evictableLen nd.key (nd.data.addLock δ))
    (hpr : pr = c.protectedSize - protectedLen nd.key nd.data + protectedLen nd.key (nd.data.addLock δ)) :
    Books ps (updateLeafStatus { c with
      tree := c.tree.modifyData n (addLock δ)
      evictableSize := ev
      protectedSize := pr } n) := by
  have wf := h.wf
  have hself := nodes_modifyData_self (g := addLock δ) hn
  have hroot : (c.tree.modifyData n (addLock δ)).AtRoot fun _ d => d.lockRef = 1 :=
    AtRoot.modifyData h.root_lock fun he => absurd he hne
  have hnonneg : ∀ x xd, (c.tree.modifyData n (addLock δ)).nodes x = some xd → 0 ≤ xd.data.lockRef := by
    intro x xd hx
    rcases eq_or_ne x n with rfl | hxn
    · rw [hself] at hx
      cases hx
      exact hpos
    · rw [nodes_modifyData_ne hxn] at hx
      exact h.lock_nonneg x xd hx
  refine ⟨by simpa using wf.modifyData, ?_, by simpa [AtRoot] using hroot, by simpa using hnonneg, ?_, ?_, ?_⟩
  · simpa using fits_modifyData (f := value) (g := addLock δ) (fun _ => rfl) h.fits
  · have := sum_modifyData evictableLen (g := addLock δ) wf hn hne
    have := h.evictable_eq
    simp only [updateLeafStatus_tree, updateLeafStatus_evictableSize]
    omega
  · have := sum_modifyData protectedLen (g := addLock δ) wf hn hne
    have := h.protected_eq
    simp only [updateLeafStatus_tree, updateLeafStatus_protectedSize]
    omega
  · intro x
    simp only [updateLeafStatus_tree]
    rcases eq_or_ne x n with rfl | hxn
    · exact mem_updateLeafStatus_self wf.modifyData hself (fun he => absurd he hne) hpos
    · rw [mem_updateLeafStatus_ne hxn, h.leaves_iff]
      simp only [EvictableLeaf, nodes_modifyData_ne hxn, modifyData_root, leaf_modifyData]

theorem incStep_books (h : Books ps s.1) (hn : s.1.tree.nodes n = some nd) (hne : n ≠ s.1.tree.root) :
    Books ps (incStep s n).1 ∧ (incStep s n).1.tree = s.1.tree.modifyData n (addLock 1) := by
  have hnonneg := h.lock_nonneg n nd hn
  simp only [incStep, object_live hn, shiftLock_live hn, base_nodeData, onBase_nodeData,
    updateLeafStatus_tree, and_true]
  refine h.relock hn hne (by omega) ?_ ?_
  · rw [evictableLen, evictableLen, if_neg (show ¬ (nd.data.addLock 1).lockRef = 0 by
      simp only [addLock]; omega), add_zero]
  · rw [protectedLen, protectedLen, if_pos (show 0 < (nd.data.addLock 1).lockRef by
      simp only [addLock]; omega)]
    split <;> split <;> omega

theorem decStep_books (h : Books ps s.1) (hn : s.1.tree.nodes n = some nd) (hne : n ≠ s.1.tree.root)
    (hlock : 0 ≤ nd.data.lockRef + -1) : Books ps (decStep s n).1 ∧
      (decStep s n).1.tree = s.1.tree.modifyData n (addLock (-1)) := by
  simp only [decStep, object_live hn, shiftLock_live hn, base_nodeData, onBase_nodeData,
    updateLeafStatus_tree, and_true]
  have hpos : 0 < nd.data.lockRef := by omega
  have hev : (nd.data.addLock (-1)).lockRef = 0 ↔ nd.data.lockRef = 1 := by
    simp only [addLock]
    omega
  have hpr : 0 < (nd.data.addLock (-1)).lockRef ↔ ¬ nd.data.lockRef = 1 := by
    simp only [addLock]
    omega
  refine h.relock hn hne hlock ?_ ?_
  · rw [evictableLen, evictableLen, if_neg hpos.ne', sub_zero]
    simp only [hev]
  · rw [protectedLen, protectedLen, if_pos hpos]
    split <;> simp_all

section Walk

variable {step : RadixCache × ℤ → ℕ → RadixCache × ℤ} {δ : ℤ} {locks' : List ℕ}
  (hstep : ∀ {s n nd}, Books ps s.1 → s.1.tree.nodes n = some nd → n ≠ s.1.tree.root →
    0 ≤ nd.data.lockRef + δ →
    Books ps (step s n).1 ∧ (step s n).1.tree = s.1.tree.modifyData n (addLock δ))

include hstep

/-- The rounds of a lock walk: induction on the nodes visited. -/
theorem Books.walk (h : Books ps s.1) (hl : l.Nodup)
    (halive : ∀ x ∈ l, x ≠ s.1.tree.root ∧ ∃ xd, s.1.tree.nodes x = some xd ∧ 0 ≤ xd.data.lockRef + δ) :
    Books ps (l.foldl step s).1 ∧ (l.foldl step s).1.tree = s.1.tree.modifyAll l (addLock δ) := by
  induction l generalizing s with
  | nil => exact ⟨h, rfl⟩
  | cons a l ih =>
    rw [nodup_cons] at hl
    obtain ⟨har, ad, had, hpos⟩ := halive a (by simp)
    obtain ⟨h', htree⟩ := hstep h had har hpos
    rw [foldl_cons, modifyAll_cons, ← htree]
    refine ih h' hl.2 fun x hx => ?_
    obtain ⟨hxr, xd, hxd, hx₀⟩ := halive x (by simp [hx])
    have hxa : x ≠ a := fun he => hl.1 (he ▸ hx)
    rw [htree]
    exact ⟨hxr, xd, by rw [nodes_modifyData_ne hxa]; exact hxd, hx₀⟩

/-- The walk from a node to the root: its nodes are the ones that a lock on the node protects. -/
theorem Accounting.walk (h : Accounting ps c locks) (hl : c.tree.Path n l)
    (hholds : ∀ x, (c.tree.holds locks' x : ℤ) = c.tree.holds locks x + if c.tree.protects n x then δ else 0)
    (hlt : ∀ m ∈ locks', m < c.tree.next) :
    Accounting ps (l.reverse.foldl step (c, 0)).1 locks' ∧
      (l.reverse.foldl step (c, 0)).1.tree = c.tree.modifyAll l.reverse (addLock δ) := by
  have hnodup : l.reverse.Nodup := nodup_reverse.mpr hl.nodup
  have hprot : ∀ x, c.tree.protects n x = true ↔ x ∈ l := fun x => h.wf.protects_path hl
  simp only [hprot] at hholds
  obtain ⟨hbooks, htree⟩ := Books.walk hstep (s := (c, 0)) h.toBooks hnodup fun x hx => by
    have hx := mem_reverse.mp hx
    obtain ⟨hxr, xd, hxd⟩ := hl.node_of_mem hx
    refine ⟨hxr, xd, hxd, ?_⟩
    have := hholds x
    rw [if_pos hx] at this
    rw [h.lock_eq x xd hxd hxr, ← this]
    exact Int.natCast_nonneg _
  refine ⟨⟨hbooks, ?_, by rwa [htree, modifyAll_next]⟩, htree⟩
  intro x xd hx hxr
  rw [htree] at hx hxr ⊢
  rw [nodes_modifyAll hnodup, Option.map_eq_some_iff] at hx
  obtain ⟨xd₀, h₀, rfl⟩ := hx
  rw [modifyAll_root] at hxr
  rw [holds_congr (t := c.tree) (x := x) fun m _ => by simp [protects], hholds]
  simp only [mem_reverse]
  split <;> simp [addLock, h.lock_eq x xd₀ h₀ hxr]

end Walk

/-- `inc_lock_ref` on a node of the tree adds one lock to every node up to the root. -/
theorem incLockRef_spec (h : Accounting ps c locks) (hl : c.tree.Path n l) :
    ∃ c' δ, c.incLockRef n = (c', .ok δ) ∧ Accounting ps c' (n :: locks) ∧
      c'.tree = c.tree.modifyAll l.reverse (addLock 1) := by
  refine ⟨_, _, by rw [incLockRef, lockWalk_of_upAux (h.wf.up_eq hl)]; rfl,
    h.walk (fun hb hn hne _ => incStep_books hb hn hne) hl (fun x => ?_) ?_⟩
  · rw [holds_cons]
    push_cast
    rfl
  · obtain ⟨nd, hnd⟩ := h.wf.node_of_path hl
    simpa using ⟨h.wf.lt_next hnd, h.locks_lt⟩

/-- `dec_lock_ref` on an outstanding lock whose node is still in the tree gives it back. -/
theorem decLockRef_spec (h : Accounting ps c locks) (hl : c.tree.Path n l) (hn : n ∈ locks) :
    ∃ c' δ, c.decLockRef n = (c', .ok δ) ∧ Accounting ps c' (locks.erase n) ∧
      c'.tree = c.tree.modifyAll l.reverse (addLock (-1)) := by
  refine ⟨_, _, by rw [decLockRef, lockWalk_of_upAux (h.wf.up_eq hl)]; rfl,
    h.walk decStep_books hl (fun x => ?_) ?_⟩
  · rw [← holds_erase (t := c.tree) (x := x) hn]
    split <;> simp
  · exact fun m hm => h.locks_lt m (mem_of_mem_erase hm)

/-! ## Eviction -/

/-- `_delete_leaf` on an evictable leaf unlinks it, and changes the leaf status of its parent only. -/
theorem deleteLeaf_spec (h : Accounting ps c locks) (hleaf : n ∈ c.evictableLeaves)
    (hn : c.tree.nodes n = some nd) :
    ∃ c', c.deleteLeaf ps n = .ok c' ∧ Accounting ps c' locks ∧ c'.tree = c.tree.removeLeaf ps n ∧
      ∀ x, x ≠ n → x ≠ nd.parent → (x ∈ c'.evictableLeaves ↔ x ∈ c.evictableLeaves) := by
  have wf := h.wf
  obtain ⟨nd', hnd', hne, hlock, hchildless⟩ := (h.leaves_iff n).mp hleaf
  obtain rfl : nd = nd' := Option.some.inj (hn.symm.trans hnd')
  obtain ⟨pd, hpd⟩ := wf.parent_node hn hne
  have hchild : c.tree.child nd.parent (nd.key.childKey ps) = some n :=
    (wf.child_eq_some hpd).mpr ⟨nd, hn, hne, rfl, rfl⟩
  have wf' := wf.removeLeaf hn hne hchildless
  have hfree : c.tree.holds locks n = 0 := by
    have := h.lock_eq n nd hn hne
    omega
  have hpar := nodes_removeLeaf_parent wf hn hne hpd
  have hroot_lock : (c.tree.removeLeaf ps n).AtRoot fun _ d => d.lockRef = 1 :=
    AtRoot.remove h.root_lock wf hn hne
  have hrun : c.deleteLeaf ps n = .ok (updateLeafStatus { c with
      tree := c.tree.removeLeaf ps n
      evictableSize := c.evictableSize - nd.key.len
      evictableLeaves := c.evictableLeaves.erase n
      detached := Function.update c.detached n (some nd) } nd.parent) := by
    have hlookup : (c.object nd.parent).bind (·.children.lookup (nd.key.childKey ps)) = some n := by
      rw [object_live hpd, ← hchild, child, hpd]
    simp [deleteLeaf, not_isOldRoot hn, hlookup, unlink, hn, bind, Except.bind]
  refine ⟨_, hrun, .of_locks (by simpa using wf') ?_ (by simpa using hroot_lock) ?_ ?_ ?_ ?_ ?_, by simp, ?_⟩
  · simpa using fits_removeLeaf wf hn hne h.fits
  · have := sum_removeLeaf evictableLen wf hn hne
    have := h.evictable_eq
    simp only [evictableLen, hlock, ↓reduceIte] at *
    simp only [updateLeafStatus_tree, updateLeafStatus_evictableSize]
    omega
  · have := sum_removeLeaf protectedLen wf hn hne
    have := h.protected_eq
    simp only [protectedLen, hlock, lt_irrefl, ↓reduceIte] at *
    simp only [updateLeafStatus_tree, updateLeafStatus_protectedSize]
    omega
  · intro y
    simp only [updateLeafStatus_tree]
    rcases eq_or_ne y nd.parent with rfl | hyp
    · refine mem_updateLeafStatus_self wf' hpar (fun he => ?_) (h.lock_nonneg _ pd hpd)
      rw [hroot_lock _ (he ▸ hpar)]
      exact Int.zero_lt_one
    · rw [mem_updateLeafStatus_ne hyp]
      rcases eq_or_ne y n with rfl | hyn
      · simp [EvictableLeaf, nodes_removeLeaf_self hn]
      · simp only [Finset.mem_erase, ne_eq, hyn, not_false_eq_true, true_and, h.leaves_iff,
          EvictableLeaf, nodes_removeLeaf_other hn hyn hyp, removeLeaf_root,
          leaf_removeLeaf wf hn hne hyp]
  · intro y yd hy hyr
    simp only [updateLeafStatus_tree, removeLeaf_root] at hy hyr ⊢
    obtain ⟨-, yd₀, h₀, hcore⟩ := nodes_removeLeaf_cases wf hn hne hy
    rw [← (core_eq hcore).2, h.lock_eq y yd₀ h₀ hyr, holds_removeLeaf wf hn hne wf' hchildless hfree]
  · simpa using h.locks_lt
  · intro x hxn hxp
    rw [mem_updateLeafStatus_ne hxp]
    simp [hxn]

/-- Caches reached by deleting evictable leaves one by one, with the values they held. -/
inductive Evicted (ps : ℕ) : RadixCache → RadixCache → List (List ℕ) → Prop
  | refl (c : RadixCache) : Evicted ps c c []
  | step {c c' c'' : RadixCache} {n : ℕ} {nd : Node RadixKey ChildKey NodeData}
      {freed : List (List ℕ)} :
      Evicted ps c c' freed → n ∈ c'.evictableLeaves → c'.tree.nodes n = some nd →
      c'.deleteLeaf ps n = .ok c'' → Evicted ps c c'' (freed ++ [nd.data.value])

theorem Evicted.accounting (h : Evicted ps c c' freed) (hc : Accounting ps c locks) :
    Accounting ps c' locks := by
  induction h with
  | refl => exact hc
  | step _ hleaf hn hdel ih =>
    obtain ⟨c'', hrun, hacc, -⟩ := deleteLeaf_spec ih hleaf hn
    rw [hdel] at hrun
    cases hrun
    exact hacc

/-- **The rule for evictions.** What the removal of an unlocked leaf preserves, an eviction preserves. -/
theorem Evicted.rule {P : RadixCache → List (List ℕ) → Prop} (h : Evicted ps c c' freed)
    (hc : Accounting ps c locks) (hrefl : P c []) (hstep : ∀ c₁ c₂ n nd freed, Accounting ps c₁ locks →
      Accounting ps c₂ locks → c₁.tree.nodes n = some nd → n ≠ c₁.tree.root → nd.data.lockRef = 0 →
      c₁.tree.Leaf n → c₂.tree = c₁.tree.removeLeaf ps n → P c₁ freed → P c₂ (freed ++ [nd.data.value])) :
    P c' freed := by
  induction h with
  | refl => exact hrefl
  | step hev hleaf hn hdel ih =>
    have hacc := hev.accounting hc
    obtain ⟨c'', hrun, hacc', htree, -⟩ := deleteLeaf_spec hacc hleaf hn
    rw [hdel] at hrun
    cases hrun
    obtain ⟨nd', hn', hne, hfree, hchildless⟩ := (hacc.leaves_iff _).mp hleaf
    rw [hn] at hn'
    cases hn'
    exact hstep _ _ _ _ _ hacc hacc' hn hne hfree hchildless htree ih

/-- Caches reached by `evict(numTokens)`: while fewer tokens are freed than asked for, an evictable leaf
goes whose priority is least among all that are evictable at that moment. -/
inductive EvictedInOrder (cfg : Config) (numTokens : ℕ) :
    RadixCache → RadixCache → List (List ℕ) → Prop
  | refl (c : RadixCache) : EvictedInOrder cfg numTokens c c []
  | step {c c' c'' : RadixCache} {n : ℕ} {nd : Node RadixKey ChildKey NodeData}
      {freed : List (List ℕ)} :
      EvictedInOrder cfg numTokens c c' freed → freed.flatten.length < numTokens →
      EvictableLeaf c'.tree n → c'.tree.nodes n = some nd →
      (∀ m md, EvictableLeaf c'.tree m → c'.tree.nodes m = some md →
        cfg.evictionPolicy.getPriority nd.data ≤ cfg.evictionPolicy.getPriority md.data) →
      c'.deleteLeaf cfg.pageSize n = .ok c'' →
      EvictedInOrder cfg numTokens c c'' (freed ++ [nd.data.value])

theorem EvictedInOrder.evicted (h : EvictedInOrder cfg numTokens c c' freed)
    (hc : Accounting cfg.pageSize c locks) : Evicted cfg.pageSize c c' freed := by
  induction h with
  | refl => exact .refl _
  | step _ _ hleaf hn _ hdel ih =>
    exact .step ih (((ih.accounting hc).leaves_iff _).mpr hleaf) hn hdel

theorem heappop_spec (h : heappop tie heap = some (e, heap')) :
    e ∈ heap ∧ heap' = heap.erase e ∧ ∀ e' ∈ heap, e.rank ≤ e'.rank := by
  simp only [heappop] at h
  split at h
  · cases h
  · next e₁ he =>
    cases h
    obtain ⟨hmem, hmin⟩ := mem_filter.mp (mem_of_getElem? he)
    exact ⟨hmem, rfl, by simpa using hmin⟩

/-- The entries of the heap carry the priorities their nodes have now. -/
def Ranked (cfg : Config) (t : Tree) (heap : List HeapEntry) : Prop :=
  ∀ e ∈ heap, ∀ nd, t.nodes e.node = some nd → e = heapEntry cfg nd.data e.node

/-- The heap of an eviction: the evictable leaves, each once, with the priorities they have now. -/
structure HeapOf (cfg : Config) (c : RadixCache) (heap : List HeapEntry) : Prop where
  ranked : Ranked cfg c.tree heap
  nodup : (heap.map HeapEntry.node).Nodup
  mem_iff : ∀ n, n ∈ heap.map HeapEntry.node ↔ n ∈ c.evictableLeaves

theorem HeapOf.leaf (hheap : HeapOf cfg c heap) (he : e ∈ heap) : e.node ∈ c.evictableLeaves :=
  (hheap.mem_iff _).mp (mem_map_of_mem he)

/-- The heap after a round: the entry popped is gone, and the parent joins it if it became an evictable leaf. -/
theorem HeapOf.step (hheap : HeapOf cfg c heap) (h : Accounting ps c locks) (h' : Accounting ps c' locks)
    (he : e ∈ heap) (hn : c.tree.nodes e.node = some nd) (htree : c'.tree = c.tree.removeLeaf ps e.node)
    (hp : c'.tree.nodes nd.parent = some pd)
    (hkeep : ∀ x, x ≠ e.node → x ≠ nd.parent → (x ∈ c'.evictableLeaves ↔ x ∈ c.evictableLeaves)) :
    HeapOf cfg c' (if pd.children.entries = [] ∧ pd.data.lockRef = 0 then
      heap.erase e ++ [heapEntry cfg pd.data nd.parent] else heap.erase e) := by
  obtain ⟨-, -, hne, -, -⟩ := (h.leaves_iff _).mp (hheap.leaf he)
  have hgone : c'.tree.nodes e.node = none := by rw [htree, nodes_removeLeaf_self hn]
  have hperm := (perm_cons_erase he).map HeapEntry.node
  obtain ⟨hout, hnodup⟩ := nodup_cons.mp (hperm.nodup_iff.mp hheap.nodup)
  -- the parent has a child, so it was in no entry
  have hparent : nd.parent ∉ (heap.erase e).map HeapEntry.node := by
    intro hmem
    obtain ⟨-, -, -, -, hleaf⟩ := (h.leaves_iff _).mp ((hheap.mem_iff _).mp (hperm.mem_iff.mpr (.tail _ hmem)))
    exact hleaf e.node nd hn hne rfl
  have hranked : Ranked cfg c'.tree (heap.erase e) := by
    intro e' he' xd hxd
    rw [htree] at hxd
    obtain ⟨-, xd₀, h₀, hcore⟩ := nodes_removeLeaf_cases h.wf hn hne hxd
    rw [← (core_eq hcore).2]
    exact hheap.ranked e' (mem_of_mem_erase he') xd₀ h₀
  have hleaves : ∀ x, x ∈ c'.evictableLeaves ↔ x ∈ (heap.erase e).map HeapEntry.node ∨
      x = nd.parent ∧ pd.children.entries = [] ∧ pd.data.lockRef = 0 := by
    intro x
    rcases eq_or_ne x nd.parent with rfl | hxp
    · rw [h'.leaves_iff, or_iff_right hparent, ← h'.wf.leaf_iff hp]
      refine ⟨fun ⟨_, hp', _, hfree, hleaf⟩ => ⟨rfl, hleaf, ?_⟩, fun ⟨_, hleaf, hfree⟩ =>
        ⟨pd, hp, ?_, hfree, hleaf⟩⟩
      · rwa [Option.some.inj (hp.symm.trans hp')]
      · intro hroot
        have := h'.root_lock pd (hroot ▸ hp)
        omega
    · rw [or_iff_left fun hx => hxp hx.1]
      rcases eq_or_ne x e.node with rfl | hxe
      · refine iff_of_false (fun hx => ?_) hout
        obtain ⟨xd, hxd, -⟩ := (h'.leaves_iff _).mp hx
        cases hgone.symm.trans hxd
      · rw [hkeep x hxe hxp, ← hheap.mem_iff, hperm.mem_iff, map_cons, mem_cons, or_iff_right hxe]
  split
  · next hpush =>
    refine ⟨?_, ?_, fun x => ?_⟩
    · intro e' he' xd hxd
      rcases mem_append.mp he' with he' | he'
      · exact hranked e' he' xd hxd
      · obtain rfl := mem_singleton.mp he'
        obtain rfl : pd = xd := Option.some.inj (hp.symm.trans hxd)
        rfl
    · rw [map_append, map_singleton, ← concat_eq_append]
      exact hnodup.concat hparent
    · simp [hleaves, hpush, heapEntry]
  · next hpush => exact ⟨hranked, hnodup, fun x => by simp [hleaves, hpush]⟩

/-- `heappop` finds an entry unless there is none. -/
theorem heappop_none (h : heappop tie heap = none) : heap = [] := by
  by_contra hne
  obtain ⟨m, hm, hle⟩ := heap.toFinset.exists_min_image HeapEntry.rank (toFinset_nonempty_iff heap |>.mpr hne)
  have hleast : m ∈ heap.filter fun e => heap.all fun e' => e.rank ≤ e'.rank := by
    simp only [mem_filter, all_eq_true, decide_eq_true_eq]
    exact ⟨mem_toFinset.mp hm, fun e' he' => hle e' (mem_toFinset.mpr he')⟩
  simp only [heappop] at h
  split at h
  · next hnone =>
    rw [getElem?_eq_none_iff] at hnone
    exact absurd hnone (not_le.mpr (Nat.mod_lt _ (length_pos_of_mem hleast)))
  · cases h

/-- **The eviction loop.** It deletes evictable leaves in the order of their priorities, and never fails:
every entry of the heap stays an evictable leaf until it is popped. It stops short of what is asked for
only if no leaf is evictable any more. -/
theorem evictLoop_spec (ties : ℕ → ℕ) {fuel numEvicted : ℕ} {c₀ : RadixCache}
    (hacc : Accounting cfg.pageSize c locks)
    (hev : EvictedInOrder cfg numTokens c₀ c freed) (hlen : freed.flatten.length = numEvicted)
    (hheap : HeapOf cfg c heap) (hpos : 0 < fuel) (hfuel : numTokens < numEvicted + fuel) :
    ∃ c' freed', evictLoop .silent cfg numTokens ties fuel c heap numEvicted freed =
        .ok (c', freed', freed'.flatten.length) ∧ EvictedInOrder cfg numTokens c₀ c' freed' ∧
      (numTokens ≤ freed'.flatten.length ∨ c'.evictableLeaves = ∅) := by
  induction fuel generalizing c heap numEvicted freed with
  | zero => exact absurd hpos (lt_irrefl _)
  | succ fuel ih =>
    simp only [evictLoop]
    split
    · next hlt =>
      split
      · next hpop =>
        refine ⟨c, freed, by rw [hlen], hev, .inr (Finset.eq_empty_of_forall_notMem fun n hn => ?_)⟩
        have := (hheap.mem_iff n).mpr hn
        simp [heappop_none hpop] at this
      · next e heap' hpop =>
        obtain ⟨he, rfl, hleast⟩ := heappop_spec hpop
        obtain ⟨nd, hn, hne, -, -⟩ := (hacc.leaves_iff _).mp (hheap.leaf he)
        obtain ⟨c', hdel, hacc', htree, hkeep⟩ := deleteLeaf_spec hacc (hheap.leaf he) hn
        obtain ⟨pd₀, hp₀⟩ := hacc.wf.parent_node hn hne
        have hp := nodes_removeLeaf_parent hacc.wf hn hne hp₀
        rw [← htree] at hp
        have hvalue : 0 < nd.data.value.length := by
          rw [hacc.fits _ nd hn hne]
          exact length_pos_of_ne_nil (hacc.wf.key_ne hn hne)
        have hleast : ∀ m md, EvictableLeaf c.tree m → c.tree.nodes m = some md →
            cfg.evictionPolicy.getPriority nd.data ≤ cfg.evictionPolicy.getPriority md.data := by
          intro m md hm hmd
          obtain ⟨e', he', rfl⟩ := mem_map.mp ((hheap.mem_iff m).mpr ((hacc.leaves_iff m).mpr hm))
          have hle := hleast _ he'
          rw [hheap.ranked e he nd hn, hheap.ranked e' he' md hmd] at hle
          exact Prod.Lex.monotone_fst _ _ hle
        simp only [getObject_live hn, hdel, getObject_live hp, base_nodeData, bind, Except.bind]
        exact ih hacc' (.step hev (hlen ▸ hlt) ((hacc.leaves_iff _).mp (hheap.leaf he)) hn hleast hdel)
          (by simp [hlen]) (hheap.step hacc hacc' he hn htree hp hkeep) (by omega) (by omega)
    · next hge => exact ⟨c, freed, by rw [hlen], hev, .inl (by omega)⟩

theorem Accounting.heapOf (h : Accounting ps c locks) : HeapOf cfg c (c.evictionHeap cfg) := by
  have hmap : (c.evictionHeap cfg).map HeapEntry.node = c.evictableLeaves.sort (· ≤ ·) := by
    rw [evictionHeap, map_filterMap]
    refine (filterMap_congr (g := some) fun n hn => ?_).trans filterMap_some
    obtain ⟨nd, hnd, -⟩ := (h.leaves_iff n).mp (by simpa using hn)
    simp [object_live hnd, heapEntry]
  refine ⟨fun e he nd hnd => ?_, hmap ▸ c.evictableLeaves.sort_nodup _, by simp [hmap]⟩
  simp only [evictionHeap, mem_filterMap, Option.map_eq_some_iff] at he
  obtain ⟨n, -, nd', hnd', rfl⟩ := he
  obtain rfl : nd' = nd := Option.some.inj (hnd'.symm.trans (object_live hnd))
  rfl

theorem evict_spec {ties : ℕ → ℕ} (h : Accounting cfg.pageSize c locks) :
    ∃ c' freed, c.evict cfg ties numTokens = .ok (c', freed, freed.flatten.length) ∧
      EvictedInOrder cfg numTokens c c' freed ∧ Accounting cfg.pageSize c' locks ∧
      (numTokens ≤ freed.flatten.length ∨ c'.evictableLeaves = ∅) := by
  obtain ⟨c', freed, hrun, hev, hdone⟩ := evictLoop_spec ties h (.refl c) rfl h.heapOf (Nat.succ_pos numTokens)
    (show numTokens < ([] : List (List ℕ)).flatten.length + (numTokens + 1) by simp)
  exact ⟨c', freed, hrun, hev, (hev.evicted h).accounting h, hdone⟩

/-- Where no leaf is evictable, nothing is: below every unlocked node there is an unlocked leaf. -/
theorem Accounting.evictableSize_eq_zero (h : Accounting ps c locks) (hleaves : c.evictableLeaves = ∅) :
    c.evictableSize = 0 := by
  have hlocked : ∀ n nd, c.tree.nodes n = some nd → n ≠ c.tree.root → nd.data.lockRef ≠ 0 := by
    intro n nd hn hne hfree
    obtain ⟨l, hl⟩ := h.wf.path hn
    -- a child of an unlocked node is unlocked
    have hdown : ∀ x xd, c.tree.nodes x = some xd → x ≠ c.tree.root →
        (∃ pd, c.tree.nodes xd.parent = some pd ∧ xd.parent ≠ c.tree.root ∧ pd.data.lockRef = 0) →
        ∃ xd, c.tree.nodes x = some xd ∧ x ≠ c.tree.root ∧ xd.data.lockRef = 0 := by
      rintro x xd hx hxr ⟨pd, hp, -, hpfree⟩
      refine ⟨xd, hx, hxr, ?_⟩
      by_contra hlock
      have hpos := h.parent_locked hx hxr (lt_of_le_of_ne (h.lock_nonneg x xd hx) (Ne.symm hlock)) hp
      omega
    obtain ⟨m, ⟨md, hmd, hmr, hmfree⟩, hleaf⟩ := h.wf.exists_leaf (P := fun x => ∃ xd,
      c.tree.nodes x = some xd ∧ x ≠ c.tree.root ∧ xd.data.lockRef = 0) hdown hl ⟨nd, hn, hne, hfree⟩
    have hmem := (h.leaves_iff m).mpr ⟨md, hmd, hmr, hmfree, hleaf⟩
    rw [hleaves] at hmem
    exact absurd hmem (Finset.notMem_empty m)
  rw [h.evictable_eq]
  exact sum_zero evictableLen fun n nd hn hne => if_neg (hlocked n nd hn hne)

/-! ## Runs -/

theorem accounting_fresh {root : ℕ} {old : ℕ → Option (Node RadixKey ChildKey NodeData)} (hps : 0 < ps)
    (hlocks : ∀ n ∈ locks, n < root + 1) : Accounting ps (fresh root now old ()) locks := by
  refine .of_locks (.single hps) (fun n nd hn hne => absurd (nodes_single hn).1 hne)
    (fun nd hn => (nodes_single hn).2 ▸ rfl) (sum_single _).symm (sum_single _).symm (fun n => ?_)
    (fun n nd hn hne => absurd (nodes_single hn).1 hne) hlocks
  simp only [fresh, Finset.notMem_empty, false_iff]
  rintro ⟨nd, hn, hne, -⟩
  exact hne (nodes_single hn).1

/-- The slots given to `insert` cover the key it walks with. -/
def InsertParams.Fits (cfg : Config) (p : InsertParams) : Prop :=
  (insertKey cfg p).len ≤ (insertValue cfg p).length

instance (cfg : Config) (p : InsertParams) : Decidable (p.Fits cfg) := inferInstanceAs (Decidable (_ ≤ _))

theorem insert_spec {p : InsertParams} (now : ℤ) (h : Accounting cfg.pageSize c locks) (hp : p.Fits cfg) :
    ∃ c' L, c.insert cfg now p = .ok (c', L) ∧ Accounting cfg.pageSize c' locks ∧
      Inserted cfg.pageSize c.tree (insertKey cfg p) (insertValue cfg p) c'.tree L := by
  refine insertHelper_spec h dvd_len_pageAligned (le_antisymm ?_ hp)
  simp only [insertValue]
  split
  · exact length_take_le _ _
  · exact length_take_le _ _

/-- A cache in use: the locks that are outstanding, and what has been inserted so far. -/
structure Session (π : Type := NodeData) (ε : Type := Unit) where
  cache : RadixCache π ε
  locks : List ℕ
  inserted : List InsertParams

/-- One call of the public interface. Locks are taken and given back on nodes of the tree. -/
inductive Call {π ε : Type} [Payload π] (R : Recorder π ε) (cfg : Config) : Session π ε → Session π ε → Prop
  | insert {c c' : RadixCache π ε} {locks : List ℕ} {log : List InsertParams} {now : ℤ}
      {p : InsertParams} {L : ℕ} : p.Fits cfg → c.insert cfg now p R = .ok (c', L) →
      Call R cfg ⟨c, locks, log⟩ ⟨c', locks, p :: log⟩
  | matchPrefix {c c' : RadixCache π ε} {locks : List ℕ} {log : List InsertParams} {now : ℤ}
      {key : RadixKey} {r : MatchResult} : c.matchPrefix cfg now key = .ok (c', r) →
      Call R cfg ⟨c, locks, log⟩ ⟨c', locks, log⟩
  | evict {c c' : RadixCache π ε} {locks : List ℕ} {log : List InsertParams} {ties : ℕ → ℕ}
      {numTokens : ℕ} {freed : List (List ℕ)} {numEvicted : ℕ} :
      c.evict cfg ties numTokens R = .ok (c', freed, numEvicted) →
      Call R cfg ⟨c, locks, log⟩ ⟨c', locks, log⟩
  | reset {c : RadixCache π ε} {locks : List ℕ} {log : List InsertParams} {now : ℤ} :
      Call R cfg ⟨c, locks, log⟩ ⟨c.reset now R, locks, log⟩
  | incLockRef {c c' : RadixCache π ε} {locks : List ℕ} {log : List InsertParams} {n : ℕ} {δ : ℤ} :
      (c.tree.nodes n).isSome → c.incLockRef n = (c', .ok δ) → Call R cfg ⟨c, locks, log⟩ ⟨c', n :: locks, log⟩
  | decLockRef {c c' : RadixCache π ε} {locks : List ℕ} {log : List InsertParams} {n : ℕ} {δ : ℤ} :
      n ∈ locks → (c.tree.nodes n).isSome → c.decLockRef n = (c', .ok δ) →
      Call R cfg ⟨c, locks, log⟩ ⟨c', locks.erase n, log⟩

/-- A call on the cache without hashes and events. -/
abbrev Step (cfg : Config) : Session → Session → Prop := Call .silent cfg

/-- Sessions reached from the empty cache by any calls in any order. -/
def Reachable (cfg : Config) (s : Session) : Prop :=
  ∃ now, Relation.ReflTransGen (Step cfg) ⟨init now, [], []⟩ s

theorem Accounting.path_of_isSome (h : Accounting ps c locks) (hn : (c.tree.nodes n).isSome) :
    ∃ l, c.tree.Path n l := by
  obtain ⟨nd, hnd⟩ := Option.isSome_iff_exists.mp hn
  exact h.wf.path hnd

/-- Every call keeps the accounts. -/
theorem Step.accounting {s s' : Session} (h : Step cfg s s') (hs : Accounting cfg.pageSize s.cache s.locks) :
    Accounting cfg.pageSize s'.cache s'.locks := by
  cases h with
  | insert hp hrun =>
    obtain ⟨c'', L', hrun', hacc, -⟩ := insert_spec _ hs hp
    rw [hrun] at hrun'
    cases hrun'
    exact hacc
  | matchPrefix hrun =>
    obtain ⟨c'', r', hrun', hacc, -⟩ := matchPrefix_spec _ hs _
    rw [hrun] at hrun'
    cases hrun'
    exact hacc
  | evict hrun =>
    obtain ⟨c'', freed', hrun', -, hacc, -⟩ := evict_spec hs
    rw [hrun] at hrun'
    cases hrun'
    exact hacc
  | reset => exact accounting_fresh hs.wf.ps_pos fun n hn => (hs.locks_lt n hn).trans (Nat.lt_succ_self _)
  | incLockRef hn hrun =>
    obtain ⟨l, hl⟩ := hs.path_of_isSome hn
    obtain ⟨c'', δ', hrun', hacc, -⟩ := incLockRef_spec hs hl
    rw [hrun] at hrun'
    cases hrun'
    exact hacc
  | decLockRef hmem hn hrun =>
    obtain ⟨l, hl⟩ := hs.path_of_isSome hn
    obtain ⟨c'', δ', hrun', hacc, -⟩ := decLockRef_spec hs hl hmem
    rw [hrun] at hrun'
    cases hrun'
    exact hacc

theorem Reachable.accounting {s : Session} (hps : 0 < cfg.pageSize) (h : Reachable cfg s) :
    Accounting cfg.pageSize s.cache s.locks := by
  obtain ⟨now, hrun⟩ := h
  induction hrun with
  | refl => exact accounting_fresh hps (by simp)
  | tail _ hstep ih => exact hstep.accounting ih

/-- **Lock and size accounting.** Whatever calls are made on a `RadixCache`, in any order, as long as locks are
taken on nodes of the tree and every `dec_lock_ref` gives back one that is outstanding and was not reset
away: the sizes are the sums they stand for, `evictable_leaves` is the set of unlocked non-root leaves, and
every non-root node counts exactly the outstanding locks on it or below it, holds one slot per unit of a
positive number of whole pages, and has a locked parent if it is locked. -/
theorem lock_and_size_accounting {cfg : Config} (hps : 0 < cfg.pageSize) {s : Session} (h : Reachable cfg s) :
    s.cache.protectedSize = s.cache.tree.sum protectedLen ∧
      s.cache.evictableSize = s.cache.tree.sum evictableLen ∧
    (∀ n, n ∈ s.cache.evictableLeaves ↔ EvictableLeaf s.cache.tree n) ∧
    ∀ n nd, s.cache.tree.nodes n = some nd → n ≠ s.cache.tree.root →
      nd.data.lockRef = s.cache.tree.holds s.locks n ∧
      nd.data.value.length = nd.key.len ∧ 0 < nd.key.len ∧ cfg.pageSize ∣ nd.key.len ∧ (0 < nd.data.lockRef →
        ∃ pd, s.cache.tree.nodes nd.parent = some pd ∧ 0 < pd.data.lockRef) := by
  have hacc := h.accounting hps
  refine ⟨hacc.protected_eq, hacc.evictable_eq, hacc.leaves_iff, fun n nd hn hne => ?_⟩
  have hdvd : cfg.pageSize ∣ nd.key.len := by simpa using hacc.wf.key_dvd hn hne
  have hle : cfg.pageSize ≤ nd.key.len := by simpa using hacc.wf.ps_le hn hne
  refine ⟨hacc.lock_eq n nd hn hne, by simpa using hacc.fits n nd hn hne, by omega, hdvd, ?_⟩
  intro hlock
  obtain ⟨pd, hpd⟩ := hacc.wf.parent_node hn hne
  exact ⟨pd, hpd, hacc.parent_locked hn hne hlock hpd⟩

/-- A cache with pages of two tokens. -/
def pairConfig : Config := ⟨2, false, false, .lru⟩

/-- Two prompts that share their first page. -/
def firstPrompt : InsertParams := ⟨⟨[1, 2, 3, 4], none, false⟩, some [10, 11, 12, 13], none, false⟩

def secondPrompt : InsertParams := ⟨⟨[1, 2, 5, 6], none, false⟩, some [20, 21, 22, 23], none, false⟩

/-- The node of the first prompt is locked and then split by the second: both halves are protected. -/
theorem lock_and_size_accounting_of_split : ∃ s : Session, Reachable pairConfig s ∧ s.locks = [1] ∧
    s.cache.protectedSize = 4 ∧ s.cache.evictableSize = 2 ∧
    s.cache.protectedSize = s.cache.tree.sum protectedLen := by
  have h₁ := (Relation.ReflTransGen.refl (a := (⟨init 0, [], []⟩ : Session))).tail
    (Call.insert (by decide) (rfl : (init 0).insert pairConfig 1 firstPrompt = .ok (_, _)))
  have h₂ := h₁.tail (.incLockRef (n := 1) rfl rfl)
  have h₃ := h₂.tail (.insert (by decide) (rfl : RadixCache.insert pairConfig 2 _ secondPrompt = .ok (_, _)))
  exact ⟨_, ⟨0, h₃⟩, rfl, rfl, rfl, (lock_and_size_accounting (by decide) ⟨0, h₃⟩).1⟩

/-- **A lock that was reset away.** The first prompt is inserted, its node is locked, the cache is reset, and
`dec_lock_ref` gives the lock back: its assertion fails, but not before the node has moved to the evictable
leaves of the new tree and four tokens from one size to the other. -/
theorem accounts_wrong_after_reset : ∃ c s, (init 0).insert pairConfig 1 firstPrompt = .ok (c, 0) ∧
    s.cache = ((c.incLockRef 1).1.reset 2) ∧ s.locks = [1] ∧ Reachable pairConfig s ∧
    (s.cache.decLockRef 1).2 = .error (.assertion "This request holds the node from another tree") ∧
    (s.cache.decLockRef 1).1.evictableSize = 4 ∧ (s.cache.decLockRef 1).1.protectedSize = -4 ∧
    (s.cache.decLockRef 1).1.evictableLeaves = {1} ∧ (s.cache.decLockRef 1).1.tree.nodes 1 = none := by
  have h₁ := (Relation.ReflTransGen.refl (a := (⟨init 0, [], []⟩ : Session))).tail
    (Call.insert (by decide) (rfl : (init 0).insert pairConfig 1 firstPrompt = .ok (_, _)))
  have h₂ := (h₁.tail (.incLockRef (n := 1) rfl rfl)).tail
    (Call.reset : Step pairConfig _ ⟨RadixCache.reset 2 _, _, _⟩)
  exact ⟨_, _, rfl, rfl, rfl, ⟨0, h₂⟩, rfl, rfl, rfl, rfl, rfl⟩

end RadixCache

end SGLang.MemCache
