/-
# SGLang.MemCache.RadixCacheWalk — what a walk down the tree finds.

Lookup and insertion share one walk: follow the child of the next page as long as whole labels match,
and split the last node when only part of its label does. `walk_step` is one step of it. `matchLoop_spec`
and `insertLoop_spec` say what the two loops leave behind, whatever the payload: a tree that differs by
quiet steps only, and the node whose path spells out the longest stored prefix.
-/
import SGLang.MemCache.RadixCache

namespace SGLang.MemCache

open SGLang.Lib SGLang.Lib.PageTree RadixKey NodeData List

/-! ## One step down -/

section Descend

variable {π : Type} {ps : ℕ} {t : PageTree RadixKey ChildKey π} {n c m : ℕ} {l : List ℕ}
variable {key : RadixKey}

/-- The child found for the next page shares that page, so matching it raises nothing. -/
theorem descend (wf : WF ps t) (hl : t.Path n l) (hd : ps ∣ key.len) (hpos : 0 < key.len)
    (hc : t.child n (key.childKey ps) = some c) : ∃ cd m, t.nodes c = some cd ∧ c ≠ t.root ∧
      t.Path c (l ++ [c]) ∧ cd.key.matchKey key ps = .ok m ∧ ps ≤ m ∧
      IsPageMatch ps cd.key.units key.units m := by
  obtain ⟨pd, hpd⟩ := wf.node_of_path hl
  obtain ⟨cd, hcd, hcr, rfl, hck⟩ := (wf.child_eq_some hpd).mp hc
  have hle : ps ≤ key.len := Nat.le_of_dvd hpos hd
  have hle' : ps ≤ cd.key.len := by simpa using wf.ps_le hcd hcr
  have hdvd : ps ∣ cd.key.len := by simpa using wf.key_dvd hcd hcr
  have hpage : cd.key.units.take ps = key.units.take ps :=
    (LawfulPagedKey.childKey_inj wf.ps_pos (by simpa) (by simpa)).mp hck
  obtain ⟨m, hm, hpm, hmatch⟩ := matchKey_spec wf.ps_pos hdvd hd hle' hle hpage
  exact ⟨cd, m, hcd, hcr, .snoc hcd hcr hl, hm, hpm, hmatch⟩

/-- Where the upper half of a node split during a walk stands. -/
theorem split_below (up down : π → π) {cd : Node RadixKey ChildKey π} (wf : WF ps t)
    (hcd : t.nodes c = some cd) (hcr : c ≠ t.root) (hl : t.Path c (l ++ [c])) :
    (splitAt ps t c m up down).2 = t.next ∧ (splitAt ps t c m up down).1.Path t.next (l ++ [t.next]) ∧
      (splitAt ps t c m up down).1.labels (l ++ [t.next]) = t.labels l ++ cd.key.units.take m := by
  exact ⟨splitAt_snd hcd, path_splitAt_upper wf hcd hcr hl,
    labels_splitAt_upper wf hcd hcr hl⟩

theorem labels_walk {t' : PageTree RadixKey ChildKey π} {l' : List ℕ}
    (h : t'.labels l' = t.labels l ++ key.units.take m) :
    t'.labels l' ++ (key.drop m).units = t.labels l ++ key.units := by
  have hdrop : (key.drop m).units = key.units.drop m := units_drop key m
  rw [h, hdrop, append_assoc, take_append_drop]

end Descend

namespace RadixCache

/-! ## Quiet steps -/

section Quiet

variable {π : Type} [Payload π] {ps n c m : ℕ} {now priority : ℤ} {chunked : Bool} {t t' : TreeOf π}
variable {key : RadixKey} {l : List ℕ} {g₀ : NodeData → NodeData} {up down : π → π} {g : π → π}

/-- The slots of a node. -/
abbrev slots (d : π) : List ℕ := (base d).value

/-- Updates of the fields of `NodeData` that touch neither slots nor locks. -/
def Inert (g : π → π) : Prop :=
  ∃ g₀ : NodeData → NodeData, g = onBase g₀ ∧ ∀ d, (g₀ d).value = d.value ∧ (g₀ d).lockRef = d.lockRef

/-- The updates of the two halves of a split. -/
def Halving (ps m : ℕ) (up down : π → π) : Prop := ∃ now, up = Payload.upper ps now m ∧
  down = Payload.lower ps m

/-- What a lookup may do to the tree. -/
abbrev QuietSteps (ps : ℕ) : TreeOf π → TreeOf π → Prop := Quiet ps Inert (Halving ps)

theorem inert_touch : Inert (π := π) (onBase (touch now)) := ⟨_, rfl, fun _ => ⟨rfl, rfl⟩⟩

theorem incHitCount_keeps (d : NodeData) :
    (d.incHitCount chunked).value = d.value ∧ (d.incHitCount chunked).lockRef = d.lockRef := by
  unfold incHitCount
  split <;> exact ⟨rfl, rfl⟩

theorem inert_hit : Inert (π := π) (onBase fun d => (d.raisePriority priority).incHitCount chunked) :=
  ⟨_, rfl, fun d => incHitCount_keeps (d.raisePriority priority)⟩

theorem halving_split (m : ℕ) : Halving ps m (Payload.upper (π := π) ps now m) (Payload.lower ps m) :=
  ⟨now, rfl, rfl⟩

variable [LawfulPayload π]

theorem Inert.keeps (hg : Inert g) (d : π) : slots (g d) = slots d ∧
    (base (g d)).lockRef = (base d).lockRef := by
  obtain ⟨g₀, rfl, h⟩ := hg
  rw [slots, LawfulPayload.base_onBase]
  exact h (base d)

theorem Halving.keeps (hh : Halving ps m up down) (d : π) : slots (up d) = (slots d).take m ∧
    slots (down d) = (slots d).drop m ∧ (base (up d)).lockRef = (base d).lockRef ∧
    (base (down d)).lockRef = (base d).lockRef := by
  obtain ⟨now, rfl, rfl⟩ := hh
  simp only [slots, LawfulPayload.base_upper, LawfulPayload.base_lower]
  exact ⟨rfl, rfl, rfl, rfl⟩

/-- The same for the fields of `NodeData` alone. -/
theorem Inert.plain {g : NodeData → NodeData} (hg : Inert g) (d : NodeData) :
    (g d).value = d.value ∧ (g d).lockRef = d.lockRef := hg.keeps d

theorem Halving.plain {up down : NodeData → NodeData} (hh : Halving ps m up down) (d : NodeData) :
    (up d).value = d.value.take m ∧ (down d).value = d.value.drop m ∧ (up d).lockRef = d.lockRef ∧
      (down d).lockRef = d.lockRef := hh.keeps d

theorem QuietSteps.keeps (h : QuietSteps ps t t') (wf : WF ps t) (hf : t.Fits slots) :
    WF ps t' ∧ t'.Fits slots ∧ ∀ us vs, t'.Stores slots us vs ↔ t.Stores slots us vs :=
  h.stores (fun _ hg d => (hg.keeps d).1) (fun _ _ _ hh d => ⟨(hh.keeps d).1, (hh.keeps d).2.1⟩) wf hf

theorem QuietSteps.plain {t t' : Tree} (h : QuietSteps ps t t') (wf : WF ps t) (hf : t.Fits value) :
    WF ps t' ∧ t'.Fits value ∧ ∀ us vs, t'.Stores value us vs ↔ t.Stores value us vs := h.keeps wf hf

theorem QuietSteps.isLongest (h : QuietSteps ps t t') (wf : WF ps t) (hf : t.Fits slots)
    {us : List (Option String × Tok)} {L : ℕ} :
    IsLongest ps t' us L ↔ IsLongest ps t us L := by
  obtain ⟨-, -, hs⟩ := h.keeps wf hf
  exact isLongest_congr hs

/-- One round of a walk at a node whose child for the next page is `c`: the label of `c` matches in part
and is split there, or it matches as a whole. -/
theorem walk_step (now : ℤ) (wf : WF ps t) (hl : t.Path n l) (hd : ps ∣ key.len)
    (hpos : 0 < key.len) (hc : t.child n (key.childKey ps) = some c) :
    ∃ cd m, getNode (t.modifyData c (onBase (touch now))) c = .ok cd ∧ cd.key.matchKey key ps = .ok m ∧ 0 < m ∧
      m ≤ key.len ∧ ps ∣ (key.drop m).len ∧ QuietSteps ps t (t.modifyData c (onBase (touch now))) ∧
      ((m < cd.key.len ∧ ∃ t' w, splitNode ps now (t.modifyData c (onBase (touch now))) c m = (t', w) ∧
          QuietSteps ps t t' ∧ t'.Path w (l ++ [w]) ∧ t'.labels (l ++ [w]) = t.labels l ++ key.units.take m ∧
          t'.along slots (l ++ [w]) = t.along slots l ++ (slots cd.data).take m ∧
          IsLongest ps t (t.labels l ++ key.units) ((t.labels l).length + m)) ∨
        (¬ m < cd.key.len ∧ (t.modifyData c (onBase (touch now))).Path c (l ++ [c]) ∧
          (t.modifyData c (onBase (touch now))).labels (l ++ [c]) = t.labels l ++ key.units.take m ∧
          (t.modifyData c (onBase (touch now))).along slots (l ++ [c]) = t.along slots l ++
            slots cd.data)) := by
  obtain ⟨cd, m, hcd, hcr, hlc, hm, hpm, hmatch⟩ := descend wf hl hd hpos hc
  have hcd' := nodes_modifyData_self (g := onBase (touch now)) hcd
  have hq : QuietSteps ps t (t.modifyData c (onBase (touch now))) := .touch c (.refl t) inert_touch
  have hlc' := (path_modifyData (n := c) (g := onBase (touch now))).mpr hlc
  have htouch : ∀ d : π, slots (onBase (touch now) d) = slots d := fun d => (inert_touch.keeps d).1
  have hhalf := fun d : π => Halving.keeps (⟨now, rfl, rfl⟩ : Halving ps m _ _) d
  have hm₀ : 0 < m := wf.ps_pos.trans_le hpm
  have hle : m ≤ cd.key.len := by simpa using hmatch.le_left
  have hmk : m ≤ key.len := by simpa using hmatch.le_right
  refine ⟨{ cd with data := onBase (touch now) cd.data }, m, by rw [getNode, hcd'], hm, hm₀, hmk,
    len_drop key m ▸ Nat.dvd_sub hd hmatch.dvd, hq, ?_⟩
  rcases hle.lt_or_eq with hlt | heq
  · obtain ⟨hsnd, hpath, hlab⟩ :=
      split_below (m := m) (Payload.upper ps now m) (Payload.lower ps m) (hq.wf wf) hcd'
      hcr hlc'
    refine .inl ⟨hlt, _, (t.modifyData c (onBase (touch now))).next, Prod.ext rfl hsnd,
      .split hq hcd' hcr hm₀ (by simpa using hlt) hmatch.dvd (halving_split m), hpath, ?_, ?_,
      IsLongest.of_partial wf hl hc (label_eq hcd ▸ hmatch) ?_⟩
    · exact hlab.trans (by rw [labels_modifyData, hmatch.take_eq])
    · refine (along_splitAt_upper (hq.wf wf) hcd' hcr (hhalf _).1 (hhalf _).2.1 hlc').trans ?_
      rw [along_modifyData htouch]
    · rw [label_eq hcd, pagedKey_units, length_units]
      exact hlt
  · refine .inr ⟨heq.not_lt, hlc', ?_, ?_⟩
    · have hfull : cd.key.units.take m = cd.key.units := by
        rw [heq, ← length_units, take_length]
      rw [labels_modifyData, labels_append, labels_cons, labels_nil, append_nil, label_eq hcd,
        ← hmatch.take_eq, hfull, pagedKey_units]
    · rw [along_modifyData htouch, along_append, along_cons, along_nil, append_nil, held_eq hcd, htouch]

end Quiet

variable {π : Type} [Payload π] [LawfulPayload π] {ps fuel n total : ℕ} {now priority : ℤ} {chunked : Bool}
variable {t t' : TreeOf π} {l : List ℕ} {key : RadixKey} {value : List ℕ}

/-! ## The two loops -/

/-- **The lookup loop.** From a node whose path spells out what has been matched, the loop returns,
after quiet steps, the node of the longest stored prefix and the slots along its path. -/
theorem matchLoop_spec (now : ℤ) (hfuel : key.len < fuel) (wf : WF ps t)
    (hf : t.Fits slots) (hl : t.Path n l) (hd : ps ∣ key.len) (hv : value = t.along slots l) :
    ∃ t' vs w l', matchLoop ps now fuel t n key value = .ok (t', vs, w) ∧ QuietSteps ps t t' ∧
      t'.Path w l' ∧ vs = t'.along slots l' ∧ t'.labels l' <+: t.labels l ++ key.units ∧
      IsLongest ps t' (t.labels l ++ key.units) (t'.labels l').length := by
  induction fuel generalizing t n l key value with
  | zero => exact absurd hfuel (Nat.not_lt_zero _)
  | succ fuel ih =>
    simp only [matchLoop]
    split
    · next hpos =>
      cases hc : t.child n (key.childKey ps) with
      | none =>
        exact ⟨t, value, n, l, rfl, .refl t, hl, hv, prefix_append _ _, .of_child_none wf hl fun _ => hc⟩
      | some c =>
        obtain ⟨cd, m, hget, hm, hm₀, hmk, hmd, hq, hcase⟩ := walk_step now wf hl hd hpos hc
        simp only [hget, hm, bind, Except.bind]
        rcases hcase with ⟨hlt, t₂, w, hs, hq, hw, hlab, hal, hlongest⟩ | ⟨hge, hlc, hlab, hal⟩
        · rw [if_pos hlt, hs]
          refine ⟨t₂, _, w, l ++ [w], rfl, hq, hw, by rw [hal, hv], ?_, (QuietSteps.isLongest hq wf hf).mpr ?_⟩
          · rw [hlab, prefix_append_right_inj]
            exact take_prefix _ _
          · rwa [hlab, length_append, length_take, length_units, min_eq_left hmk]
        · rw [if_neg hge]
          obtain ⟨wf', hf', -⟩ := QuietSteps.keeps hq wf hf
          have hlen := len_drop key m
          have hlt : (key.drop m).len < fuel := by omega
          have hv' : value ++ slots cd.data = (t.modifyData c (onBase (touch now))).along slots (l ++ [c]) := by
            rw [hal, hv]
          obtain ⟨t', vs, w, l', hrun, hq', hres⟩ := ih hlt wf' hf' hlc hmd hv'
          rw [labels_walk hlab] at hres
          exact ⟨t', vs, w, l', hrun, hq.trans hq', hres⟩
    · next hzero =>
      have hnil : key.units = [] := by
        rw [← length_eq_zero_iff, length_units]
        omega
      exact ⟨t, value, n, l, rfl, .refl t, hl, hv, prefix_append _ _,
        .of_child_none wf hl fun h => absurd hnil h⟩

/-- One round of the insertion loop goes on one label further down, after quiet steps. -/
theorem insertLoop_step {c : ℕ} (wf : WF ps t) (hl : t.Path n l) (hd : ps ∣ key.len)
    (hpos : 0 < key.len) (hc : t.child n (key.childKey ps) = some c) :
    ∃ u x lx m, insertLoop ps now priority chunked (fuel + 1) t n key value total =
        insertLoop ps now priority chunked fuel u x (key.drop m) (value.drop m) (total + m) ∧
      QuietSteps ps t u ∧ u.Path x lx ∧ u.labels lx = t.labels l ++ key.units.take m ∧ 0 < m ∧
      m ≤ key.len ∧ ps ∣ (key.drop m).len := by
  obtain ⟨cd, m, hget, hm, hm₀, hmk, hmd, hq, hcase⟩ := walk_step now wf hl hd hpos hc
  simp only [insertLoop, if_pos hpos, hc, hget, hm, bind, Except.bind]
  rcases hcase with ⟨hlt, u, w, hs, hq, hw, hlab, -, -⟩ | ⟨hge, hlc, hlab, -⟩
  · rw [if_pos hlt, hs]
    exact ⟨_, w, l ++ [w], m, rfl, .touch w hq inert_hit, path_modifyData.mpr hw,
      by rw [labels_modifyData, hlab], hm₀, hmk, hmd⟩
  · rw [if_neg hge]
    exact ⟨_, c, l ++ [c], m, rfl, .touch c hq inert_hit, path_modifyData.mpr hlc,
      by rw [labels_modifyData, hlab], hm₀, hmk, hmd⟩

/-- **The insertion loop.** It stops, after quiet steps, at a node that spells out a prefix of the key
and has no child for the rest; the rest of the key and of the slots is in hand. -/
theorem insertLoop_spec (now priority : ℤ) (chunked : Bool) (value : List ℕ) (total : ℕ)
    (hfuel : key.len < fuel) (wf : WF ps t) (hl : t.Path n l) (hd : ps ∣ key.len) :
    ∃ t' w l' key' j, insertLoop ps now priority chunked fuel t n key value total =
        .ok (t', w, key', value.drop j, total + j) ∧
      QuietSteps ps t t' ∧ t'.Path w l' ∧ (t'.labels l').length = (t.labels l).length + j ∧
      t'.labels l' ++ key'.units = t.labels l ++ key.units ∧ ps ∣ key'.len ∧
      (0 < key'.len → t'.child w (key'.childKey ps) = none) := by
  induction fuel generalizing t n l key value total with
  | zero => exact absurd hfuel (Nat.not_lt_zero _)
  | succ fuel ih =>
    rcases Nat.eq_zero_or_pos key.len with hzero | hpos
    · have hnot : ¬ 0 < key.len := by omega
      exact ⟨t, n, l, key, 0, by simp [insertLoop, hzero], .refl t, hl, rfl, rfl, hd,
        fun h => absurd h hnot⟩
    cases hc : t.child n (key.childKey ps) with
    | none =>
      exact ⟨t, n, l, key, 0, by simp [insertLoop, hpos, hc], .refl t, hl, rfl, rfl, hd,
        fun _ => hc⟩
    | some c =>
      obtain ⟨u, x, lx, m, hrun, hq, hx, hlab, hm₀, hmk, hmd⟩ := insertLoop_step wf hl hd hpos hc
      have hlen := len_drop key m
      have hlt : (key.drop m).len < fuel := by omega
      obtain ⟨t', w, l', key', j, hrun', hq', hw, hj, happ, hrest⟩ :=
        ih (value.drop m) (total + m) hlt (hq.wf wf) hx hmd
      refine ⟨t', w, l', key', m + j, ?_, hq.trans hq', hw, ?_, ?_, hrest⟩
      · rw [hrun, hrun', drop_drop, Nat.add_assoc]
      · rw [hj, hlab, length_append, length_take, length_units, min_eq_left hmk]
        omega
      · rw [happ, labels_walk hlab]

/-! ## Lookup and insertion -/

variable {ε : Type} {c : RadixCache π ε} {cfg : Config}

/-- The key a lookup walks with. -/
def lookupKey (cfg : Config) (key : RadixKey) : RadixKey :=
  (key.maybeToBigramView cfg.isEagle ([] : List ℕ)).1.pageAligned cfg.pageSize

/-- **Lookup.** It returns, after quiet steps, the node of the longest stored prefix and the slots along its
path; nothing but the tree changes. -/
theorem matchPrefix_walk (now : ℤ) (wf : WF cfg.pageSize c.tree) (hf : c.tree.Fits slots) (key : RadixKey) :
    ∃ t' r l, c.matchPrefix cfg now key = .ok ({ c with tree := t' }, r) ∧ QuietSteps cfg.pageSize c.tree t' ∧
      t'.Path r.lastNode l ∧ r.deviceIndices = t'.along slots l ∧ t'.labels l <+: (lookupKey cfg key).units ∧
      IsLongest cfg.pageSize t' (lookupKey cfg key).units (t'.labels l).length := by
  have hempty : (lookupKey cfg key).len = 0 → IsLongest cfg.pageSize c.tree (lookupKey cfg key).units 0 := by
    intro hz
    have hnil : (lookupKey cfg key).units = [] := by rwa [← length_eq_zero_iff, length_units]
    simpa using IsLongest.of_child_none wf .root fun hne => absurd hnil hne
  simp only [matchPrefix]
  by_cases h₁ : (key.maybeToBigramView cfg.isEagle ([] : List ℕ)).1.len = 0
  · rw [if_pos h₁]
    refine ⟨c.tree, ⟨[], c.tree.root⟩, [], rfl, .refl _, .root, rfl, nil_prefix, hempty ?_⟩
    rw [lookupKey, len_pageAligned, h₁, Nat.zero_div, Nat.zero_mul]
  · rw [if_neg h₁]
    by_cases h₂ : (lookupKey cfg key).len = 0
    · exact ⟨c.tree, ⟨[], c.tree.root⟩, [], if_pos h₂, .refl _, .root, rfl, nil_prefix, hempty h₂⟩
    · have hq₀ : QuietSteps cfg.pageSize c.tree (c.tree.modifyData c.tree.root (onBase (touch now))) :=
        .touch _ (.refl _) inert_touch
      obtain ⟨wf₀, hf₀, -⟩ := hq₀.keeps wf hf
      obtain ⟨t', vs, w, l, hrun, hq, hw, hvs, hpre, hlong⟩ :=
        matchLoop_spec now (Nat.lt_add_one (lookupKey cfg key).len) wf₀ hf₀
          (path_modifyData.mpr .root) dvd_len_pageAligned rfl
      rw [along_nil] at hrun
      refine ⟨t', ⟨vs, w⟩, l, ?_, hq₀.trans hq, hw, hvs, hpre, hlong⟩
      rw [show ((key.maybeToBigramView cfg.isEagle ([] : List ℕ)).1.pageAligned cfg.pageSize) =
        lookupKey cfg key from rfl, if_neg h₂, matchPrefixHelper, hrun]
      rfl

/-- The cache right after `_insert_helper` has hung a new node below `w`. -/
def afterAddLeaf (ps : ℕ) (c : RadixCache π ε) (w : ℕ) (key : RadixKey) (data : π) : RadixCache π ε :=
  let c : RadixCache π ε :=
    { c with tree := (c.tree.addLeaf ps w key data).1, evictableSize := c.evictableSize + key.len }
  (c.updateLeafStatus w).updateLeafStatus (c.tree.next - 1)

/-- **Insertion.** After quiet steps down to a node that spells out a prefix of the key and has no child for the
rest, a new node takes the rest of the key and of the slots, if anything is left. -/
theorem insertHelper_walk (R : Recorder π ε) (now priority : ℤ) (chunked : Bool) (value : List ℕ)
    (wf : WF ps c.tree) (hd : ps ∣ key.len) :
    ∃ t₁ w l rest, QuietSteps ps c.tree t₁ ∧ t₁.Path w l ∧ t₁.labels l ++ rest.units = key.units ∧
      ps ∣ rest.len ∧ (0 < rest.len → t₁.child w (rest.childKey ps) = none) ∧
      insertHelper R ps now c key value priority chunked = .ok
        (if 0 < rest.len then R.storeEvent (afterAddLeaf ps { c with tree := t₁ } w rest
            (Payload.ofLeaf (newData now priority chunked (value.drop (t₁.labels l).length)))) t₁.next
          else { c with tree := t₁ }, (t₁.labels l).length) := by
  have hinert : Inert (π := π) (onBase fun d => (d.touch now).raisePriority priority) :=
    ⟨_, rfl, fun _ => ⟨rfl, rfl⟩⟩
  have hq₀ : QuietSteps ps c.tree _ := .touch c.tree.root (.refl c.tree) hinert
  have hroot := (path_modifyData (n := c.tree.root) (g := onBase fun d =>
    (d.touch now).raisePriority priority)).mpr
    (Path.root (t := c.tree))
  simp only [insertHelper]
  by_cases hzero : key.len = 0
  · have hnot : ¬ 0 < key.len := by omega
    refine ⟨_, _, [], key, hq₀, hroot, rfl, hd, fun hpos => absurd hpos hnot, ?_⟩
    rw [if_pos hzero, if_neg hnot]
    rfl
  · obtain ⟨t₁, w, l, rest, j, hrun, hq₁, hw, hj, happ, hdr, hnone⟩ :=
      insertLoop_spec now priority chunked value 0 (Nat.lt_succ_self key.len) (hq₀.wf wf) hroot hd
    rw [labels_nil, nil_append] at happ
    rw [labels_nil, length_nil, Nat.zero_add] at hj
    refine ⟨t₁, w, l, rest, hq₀.trans hq₁, hw, happ, hdr, hnone, ?_⟩
    simp only [if_neg hzero, hrun, bind, Except.bind, Nat.zero_add, hj]
    split <;> rfl

end RadixCache

end SGLang.MemCache
