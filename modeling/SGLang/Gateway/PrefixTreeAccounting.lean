/-
# SGLang.Gateway.PrefixTreeAccounting — the character counts of the prefix tree are exact.

In every tree that any sequence of calls leaves, the count of a tenant is the number of characters on the nodes
that carry it, and the tree is in shape: cached lengths are lengths, tenants are inherited from the parent, no
node below the root is without text or tenants, and nodes are stored where their first character says. Every
call ends without a panic.

`Shape` is what holds of the nodes, `Balanced` ties the counts to them. Inserting goes down: each step of the
loop enters the tenant on one more node of the path. Eviction and removal go up: `peel` takes a tenant off a
node that no child of it carries, so that tenants stay inherited, and a node left without tenants has no
children.
-/
import SGLang.Gateway.PrefixTree
import SGLang.Lib.PageTreeEach

namespace SGLang.Gateway

open SGLang.Lib SGLang.Lib.PageTree Finset NodeText Option AList
open Dict (arrange arrange_perm)
open Node (core)
open NodeTenants (enter leave)
open PageTree (contrib splitAt)
open PrefixTree (addCount chooseTenant insertLoop matchLoop peel tenantEntries)

variable {t t' : TenantNodes} {n m c fuel prev : ℕ} {x y : TenantId} {nd cd pd : Node NodeText Text NodeTenants}
  {g : NodeTenants → NodeTenants} {counts : CharCounts} {remaining : Text}

/-! ## Who carries a tenant -/

theorem carries_iff : carries t n x = true ↔ ∃ nd, t.nodes n = some nd ∧ x ∈ nd.data.lastAccess := by
  unfold carries
  cases h : t.nodes n with
  | none => simp
  | some nd => simp

theorem carries_of_node (hn : t.nodes n = some nd) : carries t n x = true ↔ x ∈ nd.data.lastAccess := by
  rw [carries_iff]
  constructor
  · rintro ⟨nd', hn', hx⟩
    rw [hn] at hn'
    cases hn'
    exact hx
  · intro hx
    exact ⟨nd, hn, hx⟩

/-- Carrying a tenant is a matter of the node's payload. -/
theorem carries_congr (h : (t'.nodes n).map core = (t.nodes n).map core) : carries t' n x = carries t n x := by
  rw [carries, carries, map_congr_core (fun _ (d : NodeTenants) => decide (x ∈ d.lastAccess)) h]

theorem childCarries_eq_false (wf : WF 1 t) (hn : t.nodes n = some nd) : childCarries t n x = false ↔
    ∀ c cd, t.nodes c = some cd → c ≠ t.root → cd.parent = n → x ∉ cd.data.lastAccess := by
  unfold childCarries
  rw [List.any_eq_false]
  constructor
  · intro h c cd hcd hne hp hx
    exact h c ((wf.mem_childIds hn).mpr ⟨cd, hcd, hne, hp⟩) ((carries_of_node hcd).mpr hx)
  · intro h c hc hx
    obtain ⟨cd, hcd, hne, hp⟩ := (wf.mem_childIds hn).mp hc
    exact h c cd hcd hne hp ((carries_of_node hcd).mp hx)

/-! ## The shape of the nodes and the books -/

/-- What holds of the nodes of a tree at any time. -/
structure Shape (t : TenantNodes) : Prop where
  wf : WF 1 t
  root_text : ∀ nd, t.nodes t.root = some nd → nd.key = NodeText.empty
  cached : ∀ n nd, t.nodes n = some nd → nd.key.charCount = nd.key.text.length
  tenanted : ∀ n nd, t.nodes n = some nd → n ≠ t.root → ∃ x, x ∈ nd.data.lastAccess
  inherited : ∀ n nd, t.nodes n = some nd → n ≠ t.root → ∀ x ∈ nd.data.lastAccess,
    carries t nd.parent x = true

/-- The shape, node by node. -/
theorem Shape.of_nodes (wf : WF 1 t) (hroot : ∀ nd, t.nodes t.root = some nd → nd.key = empty)
    (h : ∀ n nd, t.nodes n = some nd → nd.key.charCount = nd.key.text.length ∧ (n ≠ t.root →
      (∃ x, x ∈ nd.data.lastAccess) ∧ ∀ x ∈ nd.data.lastAccess, carries t nd.parent x = true)) : Shape t :=
  ⟨wf, hroot, fun n nd hn => (h n nd hn).1, fun n nd hn hne => ((h n nd hn).2 hne).1,
    fun n nd hn hne => ((h n nd hn).2 hne).2⟩

/-- The characters a node has for a tenant. -/
def weight (x : TenantId) (key : NodeText) (d : NodeTenants) : ℕ :=
  if x ∈ d.lastAccess then key.charCount else 0

/-- What the tree counts for a tenant. -/
def counted (counts : CharCounts) (x : TenantId) : ℕ := (counts.lookup x).getD 0

/-- The counts are those of the nodes. -/
def Balanced (t : TenantNodes) (counts : CharCounts) : Prop :=
  ∀ x, counted counts x = t.sum (weight x)

theorem counted_insert (counts : CharCounts) (k : ℕ) :
    counted (counts.insert x k) y = if y = x then k else counted counts y := by
  unfold counted
  by_cases h : y = x
  · subst h
    rw [lookup_insert, if_pos rfl, getD_some]
  · rw [lookup_insert_ne h, if_neg h]

theorem counted_addCount (counts : CharCounts) (k : ℕ) :
    counted (addCount counts x k) y = counted counts y + if y = x then k else 0 := by
  unfold addCount
  rw [counted_insert]
  by_cases h : y = x
  · subst h
    rw [if_pos rfl, if_pos rfl]
    rfl
  · rw [if_neg h, if_neg h, Nat.add_zero]

/-! ## Changing the tenants of one node -/

/-- The same tenants, perhaps with other times. -/
def SameTenants (d d' : NodeTenants) : Prop := ∀ x, x ∈ d'.lastAccess ↔ x ∈ d.lastAccess

theorem touch_mem (epoch : ℕ) (d : NodeTenants) : y ∈ (d.touch x epoch).lastAccess ↔ y = x ∨ y ∈ d.lastAccess :=
  mem_insert d.lastAccess

theorem enter_mem (d : NodeTenants) : y ∈ (d.enter x).lastAccess ↔ y = x ∨ y ∈ d.lastAccess := by
  unfold enter
  split
  · next h => exact ⟨.inr, fun hy => hy.elim (fun heq => heq ▸ h) id⟩
  · exact touch_mem 0 d

theorem leave_mem (d : NodeTenants) : y ∈ (d.leave x).lastAccess ↔ y ≠ x ∧ y ∈ d.lastAccess :=
  mem_erase

theorem touch_same (epoch : ℕ) {d : NodeTenants} (h : x ∈ d.lastAccess) : SameTenants d (d.touch x epoch) := by
  intro y
  rw [touch_mem]
  constructor
  · rintro (rfl | hy)
    · exact h
    · exact hy
  · exact .inr

theorem carries_modifyData : carries (t.modifyData n g) m x = true ↔
      ∃ md, t.nodes m = some md ∧ x ∈ (if m = n then g md.data else md.data).lastAccess := by
  rw [carries_iff]
  constructor
  · rintro ⟨md', hm', hx⟩
    obtain ⟨md, hm, rfl⟩ := nodes_modifyData_some hm'
    exact ⟨md, hm, hx⟩
  · rintro ⟨md, hm, hx⟩
    exact ⟨_, nodes_modifyData_of_some hm, hx⟩

/-- Adding tenants to one node keeps the shape if its parent has them. -/
theorem Shape.grow (s : Shape t) (hn : t.nodes n = some nd)
    (hgrow : ∀ x ∈ nd.data.lastAccess, x ∈ (g nd.data).lastAccess)
    (hnew : n ≠ t.root → ∀ x ∈ (g nd.data).lastAccess, carries t nd.parent x = true) :
    Shape (t.modifyData n g) := by
  have hdata : ∀ m md, t.nodes m = some md → ∀ x ∈ md.data.lastAccess,
      x ∈ (if m = n then g md.data else md.data).lastAccess := by
    intro m md hm x hx
    by_cases hmn : m = n
    · subst hmn
      cases hn.symm.trans hm
      rw [if_pos rfl]
      exact hgrow x hx
    · rw [if_neg hmn]
      exact hx
  refine .of_nodes s.wf.modifyData (fun rd' hr' => ?_) fun m md' hm' => ?_
  · obtain ⟨rd, hr, rfl⟩ := nodes_modifyData_some hr'
    exact s.root_text rd hr
  · obtain ⟨md, hm, rfl⟩ := nodes_modifyData_some hm'
    refine ⟨s.cached m md hm, fun hne => ⟨(s.tenanted m md hm hne).imp (hdata m md hm), fun x hx => ?_⟩⟩
    have hold : carries t md.parent x = true := by
      by_cases hmn : m = n
      · subst hmn
        cases hn.symm.trans hm
        rw [if_pos rfl] at hx
        exact hnew hne x hx
      · rw [if_neg hmn] at hx
        exact s.inherited m md hm hne x hx
    obtain ⟨pd, hp, hx⟩ := carries_iff.mp hold
    exact carries_modifyData.mpr ⟨pd, hp, hdata _ pd hp x hx⟩

/-- Changing times, or the cached tenant, changes nothing else. -/
theorem Shape.same (s : Shape t) (hn : t.nodes n = some nd) (h : SameTenants nd.data (g nd.data)) :
    Shape (t.modifyData n g) := by
  apply s.grow hn
  · intro x hx
    exact (h x).mpr hx
  · intro hne x hx
    exact s.inherited n nd hn hne x ((h x).mp hx)

theorem weight_congr {d d' : NodeTenants} (key : NodeText) (h : x ∈ d'.lastAccess ↔ x ∈ d.lastAccess) :
    weight x key d' = weight x key d := by
  unfold weight
  by_cases hx : x ∈ d.lastAccess
  · rw [if_pos hx, if_pos (h.mpr hx)]
  · rw [if_neg hx, if_neg (mt h.mp hx)]

theorem sum_same (wf : WF 1 t) (hn : t.nodes n = some nd)
    (h : x ∈ (g nd.data).lastAccess ↔ x ∈ nd.data.lastAccess) :
    (t.modifyData n g).sum (weight x) = t.sum (weight x) := by
  by_cases hne : n = t.root
  · subst hne
    exact sum_modifyData_root (weight x)
  · have hsum := sum_modifyData (weight x) (g := g) wf hn hne
    rw [weight_congr nd.key h] at hsum
    omega

theorem Balanced.same (b : Balanced t counts) (wf : WF 1 t) (hn : t.nodes n = some nd)
    (h : SameTenants nd.data (g nd.data)) :
    Balanced (t.modifyData n g) counts := by
  intro x
  rw [sum_same wf hn (h x)]
  exact b x

/-! ## `insert` -/

/-- Entering a tenant on a node below one that carries it. -/
theorem attach_spec (s : Shape t) (b : Balanced t counts) (hn : t.nodes n = some nd) (hne : n ≠ t.root)
    (hp : carries t nd.parent x = true) :
    ∃ t' counts', PrefixTree.attach t counts n x nd.key.charCount = (t', counts') ∧ Shape t' ∧
      Balanced t' counts' ∧ carries t' n x = true := by
  unfold PrefixTree.attach
  by_cases hx : carries t n x = true
  · rw [if_pos hx]
    exact ⟨t, counts, rfl, s, b, hx⟩
  rw [if_neg hx]
  have hx' : x ∉ nd.data.lastAccess := mt (carries_of_node hn).mpr hx
  refine ⟨_, _, rfl, ?_, ?_, ?_⟩
  · apply s.grow hn
    · intro y hy
      exact (touch_mem 0 nd.data).mpr (.inr hy)
    · intro _ y hy
      rcases (touch_mem 0 nd.data).mp hy with rfl | hy
      · exact hp
      · exact s.inherited n nd hn hne y hy
  · intro y
    rw [counted_addCount, b y]
    by_cases hy : y = x
    · subst hy
      have hsum := sum_modifyData (weight y) (g := NodeTenants.touch y 0) s.wf hn hne
      have hold : weight y nd.key nd.data = 0 := if_neg hx'
      have hnew : weight y nd.key (nd.data.touch y 0) = nd.key.charCount :=
        if_pos ((touch_mem 0 nd.data).mpr (.inl rfl))
      rw [if_pos rfl]
      omega
    · rw [if_neg hy, Nat.add_zero]
      apply (sum_same s.wf hn _).symm
      rw [touch_mem]
      exact ⟨fun h => h.resolve_left hy, .inr⟩
  · exact carries_modifyData.mpr ⟨nd, hn, by
      rw [if_pos rfl]
      exact (touch_mem 0 nd.data).mpr (.inl rfl)⟩

/-- Splitting a node copies its tenants to the upper half, so nothing is gained or lost. -/
theorem split_spec (s : Shape t) (b : Balanced t counts) (hc : t.nodes c = some cd) (hne : c ≠ t.root)
    (h0 : 0 < m) (hm : m < cd.key.charCount) :
    ∃ t' w wd, splitAt 1 t c m id id = (t', w) ∧ Shape t' ∧ Balanced t' counts ∧
      t'.nodes w = some wd ∧ w ≠ t'.root ∧ wd.key.charCount = m ∧ wd.parent = cd.parent ∧
      ∀ x, carries t' cd.parent x = carries t cd.parent x := by
  have hlen := s.cached c cd hc
  have hm' : m < (PagedKey.units cd.key).length := by
    show m < cd.key.text.length
    omega
  have hpne := s.wf.parent_ne hc hne
  obtain ⟨pd, hpd⟩ := s.wf.parent_node hc hne
  have hpn : cd.parent ≠ t.next := (s.wf.lt_next hpd).ne
  have hcore : ∀ y, y ≠ t.next → y ≠ c → ((splitAt 1 t c m id id).1.nodes y).map core =
      (t.nodes y).map core := fun y h₁ h₂ => core_splitAt s.wf hc hne h₁ h₂
  have hup : (splitAt 1 t c m id id).1.nodes t.next = _ := nodes_splitAt_upper s.wf hc hne
  have hlow : (splitAt 1 t c m id id).1.nodes c = _ := nodes_splitAt_lower s.wf hc hne
  set t' := (splitAt 1 t c m id id).1 with ht'
  have hroot : t'.root = t.root := splitAt_root
  have hparent : ∀ x, carries t' cd.parent x = carries t cd.parent x := fun x =>
    carries_congr (hcore cd.parent hpn hpne)
  refine ⟨t', t.next, _, ?_, ?_, ?_, hup, ?_, rfl, rfl, hparent⟩
  · rw [ht', ← splitAt_snd hc]
  · refine .of_nodes (s.wf.splitAt hc hne h0 hm' (one_dvd m)) ?_ ?_
    · exact AtRoot.split (P := fun k _ => k = empty) s.root_text s.wf hc hne
    · intro y yd hy
      -- the two halves have the tenants of the node, and all others those they had
      rcases nodes_splitAt_cases s.wf hc hne hy with ⟨_, rfl⟩ | ⟨_, rfl⟩ | ⟨_, _, yd₀, hy₀, hcy⟩
      · refine ⟨?_, fun _ => ⟨s.tenanted c cd hc hne, fun z hz => ?_⟩⟩
        · show m = (cd.key.text.take m).length
          rw [List.length_take]
          omega
        · exact (hparent z).trans (s.inherited c cd hc hne z hz)
      · refine ⟨?_, fun _ => ⟨s.tenanted c cd hc hne, fun z hz => (carries_of_node hup).mpr hz⟩⟩
        show cd.key.charCount - m = (cd.key.text.drop m).length
        rw [List.length_drop, hlen]
      · obtain ⟨hkey, hdata⟩ := core_eq hcy
        rw [← hkey, ← hdata, hroot, show yd.parent = yd₀.parent from (congrArg Prod.fst hcy).symm]
        refine ⟨s.cached y yd₀ hy₀, fun hyr => ⟨s.tenanted y yd₀ hy₀ hyr, fun z hz => ?_⟩⟩
        have hold := s.inherited y yd₀ hy₀ hyr z hz
        by_cases hyc : yd₀.parent = c
        · rw [hyc, carries_of_node hc] at hold
          rw [hyc, carries_of_node hlow]
          exact hold
        · obtain ⟨pd₀, hpd₀⟩ := s.wf.parent_node hy₀ hyr
          rw [carries_congr (hcore yd₀.parent (Nat.ne_of_lt (s.wf.lt_next hpd₀)) hyc)]
          exact hold
  · intro y
    have hsum := sum_splitAt (weight y) m id id s.wf hc hne
    have hsplit : weight y (PagedKey.take cd.key m) cd.data + weight y (PagedKey.drop cd.key m) cd.data =
        weight y cd.key cd.data := by
      unfold weight
      by_cases hy : y ∈ cd.data.lastAccess
      · rw [if_pos hy, if_pos hy, if_pos hy]
        show m + (cd.key.charCount - m) = cd.key.charCount
        omega
      · rw [if_neg hy, if_neg hy, if_neg hy]
    rw [b y]
    simp only [id_eq, ← ht'] at hsum
    omega
  · rw [hroot]
    exact Ne.symm (Nat.ne_of_lt s.wf.root_lt)

/-- A new leaf below a node that carries its tenant. -/
theorem addLeaf_spec (s : Shape t) (b : Balanced t counts) {p : ℕ} (epoch : ℕ) {firstChar : Char} (rest : Text)
    (hp : carries t p x = true) (hchild : t.child p [firstChar] = none) :
    Shape (t.addLeaf 1 p (new (firstChar :: rest)) ⟨singleton x epoch, some x⟩).1 ∧
      Balanced (t.addLeaf 1 p (new (firstChar :: rest)) ⟨singleton x epoch, some x⟩).1
        (addCount counts x (firstChar :: rest).length) := by
  obtain ⟨pd, hpd, _⟩ := carries_iff.mp hp
  set key := new (firstChar :: rest) with hkey
  set leaf : NodeTenants := ⟨singleton x epoch, some x⟩ with hleaf
  have hmem : ∀ y, y ∈ leaf.lastAccess ↔ y = x := by
    intro y
    show y ∈ (singleton x epoch : AList _).keys ↔ _
    simp [AList.singleton, AList.keys]
  have hpn : p ≠ t.next := Nat.ne_of_lt (s.wf.lt_next hpd)
  set t' := (t.addLeaf 1 p key leaf).1 with ht'
  have hcarry : ∀ q y, q ≠ t.next → carries t' q y = carries t q y := fun q y hq =>
    carries_congr (core_addLeaf s.wf hpd hq)
  constructor
  · refine .of_nodes (s.wf.addLeaf hpd hchild (List.cons_ne_nil _ _) (one_dvd _)) ?_ ?_
    · exact AtRoot.add (P := fun k _ => k = empty) s.root_text s.wf hpd
    · intro y yd hy
      rw [ht', addLeaf_root, ← ht']
      rcases nodes_addLeaf_cases s.wf hpd hy with ⟨_, rfl⟩ | ⟨_, yd₀, hy₀, hcy⟩
      · refine ⟨rfl, fun _ => ⟨⟨x, (hmem x).mpr rfl⟩, fun z hz => ?_⟩⟩
        rw [(hmem z).mp hz, hcarry p x hpn]
        exact hp
      · obtain ⟨hkey, hdata⟩ := core_eq hcy
        rw [← hkey, ← hdata, show yd.parent = yd₀.parent from (congrArg Prod.fst hcy).symm]
        refine ⟨s.cached y yd₀ hy₀, fun hyr => ⟨s.tenanted y yd₀ hy₀ hyr, fun z hz => ?_⟩⟩
        obtain ⟨pd₀, hpd₀⟩ := s.wf.parent_node hy₀ hyr
        rw [hcarry yd₀.parent z (Nat.ne_of_lt (s.wf.lt_next hpd₀))]
        exact s.inherited y yd₀ hy₀ hyr z hz
  · intro y
    rw [counted_addCount, b y, ht', sum_addLeaf (weight y) s.wf hpd]
    congr 1
    unfold weight
    by_cases hy : y = x
    · rw [if_pos hy, if_pos ((hmem y).mpr hy)]
      rfl
    · rw [if_neg hy, if_neg (mt (hmem y).mp hy)]

/-- The loop of `insert`, from a node that carries the tenant: it ends, and the shape and the balance hold. -/
theorem insertLoop_spec (epoch : ℕ) (hf : remaining.length < fuel) (s : Shape t) (b : Balanced t counts)
    (hx : carries t prev x = true) :
    ∃ t' counts', insertLoop x epoch fuel t counts prev remaining = some (t', counts') ∧
      Shape t' ∧ Balanced t' counts' := by
  induction fuel generalizing t counts prev remaining with
  | zero => omega
  | succ fuel ih =>
    obtain ⟨pd, hpd, hxp⟩ := carries_iff.mp hx
    cases remaining with
    | nil =>
      have hsame := touch_same epoch hxp
      exact ⟨_, _, rfl, s.same hpd hsame, b.same s.wf hpd hsame⟩
    | cons firstChar rest =>
      unfold insertLoop
      cases hchild : t.child prev [firstChar] with
      | none =>
        obtain ⟨hs, hb⟩ := addLeaf_spec s b epoch rest hx hchild
        exact ⟨_, _, rfl, hs, hb⟩
      | some c =>
        obtain ⟨cd, hcd, hne, hpar, hkey⟩ := (s.wf.child_eq_some hpd).mp hchild
        have hlen := s.cached c cd hcd
        have hhead : cd.key.text.head? = some firstChar := by
          have h := congrArg List.head? (show cd.key.text.take 1 = [firstChar] from hkey)
          rwa [List.head?_take] at h
        obtain ⟨hle, hle'⟩ := Text.sharedPrefixCount_le (firstChar :: rest) cd.key.text
        have hpos := Text.sharedPrefixCount_pos (a := firstChar :: rest) rfl hhead
        obtain ⟨shared, hshared⟩ : ∃ k, Text.sharedPrefixCount (firstChar :: rest) cd.key.text = k :=
          ⟨_, rfl⟩
        rw [hshared] at hle hle' hpos
        have hfuel : ((firstChar :: rest).drop shared).length < fuel := by
          rw [List.length_drop]
          omega
        have hparent : carries t cd.parent x = true := hpar ▸ hx
        by_cases hlt : shared < cd.key.charCount
        · obtain ⟨t₁, w, wd, hsplit, s₁, b₁, hwd, hwr, hwc, hwp, hwpar⟩ :=
            split_spec s b hcd hne hpos hlt
          obtain ⟨t₂, counts₂, hattach, s₂, b₂, hx₂⟩ := attach_spec s₁ b₁ hwd hwr (x := x) (by
            rw [hwp, hwpar]
            exact hparent)
          rw [hwc] at hattach
          obtain ⟨d, hd⟩ : ∃ d, (PagedKey.drop cd.key shared).firstChar = some d := by
            show ∃ d, (cd.key.text.drop shared).head? = some d
            rw [List.head?_drop]
            exact ⟨_, List.getElem?_eq_getElem (by omega)⟩
          obtain ⟨t₃, counts₃, hloop, s₃, b₃⟩ := ih hfuel s₂ b₂ hx₂
          refine ⟨t₃, counts₃, ?_, s₃, b₃⟩
          simp only [hcd, bind_eq_bind, bind_some, hshared, if_pos hlt,
            splitAtChar_eq hpos hlt, hd, hsplit, hattach, Text.advanceByChars_eq]
          exact hloop
        · obtain ⟨t₂, counts₂, hattach, s₂, b₂, hx₂⟩ := attach_spec s b hcd hne hparent
          obtain ⟨t₃, counts₃, hloop, s₃, b₃⟩ := ih hfuel s₂ b₂ hx₂
          refine ⟨t₃, counts₃, ?_, s₃, b₃⟩
          simp only [hcd, bind_eq_bind, bind_some, hshared, if_neg hlt, hattach, Text.advanceByChars_eq]
          exact hloop

namespace PrefixTree

variable {T : PrefixTree}

/-- The invariant of a tree. -/
structure Sound (T : PrefixTree) : Prop where
  shape : Shape T.nodes
  balanced : Balanced T.nodes T.tenantCharCount

theorem insert_spec (h : T.Sound) (text : Text) (tenant : TenantId) (epoch : ℕ) :
    ∃ T', T.insert text tenant epoch = some T' ∧ T'.Sound := by
  obtain ⟨rd, hr⟩ := h.shape.wf.root_node
  have s := h.shape.grow (g := enter tenant) hr (fun y hy => (enter_mem rd.data).mpr (.inr hy))
    fun hne => absurd rfl hne
  set counts := if tenant ∈ T.tenantCharCount then T.tenantCharCount
    else T.tenantCharCount.insert tenant 0 with hcounts
  have b : Balanced (T.nodes.modifyData T.nodes.root (enter tenant)) counts := by
    intro y
    rw [sum_modifyData_root (weight y), ← h.balanced y, hcounts]
    split
    · rfl
    · next hnew =>
      rw [counted_insert]
      split
      · next hy =>
        unfold counted
        rw [hy, lookup_eq_none.mpr hnew]
        rfl
      · rfl
  have hx : carries (T.nodes.modifyData T.nodes.root (enter tenant)) T.nodes.root tenant =
      true := carries_modifyData.mpr ⟨rd, hr, by
        rw [if_pos rfl]
        exact (enter_mem rd.data).mpr (.inl rfl)⟩
  obtain ⟨t', counts', hloop, s', b'⟩ :=
    insertLoop_spec epoch (Nat.lt_succ_self text.length) s b hx
  refine ⟨⟨t', counts'⟩, ?_, s', b'⟩
  show (insertLoop tenant epoch (text.length + 1) _ counts _ text).bind _ = _
  rw [modifyData_root, hloop]
  rfl

end PrefixTree

/-! ## Prefix matches -/

/-- The loop of the prefix matches ends at a node. -/
theorem matchLoop_spec (s : Shape t) (enters : NodeTenants → Bool) (matched : ℕ) (hf : remaining.length < fuel)
    (hprev : ∃ pd, t.nodes prev = some pd) :
    ∃ curr k nd, matchLoop t enters fuel prev remaining matched = some (curr, k) ∧ t.nodes curr = some nd := by
  induction fuel generalizing prev remaining matched with
  | zero => omega
  | succ fuel ih =>
    obtain ⟨pd, hpd⟩ := hprev
    cases remaining with
    | nil => exact ⟨prev, matched, pd, rfl, hpd⟩
    | cons firstChar rest =>
      unfold matchLoop
      cases hchild : t.child prev [firstChar] with
      | none => exact ⟨prev, matched, pd, rfl, hpd⟩
      | some c =>
        obtain ⟨cd, hcd, hne, hpar, hkey⟩ := (s.wf.child_eq_some hpd).mp hchild
        have htext : cd.key.text ≠ [] := s.wf.key_ne hcd hne
        have hlen := s.cached c cd hcd
        simp only [hcd, bind_eq_bind, bind_some, Text.advanceByChars_eq]
        split
        · split
          · next heq =>
            apply ih
            · have hpos : 0 < cd.key.text.length := List.length_pos_iff.mpr htext
              rw [List.length_drop]
              rw [List.length_cons] at hf ⊢
              omega
            · exact ⟨cd, hcd⟩
          · exact ⟨c, _, cd, rfl, hcd⟩
        · exact ⟨prev, matched, pd, rfl, hpd⟩

/-- The tenant chosen at a node is one of its tenants, unless it has none. -/
theorem chooseTenant_spec (order : List TenantId → List TenantId) (d : NodeTenants) :
    SameTenants d (chooseTenant order d).2 ∧
      ((chooseTenant order d).1 ∈ d.lastAccess ∨ ∀ y, y ∉ d.lastAccess) := by
  have hfirst : ((arrange order d.lastAccess.keys).head?).getD "empty" ∈ d.lastAccess ∨
      ∀ y, y ∉ d.lastAccess := by
    cases h : (arrange order d.lastAccess.keys).head? with
    | some y =>
      refine .inl ?_
      rw [getD_some, mem_keys, ← (arrange_perm order _).mem_iff]
      exact List.mem_of_mem_head? h
    | none =>
      refine .inr ?_
      intro y hy
      rw [mem_keys, ← (arrange_perm order _).mem_iff, List.head?_eq_none_iff.mp h] at hy
      cases hy
  unfold chooseTenant
  cases d.lastTenant with
  | none => exact ⟨fun _ => Iff.rfl, hfirst⟩
  | some x =>
    by_cases hx : x ∈ d.lastAccess
    · simp only [if_pos hx]
      exact ⟨fun _ => Iff.rfl, .inl hx⟩
    · simp only [if_neg hx]
      exact ⟨fun _ => Iff.rfl, hfirst⟩

namespace PrefixTree

variable {T : PrefixTree}

theorem prefixMatchWithCounts_spec (h : T.Sound) (text : Text) (order : List TenantId → List TenantId)
    (epoch : ℕ) : ∃ T' r, T.prefixMatchWithCounts text order epoch = some (T', r) ∧ T'.Sound := by
  obtain ⟨curr, k, nd, hloop, hnd⟩ := matchLoop_spec h.shape (fun _ => true) 0
    (Nat.lt_succ_self text.length) h.shape.wf.root_node
  obtain ⟨hsame, hmem⟩ := chooseTenant_spec order nd.data
  obtain ⟨tenant, data, hchoose⟩ : ∃ x d, chooseTenant order nd.data = (x, d) := ⟨_, _, rfl⟩
  rw [hchoose] at hsame hmem
  obtain ⟨data', hdata'⟩ : ∃ d, (if epoch % 8 = 0 then data.touch tenant epoch else data) = d :=
    ⟨_, rfl⟩
  have hrun : T.prefixMatchWithCounts text order epoch =
      some ({ T with nodes := T.nodes.modifyData curr fun _ => data' }, ⟨tenant, k, text.length⟩) := by
    simp only [prefixMatchWithCounts, bind_eq_bind]
    rw [hloop]
    simp only [bind_some, hnd, hchoose, hdata']
  refine ⟨_, _, hrun, ?_⟩
  by_cases hsame' : SameTenants nd.data data'
  · exact ⟨h.shape.same (g := fun _ => data') hnd hsame',
      h.balanced.same (g := fun _ => data') h.shape.wf hnd hsame'⟩
  -- only a node without tenants gets a new one, and that is the root
  have hnone : ∀ y, y ∉ nd.data.lastAccess := by
    refine hmem.resolve_left fun hin => hsame' ?_
    rw [← hdata']
    split
    · intro y
      rw [touch_same epoch ((hsame tenant).mpr hin) y]
      exact hsame y
    · exact hsame
  have hroot : curr = T.nodes.root := by
    by_contra hne
    obtain ⟨y, hy⟩ := h.shape.tenanted curr nd hnd hne
    exact hnone y hy
  subst hroot
  refine ⟨?_, ?_⟩
  · refine h.shape.grow (g := fun _ => data') hnd ?_ fun hne => absurd rfl hne
    intro y hy
    exact absurd hy (hnone y)
  · intro y
    rw [sum_modifyData_root (weight y)]
    exact h.balanced y

theorem prefixMatchTenant_spec (h : T.Sound) (text : Text) (tenant : TenantId) (epoch : ℕ) :
    ∃ T' r, T.prefixMatchTenant text tenant epoch = some (T', r) ∧ T'.Sound := by
  obtain ⟨curr, k, nd, hloop, hnd⟩ := matchLoop_spec h.shape
    (fun d => decide (tenant ∈ d.lastAccess)) 0 (Nat.lt_succ_self text.length) h.shape.wf.root_node
  refine ⟨_, text.take k, by
    simp only [prefixMatchTenant, bind_eq_bind]
    rw [hloop]
    simp only [bind_some, Text.takeChars_eq]
    rfl, ?_⟩
  split
  · next hx =>
    have hsame := touch_same epoch ((carries_of_node hnd).mp hx)
    exact ⟨h.shape.same hnd hsame, h.balanced.same h.shape.wf hnd hsame⟩
  · exact h

end PrefixTree

/-! ## Taking a tenant off a node -/

/-- The nodes after tenant `x` was taken off node `n`: the others are as before, and `n` has lost the tenant, or
is unlinked if it had no other. -/
structure Peeled (t : TenantNodes) (n : ℕ) (nd : Node NodeText Text NodeTenants) (x : TenantId)
    (t' : TenantNodes) : Prop where
  wf : WF 1 t'
  root_eq : t'.root = t.root
  next_eq : t'.next = t.next
  others : ∀ m, m ≠ n → (t'.nodes m).map core = (t.nodes m).map core
  node : (∃ nd', t'.nodes n = some nd' ∧ nd'.core = (nd.parent, nd.key, nd.data.leave x) ∧
      (n = t.root ∨ ∃ y, y ∈ (nd.data.leave x).lastAccess)) ∨
    n ≠ t.root ∧ t'.nodes n = none ∧ ∀ y ∈ nd.data.lastAccess, y = x

/-- The children of a node without the tenant have another one, which the node then has too. -/
theorem Shape.leave_nonempty (s : Shape t) (hn : t.nodes n = some nd)
    (hc : childCarries t n x = false) (h : nd.children.entries.isEmpty = false) :
    ∃ y, y ∈ (nd.data.leave x).lastAccess := by
  obtain ⟨c, cd, hcd, hne, hp⟩ : ∃ c cd, t.nodes c = some cd ∧ c ≠ t.root ∧ cd.parent = n := by
    by_contra hleaf
    have hempty := (s.wf.leaf_iff hn).mp fun c cd hcd hne hp => hleaf ⟨c, cd, hcd, hne, hp⟩
    simp [hempty] at h
  obtain ⟨y, hy⟩ := s.tenanted c cd hcd hne
  have hin := s.inherited c cd hcd hne y hy
  rw [hp, carries_of_node hn] at hin
  refine ⟨y, (leave_mem nd.data).mpr ⟨?_, hin⟩⟩
  rintro rfl
  exact (childCarries_eq_false s.wf hn).mp hc c cd hcd hne hp hy

theorem peel_spec (s : Shape t) (hn : t.nodes n = some nd) (hc : childCarries t n x = false) :
    ∃ t' parent, peel t n x = (t', parent) ∧ Peeled t n nd x t' ∧ parent = if n = t.root then none
        else if carries t' nd.parent x && !childCarries t' nd.parent x then some nd.parent else none := by
  have wf₁ : WF 1 (t.modifyData n (leave x)) := s.wf.modifyData
  have hn₁ := nodes_modifyData_self (g := leave x) hn
  have hothers : ∀ m, m ≠ n → ((t.modifyData n (leave x)).nodes m).map core = (t.nodes m).map core := by
    intro m hm
    rw [nodes_modifyData_ne hm]
  simp only [peel, hn]
  by_cases hroot : n = t.root
  · rw [if_pos (show n = (t.modifyData n (leave x)).root from hroot)]
    exact ⟨t.modifyData n (leave x), none, rfl,
      ⟨wf₁, rfl, rfl, hothers, .inl ⟨_, hn₁, rfl, .inl hroot⟩⟩, (if_pos hroot).symm⟩
  rw [if_neg (show n ≠ (t.modifyData n (leave x)).root from hroot)]
  have hfirst : nd.key.firstChar.isSome = true := by
    have htext : nd.key.text ≠ [] := s.wf.key_ne hn hroot
    unfold firstChar
    cases h : nd.key.text with
    | nil => exact absurd h htext
    | cons c text => rfl
  rw [hfirst, Bool.and_true]
  by_cases hbare : (nd.children.entries.isEmpty && (nd.data.lastAccess.erase x).entries.isEmpty) = true
  · rw [if_pos hbare]
    rw [Bool.and_eq_true] at hbare
    have hleaf : (t.modifyData n (leave x)).Leaf n := (wf₁.leaf_iff hn₁).mpr (List.isEmpty_iff.mp hbare.1)
    refine ⟨PageTree.removeLeaf 1 (t.modifyData n (leave x)) n, _, rfl,
      ⟨wf₁.removeLeaf hn₁ hroot hleaf, ?_, ?_, ?_, .inr ⟨hroot, ?_, ?_⟩⟩, (if_neg hroot).symm⟩
    · rw [removeLeaf_root, modifyData_root]
    · rw [removeLeaf_next, modifyData_next]
    · intro m hm
      rw [core_removeLeaf wf₁ hn₁ hroot hm]
      exact hothers m hm
    · exact nodes_removeLeaf_self hn₁
    · intro y hy
      by_contra hne
      have hmem : y ∈ nd.data.lastAccess.erase x := mem_erase.mpr ⟨hne, hy⟩
      rw [mem_keys, keys, List.isEmpty_iff.mp hbare.2] at hmem
      cases hmem
  · rw [if_neg hbare]
    refine ⟨t.modifyData n (leave x), _, rfl,
      ⟨wf₁, rfl, rfl, hothers, .inl ⟨_, hn₁, rfl, .inr ?_⟩⟩, (if_neg hroot).symm⟩
    rw [Bool.and_eq_true, not_and_or, Bool.not_eq_true, Bool.not_eq_true] at hbare
    rcases hbare with h | h
    · exact s.leave_nonempty hn hc h
    · cases he : (nd.data.lastAccess.erase x).entries with
      | nil =>
        rw [he] at h
        cases h
      | cons e es =>
        refine ⟨e.1, ?_⟩
        show e.1 ∈ nd.data.lastAccess.erase x
        rw [mem_keys, keys, he]
        exact List.mem_cons_self

namespace Peeled

variable (p : Peeled t n nd x t') (hn : t.nodes n = some nd)

include p hn

/-- Exactly one node has lost exactly one tenant. -/
theorem carries_iff' : carries t' m y = true ↔ carries t m y = true ∧ ¬ (m = n ∧ y = x) := by
  by_cases hm : m = n
  · subst hm
    rw [carries_of_node hn]
    rcases p.node with ⟨nd', hn', hcore, _⟩ | ⟨_, hn', honly⟩
    · have hdata : nd'.data = nd.data.leave x := congrArg (fun q => q.2.2) hcore
      rw [carries_of_node hn', hdata, leave_mem]
      tauto
    · have hfalse : carries t' m y = false := by
        unfold carries
        rw [hn']
        rfl
      rw [hfalse]
      constructor
      · intro h
        cases h
      · rintro ⟨hy, hne⟩
        exact absurd ⟨rfl, honly y hy⟩ hne
  · rw [carries_congr (p.others m hm)]
    simp [hm]

/-- A node of the new tree was there before, under the same parent and with the same text. -/
theorem source {md' : Node NodeText Text NodeTenants} (hm : t'.nodes m = some md') :
    ∃ md, t.nodes m = some md ∧ md.parent = md'.parent ∧ md.key = md'.key ∧
      ∀ y, y ∈ md'.data.lastAccess ↔ y ∈ md.data.lastAccess ∧ ¬ (m = n ∧ y = x) := by
  have hcarry : ∀ md, t.nodes m = some md → ∀ y, y ∈ md'.data.lastAccess ↔
      y ∈ md.data.lastAccess ∧ ¬ (m = n ∧ y = x) := by
    intro md hmd y
    rw [← carries_of_node hm, ← carries_of_node hmd]
    exact p.carries_iff' hn
  by_cases hmn : m = n
  · subst hmn
    rcases p.node with ⟨nd', hn', hcore, _⟩ | ⟨_, hn', _⟩
    · rw [hn'] at hm
      cases hm
      exact ⟨nd, hn, (congrArg Prod.fst hcore).symm, (congrArg (fun q => q.2.1) hcore).symm, hcarry nd hn⟩
    · rw [hn'] at hm
      cases hm
  · obtain ⟨md, hmd, hcore⟩ := core_some (p.others m hmn) hm
    exact ⟨md, hmd, congrArg Prod.fst hcore, (core_eq hcore).1, hcarry md hmd⟩

theorem shape (s : Shape t) (hc : childCarries t n x = false) : Shape t' := by
  refine ⟨p.wf, ?_, ?_, ?_, ?_⟩
  · intro rd' hr'
    obtain ⟨rd, hr, _, hk, _⟩ := p.source hn hr'
    rw [p.root_eq] at hr
    rw [← hk]
    exact s.root_text rd hr
  · intro m md' hm'
    obtain ⟨md, hm, _, hk, _⟩ := p.source hn hm'
    rw [← hk]
    exact s.cached m md hm
  · intro m md' hm' hne
    rw [p.root_eq] at hne
    by_cases hmn : m = n
    · subst hmn
      rcases p.node with ⟨nd', hn', hcore, hroot | ⟨y, hy⟩⟩ | ⟨_, hn', _⟩
      · exact absurd hroot hne
      · have hdata : nd'.data = nd.data.leave x := congrArg (fun q => q.2.2) hcore
        rw [hn'] at hm'
        cases hm'
        exact ⟨y, hdata ▸ hy⟩
      · rw [hn'] at hm'
        cases hm'
    · obtain ⟨md, hm, _, _, hmem⟩ := p.source hn hm'
      obtain ⟨y, hy⟩ := s.tenanted m md hm hne
      exact ⟨y, (hmem y).mpr ⟨hy, fun h => hmn h.1⟩⟩
  · intro m md' hm' hne y hy
    rw [p.root_eq] at hne
    obtain ⟨md, hm, hp, _, hmem⟩ := p.source hn hm'
    obtain ⟨hy₀, _⟩ := (hmem y).mp hy
    rw [← hp, p.carries_iff' hn]
    refine ⟨s.inherited m md hm hne y hy₀, ?_⟩
    -- the node that lost the tenant has no child with it
    rintro ⟨hpn, rfl⟩
    exact (childCarries_eq_false s.wf hn).mp hc m md hm hne hpn hy₀

omit hn in
theorem contrib_others (f : NodeText → NodeTenants → ℕ) (hm : m ≠ n) : t'.contrib f m = t.contrib f m :=
  contrib_congr f p.root_eq (p.others m hm)

omit hn in
/-- What the node is worth without the tenant, by a measure that gives nothing to a node without tenants. -/
theorem measured {f : NodeText → NodeTenants → ℕ} (h0 : ∀ k d, (∀ y, y ∉ d.lastAccess) → f k d = 0) :
    ((t'.nodes n).map fun md => f md.key md.data).getD 0 = f nd.key (nd.data.leave x) := by
  rcases p.node with ⟨nd', hn', hcore, _⟩ | ⟨_, hn', honly⟩
  · obtain ⟨hkey, hdata⟩ := core_eq (show nd'.core = core { nd with data := nd.data.leave x } from hcore)
    rw [hn', map_some, getD_some, hkey, hdata]
  · have hnone : ∀ y, y ∉ (nd.data.leave x).lastAccess := by
      intro y hy
      obtain ⟨hne, hin⟩ := (leave_mem nd.data).mp hy
      exact hne (honly y hin)
    rw [hn', h0 _ _ hnone]
    rfl

theorem sum_ne (hy : y ≠ x) : t'.sum (weight y) = t.sum (weight y) := by
  unfold PageTree.sum
  rw [p.next_eq]
  apply sum_congr rfl
  intro m _
  by_cases hm : m = n
  · subst hm
    have hkeep : y ∈ (nd.data.leave x).lastAccess ↔ y ∈ nd.data.lastAccess := by simp [leave_mem, hy]
    unfold contrib
    rw [p.root_eq, p.measured (f := weight y) fun _ _ h => if_neg (h y), hn, weight_congr nd.key hkeep]
    rfl
  · exact p.contrib_others (weight y) hm

/-- The tenant loses the characters of the node; the root has none. -/
theorem sum_self (s : Shape t) (hx : x ∈ nd.data.lastAccess) :
    t'.sum (weight x) + nd.key.charCount = t.sum (weight x) := by
  have hmem : n ∈ range t.next := mem_range.mpr (s.wf.lt_next hn)
  have hagree := sum_add_of_agree (F := t'.contrib (weight x)) (G := t.contrib (weight x)) hmem
    fun m _ hm => p.contrib_others (weight x) hm
  have hnode : t'.contrib (weight x) n = 0 ∧ t.contrib (weight x) n = nd.key.charCount := by
    unfold contrib
    rw [p.root_eq, p.measured (f := weight x) fun _ _ h => if_neg (h x), hn]
    split
    · next hroot =>
      subst hroot
      rw [s.root_text nd hn]
      exact ⟨rfl, rfl⟩
    · exact ⟨if_neg fun h => ((leave_mem nd.data).mp h).1 rfl, if_pos hx⟩
  unfold PageTree.sum
  rw [p.next_eq]
  omega

theorem tenantEntries_lt (s : Shape t) (hx : x ∈ nd.data.lastAccess) :
    tenantEntries t' + 1 = tenantEntries t := by
  have hmem : n ∈ range t.next := mem_range.mpr (s.wf.lt_next hn)
  have herase : (nd.data.lastAccess.erase x).entries.length + 1 = nd.data.lastAccess.entries.length := by
    have hkeys := List.length_erase_add_one (mem_keys.mp hx)
    rw [← keys_erase] at hkeys
    simpa only [keys, List.keys, List.length_map] using hkeys
  unfold tenantEntries
  rw [p.next_eq]
  set F := fun m => ((t'.nodes m).map fun md => md.data.lastAccess.entries.length).getD 0 with hF
  set G := fun m => ((t.nodes m).map fun md => md.data.lastAccess.entries.length).getD 0 with hG
  have hagree := sum_add_of_agree (F := F) (G := G) hmem fun m _ hm => congrArg (Option.getD · 0)
    (map_congr_core (fun _ (d : NodeTenants) => d.lastAccess.entries.length) (p.others m hm))
  have hold : G n = nd.data.lastAccess.entries.length := by
    show (Option.map _ (t.nodes n)).getD 0 = _
    rw [hn]
    rfl
  have hnew : F n = (nd.data.lastAccess.erase x).entries.length :=
    p.measured (f := fun _ d => d.lastAccess.entries.length) fun _ d h =>
      List.length_eq_zero_iff.mpr (List.eq_nil_iff_forall_not_mem.mpr fun e he =>
        h e.1 (mem_keys.mpr (List.mem_map_of_mem he)))
  show ∑ m ∈ range t.next, F m + 1 = ∑ m ∈ range t.next, G m
  omega

/-- The children with the tenant are those from before but the node itself. -/
theorem childCarries_eq_false' (hm : t'.nodes m = some nd') : childCarries t' m x = false ↔
    ∀ c cd, t.nodes c = some cd → c ≠ t.root → cd.parent = m → x ∈ cd.data.lastAccess → c = n := by
  rw [childCarries_eq_false p.wf hm, p.root_eq]
  constructor
  · intro h c cd hc hne hp hx
    by_contra hcn
    obtain ⟨cd', hc', hcore⟩ := core_some (p.others c hcn).symm hc
    obtain ⟨_, hdata⟩ := core_eq hcore
    exact h c cd' hc' hne ((congrArg Prod.fst hcore).trans hp) (hdata ▸ hx)
  · intro h c cd' hc' hne hp hx
    obtain ⟨cd, hc, hpar, _, hmem⟩ := p.source hn hc'
    obtain ⟨hx₀, hcn⟩ := (hmem x).mp hx
    exact hcn ⟨h c cd hc hne (hpar.trans hp) hx₀, rfl⟩

end Peeled

namespace PrefixTree

variable {T : PrefixTree} {queue : List ℕ}

/-! ## Eviction -/

theorem popMin_length {l rest : List EvictionEntry} {e : EvictionEntry} (h : popMin l = some (e, rest)) :
    rest.length + 1 = l.length := by
  induction l generalizing e rest with
  | nil => cases h
  | cons d es ih =>
    unfold popMin at h
    split at h
    · next hnone =>
      cases h
      cases es with
      | nil => rfl
      | cons d' es' =>
        unfold popMin at hnone
        split at hnone
        · cases hnone
        · split at hnone <;> cases hnone
    · next m rest' hsome =>
      have hlen := ih hsome
      split at h
      · cases h
        rfl
      · cases h
        rw [List.length_cons, List.length_cons, hlen]

/-- One entry keeps the books, and an entry is pushed only when a tenant was taken off a node. -/
theorem evictEntry_spec (h : T.Sound) (maxSize : ℕ) (e : EvictionEntry) :
    ∃ T' pushed, evictEntry maxSize T e = (T', pushed) ∧ T'.Sound ∧
      pushed.toList.length + tenantEntries T'.nodes ≤ tenantEntries T.nodes := by
  have hskip : (none : Option EvictionEntry).toList.length + tenantEntries T.nodes ≤
      tenantEntries T.nodes := by simp
  unfold evictEntry
  split
  · exact ⟨T, none, rfl, h, hskip⟩
  split
  · exact ⟨T, none, rfl, h, hskip⟩
  next nd hn =>
  split
  · next hlow =>
    rw [Bool.and_eq_true, Bool.not_eq_true'] at hlow
    have hx := (carries_of_node hn).mp hlow.1
    obtain ⟨t', parent, hpeel, p, _⟩ := peel_spec h.shape hn hlow.2
    rw [hpeel]
    refine ⟨_, _, rfl, ⟨p.shape hn h.shape hlow.2, ?_⟩, ?_⟩
    · intro y
      unfold counted
      rw [Dict.lookup_update]
      by_cases hy : y = e.tenant
      · subst hy
        have hsum := p.sum_self hn h.shape hx
        have hold := h.balanced e.tenant
        unfold counted at hold
        rw [if_pos rfl]
        cases hl : T.tenantCharCount.lookup e.tenant <;>
          simp only [hl, getD_none, getD_some, map_none, map_some] at hold ⊢ <;> omega
      · rw [if_neg hy, p.sum_ne hn hy]
        exact h.balanced y
    · have hentries := p.tenantEntries_lt hn h.shape hx
      have hone := length_toList_le (o := parent.bind fun q => entryOf t' q e.tenant)
      show _ + tenantEntries t' ≤ _
      omega
  · exact ⟨T, none, rfl, h, hskip⟩

theorem evictLoop_spec (maxSize : ℕ) (order : ℕ → List EvictionEntry → List EvictionEntry) (fuel : ℕ)
    {pq : List EvictionEntry} (h : T.Sound) (hf : pq.length + tenantEntries T.nodes ≤ fuel) :
    ∃ T', evictLoop maxSize order fuel T pq = some T' ∧ T'.Sound := by
  induction fuel generalizing T pq with
  | zero =>
    have hnil : pq = [] := List.eq_nil_of_length_eq_zero (by omega)
    subst hnil
    refine ⟨T, ?_, h⟩
    unfold evictLoop
    have : arrange (order 0) ([] : List EvictionEntry) = [] := (arrange_perm _ _).eq_nil
    rw [this]
    rfl
  | succ fuel ih =>
    unfold evictLoop
    cases hpop : popMin (arrange (order (fuel + 1)) pq) with
    | none => exact ⟨T, rfl, h⟩
    | some r =>
      obtain ⟨e, rest⟩ := r
      have hlen := popMin_length hpop
      rw [(arrange_perm _ _).length_eq] at hlen
      obtain ⟨T', pushed, hstep, h', hpushed⟩ := evictEntry_spec h maxSize e
      simp only [hstep]
      apply ih h'
      rw [List.length_append]
      omega

theorem evictTenantBySize_spec (h : T.Sound) (maxSize : ℕ)
    (order : ℕ → List EvictionEntry → List EvictionEntry) :
    ∃ T', T.evictTenantBySize maxSize order = some T' ∧ T'.Sound := by
  obtain ⟨visited, hvisit, _, _⟩ := h.shape.wf.visit
  unfold evictTenantBySize
  rw [hvisit]
  exact evictLoop_spec maxSize order _ h le_rfl

/-! ## Removal of a tenant -/

/-- The nodes that carry the tenant. -/
def carriers (t : TenantNodes) (x : TenantId) : Finset ℕ :=
  (Finset.range t.next).filter fun n => carries t n x = true

theorem mem_carriers (wf : WF 1 t) : n ∈ carriers t x ↔ carries t n x = true := by
  unfold carriers
  rw [mem_filter, mem_range, and_iff_right_iff_imp]
  intro h
  obtain ⟨nd, hn, _⟩ := carries_iff.mp h
  exact wf.lt_next hn

/-- The loop has in its queue the lowest nodes with the tenant. -/
structure Draining (x : TenantId) (t : TenantNodes) (queue : List ℕ) : Prop where
  shape : Shape t
  nodup : queue.Nodup
  lowest : ∀ n, n ∈ queue ↔ carries t n x = true ∧ childCarries t n x = false

/-- Taking the tenant off the first node: its parent joins the queue if no other child has the tenant. -/
theorem Draining.step (d : Draining x t (n :: queue)) :
    ∃ t' parent, peel t n x = (t', parent) ∧ Draining x t' (queue ++ parent.toList) ∧
      carriers t' x = (carriers t x).erase n ∧ ∀ y, y ≠ x → t'.sum (weight y) = t.sum (weight y) := by
  obtain ⟨hx, hc⟩ := (d.lowest n).mp List.mem_cons_self
  obtain ⟨nd, hn, hxn⟩ := carries_iff.mp hx
  obtain ⟨t', parent, hpeel, p, hparent⟩ := peel_spec d.shape hn hc
  have hshape := p.shape hn d.shape hc
  have hnq : n ∉ queue := (List.nodup_cons.mp d.nodup).1
  have hmem : ∀ m, m ∈ parent.toList ↔
      n ≠ t.root ∧ m = nd.parent ∧ carries t' m x = true ∧ childCarries t' m x = false := by
    intro m
    rw [hparent]
    by_cases hroot : n = t.root
    · simp [hroot]
    rw [if_neg hroot]
    by_cases hlow : (carries t' nd.parent x && !childCarries t' nd.parent x) = true
    · rw [if_pos hlow]
      rw [Bool.and_eq_true, Bool.not_eq_true'] at hlow
      constructor
      · intro h
        cases List.mem_singleton.mp h
        exact ⟨hroot, rfl, hlow⟩
      · rintro ⟨_, rfl, _⟩
        exact List.mem_singleton_self _
    · rw [if_neg hlow]
      constructor
      · intro h
        cases h
      · rintro ⟨_, rfl, h₁, h₂⟩
        rw [h₁, h₂] at hlow
        exact absurd rfl hlow
  -- the parent had a child with the tenant until now
  have hnew : ∀ m, m ∈ parent.toList → m ∉ queue := by
    intro m hm hq
    obtain ⟨hroot, rfl, hcarry, _⟩ := (hmem m).mp hm
    obtain ⟨pd, hp, _⟩ := carries_iff.mp ((p.carries_iff' hn).mp hcarry).1
    exact (childCarries_eq_false d.shape.wf hp).mp ((d.lowest _).mp (List.mem_cons_of_mem _ hq)).2 n nd hn
      hroot rfl hxn
  refine ⟨t', parent, hpeel, ⟨hshape, ?_, ?_⟩, ?_, fun y hy => p.sum_ne hn hy⟩
  · rw [List.nodup_append]
    refine ⟨(List.nodup_cons.mp d.nodup).2, ?_, ?_⟩
    · cases parent with
      | none => exact List.nodup_nil
      | some q => exact List.nodup_singleton q
    · rintro a ha b hb rfl
      exact hnew a hb ha
  · intro m
    rw [List.mem_append, hmem m]
    constructor
    · rintro (hq | ⟨_, _, h⟩)
      · obtain ⟨hcarry, hlow⟩ := (d.lowest m).mp (List.mem_cons_of_mem _ hq)
        have hcarry' := (p.carries_iff' hn).mpr ⟨hcarry, fun h => hnq (h.1 ▸ hq)⟩
        refine ⟨hcarry', ?_⟩
        obtain ⟨md', hm', _⟩ := carries_iff.mp hcarry'
        obtain ⟨md, hm, _⟩ := carries_iff.mp hcarry
        rw [p.childCarries_eq_false' hn hm']
        intro c cd hcd hne hp hxc
        exact absurd hxc ((childCarries_eq_false d.shape.wf hm).mp hlow c cd hcd hne hp)
      · exact h
    · rintro ⟨hcarry', hlow'⟩
      obtain ⟨hcarry, hmn⟩ := (p.carries_iff' hn).mp hcarry'
      obtain ⟨md', hm', _⟩ := carries_iff.mp hcarry'
      obtain ⟨md, hm, _⟩ := carries_iff.mp hcarry
      by_cases hpar : n ≠ t.root ∧ m = nd.parent
      · exact .inr ⟨hpar.1, hpar.2, hcarry', hlow'⟩
      left
      -- a node that is not the parent has the children with the tenant that it had
      have hlow : childCarries t m x = false := by
        rw [childCarries_eq_false d.shape.wf hm]
        intro c cd hcd hne hp hxc
        cases (p.childCarries_eq_false' hn hm').mp hlow' c cd hcd hne hp hxc
        cases hn.symm.trans hcd
        exact hpar ⟨hne, hp.symm⟩
      rcases List.mem_cons.mp ((d.lowest m).mpr ⟨hcarry, hlow⟩) with rfl | hq
      · exact absurd ⟨rfl, rfl⟩ hmn
      · exact hq
  · ext m
    rw [mem_carriers hshape.wf, Finset.mem_erase, mem_carriers d.shape.wf, p.carries_iff' hn]
    tauto

/-- When the queue is empty, no node has the tenant: a lowest one would be in the queue. -/
theorem Draining.empty (d : Draining x t []) : t.sum (weight x) = 0 := by
  have hnone : ∀ n nd, t.nodes n = some nd → x ∉ nd.data.lastAccess := by
    intro n nd hn hx
    obtain ⟨m, md, hm, hxm, hlow⟩ := d.shape.wf.exists_lowest (fun _ nd => x ∈ nd.data.lastAccess) hn hx
    cases (d.lowest m).mpr ⟨(carries_of_node hm).mpr hxm, (childCarries_eq_false d.shape.wf hm).mpr hlow⟩
  exact sum_zero (weight x) fun n nd hn _ => if_neg (hnone n nd hn)

theorem removeLoop_spec (fuel : ℕ) (d : Draining x t queue) (hf : (carriers t x).card ≤ fuel) :
    ∃ t', removeLoop x fuel t queue = some t' ∧ Shape t' ∧ t'.sum (weight x) = 0 ∧
      ∀ y, y ≠ x → t'.sum (weight y) = t.sum (weight y) := by
  have hfirst {t n queue} (d : Draining x t (n :: queue)) : n ∈ carriers t x :=
    (mem_carriers d.shape.wf).mpr ((d.lowest n).mp List.mem_cons_self).1
  fun_induction removeLoop x fuel t queue with
  | case1 fuel t => exact ⟨t, rfl, d.shape, d.empty, fun _ _ => rfl⟩
  | case2 t n queue =>
    have := card_pos.mpr ⟨n, hfirst d⟩
    omega
  | case3 fuel t n queue t₁ parent hpeel ih =>
    obtain ⟨_, _, hpeel', d₁, hcar, hsum₁⟩ := d.step
    cases hpeel.symm.trans hpeel'
    have hcard : (carriers t₁ x).card ≤ fuel := by
      rw [hcar, card_erase_of_mem (hfirst d)]
      omega
    obtain ⟨t', hloop, hshape, hzero, hsum⟩ := ih d₁ hcard
    exact ⟨t', hloop, hshape, hzero, fun y hy => (hsum y hy).trans (hsum₁ y hy)⟩

theorem removeTenant_spec (h : T.Sound) (tenant : TenantId) (order : List ℕ → List ℕ) :
    ∃ T', T.removeTenant tenant order = some T' ∧ T'.Sound := by
  obtain ⟨visited, hvisit, hnodup, hall⟩ := h.shape.wf.visit
  have d : Draining tenant T.nodes (arrange order (visited.filter fun n =>
      carries T.nodes n tenant && !childCarries T.nodes n tenant)) := by
    refine ⟨h.shape, (arrange_perm order _).nodup_iff.mpr (hnodup.filter _), ?_⟩
    intro n
    rw [(arrange_perm order _).mem_iff, List.mem_filter, Bool.and_eq_true, Bool.not_eq_true', hall,
      and_iff_right_iff_imp]
    rintro ⟨hx, _⟩
    obtain ⟨nd, hn, _⟩ := carries_iff.mp hx
    exact ⟨nd, hn⟩
  have hcard : (carriers T.nodes tenant).card ≤ T.nodes.next + 1 := by
    apply le_trans (card_filter_le _ _)
    rw [card_range]
    omega
  obtain ⟨t', hloop, hshape, hzero, hsum⟩ := removeLoop_spec (T.nodes.next + 1) d hcard
  refine ⟨⟨t', T.tenantCharCount.erase tenant⟩, ?_, hshape, ?_⟩
  · unfold removeTenant
    rw [hvisit]
    show (removeLoop _ _ _ _ >>= _) = _
    rw [hloop]
    rfl
  · intro y
    by_cases hy : y = tenant
    · subst hy
      unfold counted
      rw [lookup_erase, hzero]
      rfl
    · unfold counted
      rw [lookup_erase_ne hy, hsum y hy]
      exact h.balanced y

/-! ## Sequences of calls -/

theorem new_sound : new.Sound := by
  refine ⟨.of_nodes (WF.single Nat.one_pos) (fun nd hn => ?_) fun n nd hn => ?_, fun x => rfl⟩
  · rw [(nodes_single hn).2]
  · obtain ⟨rfl, rfl⟩ := nodes_single hn
    exact ⟨rfl, fun hne => absurd rfl hne⟩

theorem apply_spec (h : T.Sound) (op : Operation) : ∃ T', T.apply op = some T' ∧ T'.Sound := by
  cases op with
  | insert text tenant epoch => exact insert_spec h text tenant epoch
  | prefixMatchWithCounts text order epoch =>
    obtain ⟨T', r, hrun, h'⟩ := prefixMatchWithCounts_spec h text order epoch
    exact ⟨T', by rw [apply, hrun]; rfl, h'⟩
  | prefixMatchTenant text tenant epoch =>
    obtain ⟨T', r, hrun, h'⟩ := prefixMatchTenant_spec h text tenant epoch
    exact ⟨T', by rw [apply, hrun]; rfl, h'⟩
  | evictTenantBySize maxSize order => exact evictTenantBySize_spec h maxSize order
  | removeTenant tenant order => exact removeTenant_spec h tenant order

theorem run_spec (h : T.Sound) (ops : List Operation) : ∃ T', ops.foldlM apply T = some T' ∧ T'.Sound := by
  induction ops generalizing T with
  | nil => exact ⟨T, rfl, h⟩
  | cons op ops ih =>
    obtain ⟨T₁, h₁, hs₁⟩ := apply_spec h op
    obtain ⟨T', h', hs'⟩ := ih hs₁
    refine ⟨T', ?_, hs'⟩
    rw [List.foldlM_cons, h₁]
    exact h'

/-- The tree is accounted for: every node is below the root, the count of a tenant is the sum of the characters
of the nodes that carry it, lengths are cached right, tenants are inherited, and a node other than the root has
text, has a tenant, and is a child of its parent under its first character and of no other node. -/
structure Accounts (T : PrefixTree) : Prop where
  rooted : ∀ n nd, T.nodes.nodes n = some nd → n < T.nodes.next ∧ ∃ path, T.nodes.Path n path
  counts : ∀ x, (T.tenantCharCount.lookup x).getD 0 = ∑ n ∈ Finset.range T.nodes.next,
    ((T.nodes.nodes n).map fun nd => if x ∈ nd.data.lastAccess then nd.key.charCount else 0).getD 0
  cached : ∀ n nd, T.nodes.nodes n = some nd → nd.key.charCount = nd.key.text.length
  inherited : ∀ n nd, T.nodes.nodes n = some nd → n ≠ T.nodes.root →
    ∃ pd, T.nodes.nodes nd.parent = some pd ∧ ∀ x ∈ nd.data.lastAccess, x ∈ pd.data.lastAccess
  inhabited : ∀ n nd, T.nodes.nodes n = some nd → n ≠ T.nodes.root →
    nd.key.text ≠ [] ∧ ∃ x, x ∈ nd.data.lastAccess
  stored : ∀ n nd, T.nodes.nodes n = some nd → n ≠ T.nodes.root →
    ∀ p pd, T.nodes.nodes p = some pd → ∀ c,
      pd.children.lookup c = some n ↔ p = nd.parent ∧ c = nd.key.text.take 1

theorem Sound.accounts (h : T.Sound) : T.Accounts := by
  refine ⟨?_, ?_, h.shape.cached, ?_, ?_, ?_⟩
  · intro n nd hn
    exact ⟨h.shape.wf.lt_next hn, h.shape.wf.path hn⟩
  · intro x
    rw [show (T.tenantCharCount.lookup x).getD 0 = _ from h.balanced x]
    apply sum_congr rfl
    intro n _
    unfold contrib
    split
    · -- the root has no characters
      next hroot =>
        subst hroot
        obtain ⟨rd, hr⟩ := h.shape.wf.root_node
        rw [hr, map_some, getD_some, h.shape.root_text rd hr]
        exact (ite_self 0).symm
    · rfl
  · intro n nd hn hne
    obtain ⟨pd, hp⟩ := h.shape.wf.parent_node hn hne
    refine ⟨pd, hp, ?_⟩
    intro x hx
    exact (carries_of_node hp).mp (h.shape.inherited n nd hn hne x hx)
  · intro n nd hn hne
    exact ⟨h.shape.wf.key_ne hn hne, h.shape.tenanted n nd hn hne⟩
  · intro n nd hn hne p pd hp c
    rw [h.shape.wf.child_iff hp c n]
    constructor
    · rintro ⟨nd', hn', _, hpar, hck⟩
      rw [hn] at hn'
      cases hn'
      exact ⟨hpar.symm, hck.symm⟩
    · rintro ⟨rfl, rfl⟩
      exact ⟨nd, hn, hne, rfl, rfl⟩

/-- **The prefix tree keeps its accounts.** Every sequence of calls, on any texts and tenants and whatever the
orders of iteration are, ends without a panic in a tree that is accounted for. -/
theorem run_accounts (ops : List Operation) : ∃ T, run ops = some T ∧ T.Accounts := by
  obtain ⟨T, hrun, h⟩ := run_spec new_sound ops
  exact ⟨T, hrun, h.accounts⟩

end PrefixTree

end SGLang.Gateway
