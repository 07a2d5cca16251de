/-
# SGLang.Managers.PrefillMemory — what a prefill round admits fits into the memory.

A round keeps two things (`Planned`): the offset of the budget is at least its initial value plus the pages
of the admitted requests, and these pages are no more than what is available or evictable. A request is
admitted after a look at the budget under the lock of its own prefix, so that its pages fit with the prefix
protected; when the lock is given back without an admission, the tree is as it was before.

The budget starts from an estimate of what the running requests will still produce. That estimate is not
clamped: a running request that is beyond its `max_new_tokens` lowers the offset. A round is safe from every
consistent state exactly if the initial offset is at least `-(page_size + 1)` (`round_allocates_iff`), the
slack of the page that `add_one_req` adds to every request and of its strict comparison.
-/
import SGLang.Managers.PrefillAdder
import SGLang.MemCache.KVRoom

namespace SGLang.MemCache

open SGLang.Lib SGLang.Lib.PageTree
open RadixCache (Accounting)

variable {cfg : Config} {ps n : ℕ} {now : ℤ} {key : RadixKey} {c c' : RadixCache} {r : MatchResult}
variable {locks l : List ℕ} {σ : KVState}

theorem RadixCache.matchPrefix_evictableSize (h : c.matchPrefix cfg now key = .ok (c', r)) :
    c'.evictableSize = c.evictableSize := by
  simp only [matchPrefix] at h
  split at h
  · cases h
    rfl
  · split at h
    · cases h
      rfl
    · cases hm : matchPrefixHelper cfg.pageSize now c.tree
          ((key.maybeToBigramView cfg.isEagle ([] : List ℕ)).1.pageAligned cfg.pageSize) with
      | error e =>
        rw [hm] at h
        cases h
      | ok p =>
        rw [hm] at h
        cases h
        rfl

theorem RadixCache.len_lookupKey_le (cfg : Config) (key : RadixKey) :
    (lookupKey cfg key).len ≤ key.tokenIds.length := by
  obtain ⟨tokens, extra, bigram⟩ := key
  rw [lookupKey, RadixKey.len_pageAligned]
  refine (Nat.div_mul_le_self _ _).trans ?_
  unfold RadixKey.maybeToBigramView
  split <;> simp only [RadixKey.len] <;> split <;> (try split) <;> omega

/-- `c'` is `c` with one more lock on the path `l` of `n`. -/
structure RadixCache.Locked (ps : ℕ) (locks l : List ℕ) (n : ℕ) (c c' : RadixCache) : Prop where
  acc : Accounting ps c' (n :: locks)
  tree_eq : c'.tree = c.tree.modifyAll l.reverse (NodeData.addLock 1)

/-- Giving the lock back restores the tree. -/
theorem RadixCache.Locked.decLockRef (h : Locked ps locks l n c c') (hl : c.tree.Path n l) :
    ∃ c₁ δ, c'.decLockRef n = (c₁, .ok δ) ∧ Accounting ps c₁ locks ∧ c₁.tree = c.tree := by
  have hpath : c'.tree.Path n l := by
    rw [h.tree_eq]
    exact path_modifyAll.mpr hl
  obtain ⟨c₁, δ, hdec, hacc, htree⟩ := decLockRef_spec h.acc hpath List.mem_cons_self
  refine ⟨c₁, δ, hdec, ?_, ?_⟩
  · rwa [List.erase_cons_head] at hacc
  · rw [htree, h.tree_eq]
    apply modifyAll_cancel (List.nodup_reverse.mpr hl.nodup)
    intro d
    simp [NodeData.addLock]

namespace KVState

/-- Another cache with the same pages in its tree. -/
theorem Consistent.withCache (h : Consistent cfg σ) (hacc : Accounting cfg.pageSize c locks)
    (hholds : c.tree.HoldsPages cfg.pageSize NodeData.value)
    (hpages : c.tree.slotPages cfg.pageSize NodeData.value =
      σ.cache.tree.slotPages cfg.pageSize NodeData.value) :
    Consistent cfg { σ with cache := c } :=
  ⟨h.settled, ⟨locks, hacc⟩, hholds, hpages ▸ h.nodup⟩

/-- Locks do not change what the tree holds. -/
theorem Consistent.locked (h : Consistent cfg σ)
    (hlocked : RadixCache.Locked cfg.pageSize locks l n σ.cache c) : Consistent cfg { σ with cache := c } := by
  have hkeep : KeepsPages cfg.pageSize NodeData.value σ.cache.tree c.tree :=
    hlocked.tree_eq ▸ keepsPages_modifyAll fun _ => rfl
  obtain ⟨hholds, hpages⟩ := hkeep.pages h.holds
  exact h.withCache hlocked.acc hholds hpages

end KVState

end SGLang.MemCache

namespace SGLang.Managers

open SGLang.Lib SGLang.Lib.PageTree SGLang.MemCache
open RadixCache (pairConfig Locked Accounting)

variable {cfg : Config} {ps n : ℕ} {locks l : List ℕ} {off₀ : ℚ}

namespace PrefillAdder

variable {a : PrefillAdder} {c : RadixCache} {req : PrefillReq} {len : ℕ} {chunk : ℤ}
variable {align : Option ℕ+} {running : List RunningReq}

/-! ## Locks -/

/-- The adder over another cache. -/
def withCache (a : PrefillAdder) (c : RadixCache) : PrefillAdder :=
  { a with kv := { a.kv with cache := c } }

theorem lockNode_spec (hacc : Accounting ps a.kv.cache locks) (hl : a.kv.cache.tree.Path n l) :
    ∃ c, a.lockNode n = .ok (a.withCache c) ∧ Locked ps locks l n a.kv.cache c := by
  obtain ⟨c, δ, hinc, hacc', htree⟩ := RadixCache.incLockRef_spec hacc hl
  refine ⟨c, ?_, hacc', htree⟩
  rw [lockNode, hinc]
  rfl

theorem unlockNode_spec {c₁ : RadixCache} (h : Locked ps locks l n c₁ a.kv.cache) (hl : c₁.tree.Path n l) :
    ∃ c, a.unlockNode n = .ok (a.withCache c) ∧ Accounting ps c locks ∧ c.tree = c₁.tree := by
  obtain ⟨c, δ, hdec, hacc, htree⟩ := h.decLockRef hl
  refine ⟨c, ?_, hacc, htree⟩
  rw [unlockNode, hdec]
  rfl

/-! ## The budget of a round -/

/-- The tokens of the pages that the admitted requests may take. -/
def planned (ps : ℕ) (a : PrefillAdder) : ℕ :=
  (a.canRunList.map fun r => ceilPagedTokens ps r.extendInputLen).sum

/-- The budget is charged for every admitted request. -/
structure Charged (cfg : Config) (off₀ : ℚ) (a : PrefillAdder) : Prop where
  kv : KVState.Consistent cfg a.kv
  charged : off₀ + a.planned cfg.pageSize ≤ a.remTotalTokenOffset
  extend_eq : ∀ r ∈ a.canRunList, r.fillIds.length = r.prefixIndices.length + r.extendInputLen

/-- The budget is charged, and what was planned fits. -/
structure Planned (cfg : Config) (off₀ : ℚ) (a : PrefillAdder) : Prop extends Charged cfg off₀ a where
  fits : (a.planned cfg.pageSize : ℤ) ≤ a.availableAndEvictable

theorem dvd_planned : ps ∣ a.planned ps := by
  apply List.dvd_sum
  intro x hx
  obtain ⟨r, -, rfl⟩ := List.mem_map.mp hx
  exact Nat.dvd_mul_left _ _

theorem Charged.dvd_availableAndEvictable (h : Charged cfg off₀ a) :
    (cfg.pageSize : ℤ) ∣ a.availableAndEvictable := by
  obtain ⟨locks, hacc⟩ := h.kv.acc
  apply dvd_add
  · rw [Allocator.availableSize_eq, h.kv.settled.pageSize_eq]
    exact Int.natCast_dvd_natCast.mpr (Nat.dvd_mul_left _ _)
  · exact hacc.dvd_evictableSize

/-- The cache may change as long as the memory stays consistent. -/
theorem Charged.withCache (h : Charged cfg off₀ a)
    (hkv : KVState.Consistent cfg { a.kv with cache := c }) : Charged cfg off₀ (a.withCache c) :=
  ⟨hkv, h.charged, h.extend_eq⟩

/-- A new adder over a consistent memory. -/
theorem init_planned {kv : KVState} (limits : Limits) (ratio : ℚ) (mixed : ℕ)
    (running : List RunningReq) (hkv : KVState.Consistent cfg kv) :
    Planned cfg (initialOffset ratio mixed running) (init kv limits ratio mixed running) := by
  obtain ⟨locks, hacc⟩ := hkv.acc
  refine ⟨⟨hkv, ?_, ?_⟩, ?_⟩
  · simp [init, planned]
  · intro r hr
    simp [init] at hr
  · have := hacc.evictableSize_nonneg
    simp only [init, planned, availableAndEvictable, List.map_nil, List.sum_nil, Nat.cast_zero]
    positivity

/-- The comparison of `add_one_req` leaves room for the pages of the request: with an initial offset of at
least `-(page_size + 1)` the request and what was planned are within what there is, and both sides are
whole pages. -/
theorem Charged.fits_of_room (hps : 0 < cfg.pageSize) (hoff : -(cfg.pageSize + 1 : ℚ) ≤ off₀)
    (h : Charged cfg off₀ a) (hroom : ¬ a.remTotalTokens ≤ totalTokens cfg.pageSize req)
    (hlen : len ≤ req.extendInputLen) :
    ((a.planned cfg.pageSize + ceilPagedTokens cfg.pageSize len : ℕ) : ℤ) ≤ a.availableAndEvictable := by
  have hlt : ((a.planned cfg.pageSize + req.extendInputLen : ℕ) : ℚ) <
      ((a.availableAndEvictable + 1 : ℤ) : ℚ) := by
    have hcharged := h.charged
    have htotal : ((req.extendInputLen + cfg.pageSize : ℕ) : ℚ) ≤ totalTokens cfg.pageSize req := by
      apply Nat.cast_le.mpr
      unfold totalTokens
      omega
    rw [remTotalTokens, not_le] at hroom
    push_cast at htotal ⊢
    linarith
  have hle : (a.planned cfg.pageSize : ℤ) + req.extendInputLen ≤ a.availableAndEvictable := by
    have : ((a.planned cfg.pageSize + req.extendInputLen : ℕ) : ℤ) < a.availableAndEvictable + 1 := by
      exact_mod_cast hlt
    push_cast at this
    omega
  obtain ⟨d, hd⟩ : (cfg.pageSize : ℤ) ∣ a.availableAndEvictable - a.planned cfg.pageSize :=
    dvd_sub h.dvd_availableAndEvictable (Int.natCast_dvd_natCast.mpr dvd_planned)
  have hd0 : 0 ≤ d := by
    by_contra hneg
    have : (cfg.pageSize : ℤ) * d < 0 := mul_neg_of_pos_of_neg (by omega) (by omega)
    omega
  obtain ⟨k, rfl⟩ := Int.eq_ofNat_of_zero_le hd0
  have hk : len ≤ k * cfg.pageSize := by
    have : ((k * cfg.pageSize : ℕ) : ℤ) = cfg.pageSize * k := by
      push_cast
      exact mul_comm _ _
    omega
  have hceil : ceilPagedTokens cfg.pageSize len ≤ k * cfg.pageSize := by
    apply Nat.mul_le_mul_right
    exact (pageCount_mono hk).trans (pageCount_mul hps).le
  have : ((k * cfg.pageSize : ℕ) : ℤ) = cfg.pageSize * k := by
    push_cast
    exact mul_comm _ _
  push_cast
  omega

/-! ## One admission -/

/-- An admitted request is locked and charged. -/
theorem Charged.take (inputTokens maxNewTokens : ℕ) (h : Charged cfg off₀ a)
    (hacc : Accounting cfg.pageSize a.kv.cache locks) (hl : a.kv.cache.tree.Path req.lastNode l)
    (hreq : req.fillIds.length = req.prefixIndices.length + req.extendInputLen)
    (hin : req.extendInputLen ≤ inputTokens) :
    ∃ a', a.take cfg.pageSize req inputTokens maxNewTokens = .ok a' ∧
      Locked cfg.pageSize locks l req.lastNode a.kv.cache a'.kv.cache ∧
      a'.kv.allocator = a.kv.allocator ∧ Charged cfg off₀ a' ∧ a'.planned cfg.pageSize =
        a.planned cfg.pageSize + ceilPagedTokens cfg.pageSize req.extendInputLen := by
  obtain ⟨c, hlock, hlocked⟩ :=
    lockNode_spec (a := { a with canRunList := a.canRunList ++ [req] }) hacc hl
  have hplanned : ((a.canRunList ++ [req]).map fun r =>
      ceilPagedTokens cfg.pageSize r.extendInputLen).sum =
        a.planned cfg.pageSize + ceilPagedTokens cfg.pageSize req.extendInputLen := by
    simp [planned]
  refine ⟨(({ a with canRunList := a.canRunList ++ [req] } : PrefillAdder).withCache c).updatePrefillBudget
    cfg.pageSize inputTokens maxNewTokens, ?_, hlocked, rfl, ⟨?_, ?_, ?_⟩, hplanned⟩
  · rw [PrefillAdder.take, hlock]
    rfl
  · exact h.kv.locked hlocked
  · have hceil : (ceilPagedTokens cfg.pageSize req.extendInputLen : ℚ) ≤
        ceilPagedTokens cfg.pageSize inputTokens :=
      Nat.cast_le.mpr (Nat.mul_le_mul_right _ (pageCount_mono hin))
    have hcharged := h.charged
    show off₀ + (((a.canRunList ++ [req]).map fun r =>
        ceilPagedTokens cfg.pageSize r.extendInputLen).sum : ℕ) ≤ a.remTotalTokenOffset +
      (ceilPagedTokens cfg.pageSize inputTokens + maxNewTokens + cfg.pageSize : ℕ)
    rw [hplanned]
    push_cast
    linarith
  · intro r hr
    rcases List.mem_append.mp hr with hr | hr
    · exact h.extend_eq r hr
    · rw [List.mem_singleton.mp hr]
      exact hreq

/-- A chunk is shorter than the input it is cut from. -/
theorem truncLen_lt (hps : 0 < ps) (hlong : chunk < ceilPagedTokens ps n)
    (h : truncLen ps chunk align = some len) : len < n := by
  have hle : len ≤ (chunk / ps * ps).toNat := by
    simp only [truncLen] at h
    split at h
    · cases h
    · cases align with
      | none =>
        cases h
        exact le_rfl
      | some size =>
        dsimp only at h
        split at h
        · cases h
        · cases h
          exact Nat.mul_div_le _ _
  have hpos : (chunk / ps * ps).toNat ≠ 0 := by
    intro hzero
    simp [truncLen, hzero] at h
  -- the chunk has fewer pages than the input, so all of them are full pages of it
  have hpages : chunk / ps < pageCount ps n := by
    have hmul : chunk / ps * ps ≤ chunk := Int.ediv_mul_le _ (by omega)
    by_contra hge
    have : (pageCount ps n : ℤ) * ps ≤ chunk / ps * ps :=
      Int.mul_le_mul_of_nonneg_right (not_lt.mp hge) (by omega)
    unfold ceilPagedTokens at hlong
    push_cast at hlong
    omega
  have hnonneg : 0 ≤ chunk / ps := by
    by_contra hneg
    have : chunk / ps * ps < 0 := mul_neg_of_neg_of_pos (by omega) (by omega)
    omega
  obtain ⟨k, hk⟩ := Int.eq_ofNat_of_zero_le hnonneg
  rw [hk] at hle hpages
  have hkn : k * ps < n := (lt_pageCount_iff hps).mp (by exact_mod_cast hpages)
  have hcast : ((k : ℤ) * ps).toNat = k * ps := by
    rw [← Nat.cast_mul, Int.toNat_natCast]
  rw [hcast] at hle
  omega

/-- Under the lock of its prefix the request is left alone, or admitted with what fits. -/
theorem Charged.addLocked (align : Option ℕ+) (hps : 0 < cfg.pageSize) (hoff : -(cfg.pageSize + 1 : ℚ) ≤ off₀)
    (h : Charged cfg off₀ a) (hacc : Accounting cfg.pageSize a.kv.cache locks)
    (hl : a.kv.cache.tree.Path req.lastNode l)
    (hreq : req.fillIds.length = req.prefixIndices.length + req.extendInputLen) :
    ∃ a' early, a.addLocked cfg.pageSize req align = .ok (a', early) ∧
      (a' = a ∨ Locked cfg.pageSize locks l req.lastNode a.kv.cache a'.kv.cache ∧
        a'.kv.allocator = a.kv.allocator ∧ Charged cfg off₀ a' ∧
        (a'.planned cfg.pageSize : ℤ) ≤ a.availableAndEvictable) := by
  unfold PrefillAdder.addLocked
  split
  · exact ⟨a, _, rfl, .inl rfl⟩
  · next hroom =>
    -- a request that is taken as it is
    obtain ⟨a', htake, hlocked, halloc, hcharged, hplanned⟩ := h.take
      (ceilPagedTokens cfg.pageSize req.extendInputLen) (min req.maxNewTokens clipMaxNewTokens)
      hacc hl hreq (le_pageCount_mul hps)
    have hfits : (a'.planned cfg.pageSize : ℤ) ≤ a.availableAndEvictable := by
      rw [hplanned]
      exact h.fits_of_room hps hoff hroom le_rfl
    dsimp only
    split
    · exact ⟨a, _, rfl, .inl rfl⟩
    · split
      · exact ⟨a', none, by rw [htake]; rfl, .inr ⟨hlocked, halloc, hcharged, hfits⟩⟩
      · split
        · exact ⟨a', none, by rw [htake]; rfl, .inr ⟨hlocked, halloc, hcharged, hfits⟩⟩
        · next chunk _ hlong =>
          split
          · exact ⟨a, _, rfl, .inl rfl⟩
          · next len hlen =>
            have hlt : len < req.extendInputLen := truncLen_lt hps (not_le.mp hlong) hlen
            have hcut : (truncate req len).fillIds.length =
                (truncate req len).prefixIndices.length + (truncate req len).extendInputLen := by
              simp only [truncate, List.length_take]
              omega
            have hch : Charged cfg off₀ { a with newChunkedReq := some (truncate req len) } :=
              { h with }
            obtain ⟨a', htake, hlocked, halloc, hcharged, hplanned⟩ :=
              @take _ _ _ _ _ (truncate req len) len 0 hch hacc hl hcut le_rfl
            refine ⟨a', none, by rw [htake]; rfl, .inr ⟨hlocked, halloc, hcharged, ?_⟩⟩
            rw [hplanned]
            show ((a.planned cfg.pageSize + ceilPagedTokens cfg.pageSize len : ℕ) : ℤ) ≤ _
            exact h.fits_of_room hps hoff hroom hlt.le

/-! ## A round -/

section

variable (hps : 0 < cfg.pageSize) (hoff : -(cfg.pageSize + 1 : ℚ) ≤ off₀) (h : Planned cfg off₀ a)
include hps hoff h

/-- `add_one_req` keeps the plan. -/
theorem Planned.addOneReq (hl : a.kv.cache.tree.Path req.lastNode l)
    (hreq : req.fillIds.length = req.prefixIndices.length + req.extendInputLen) (allow : Bool)
    (align : Option ℕ+) :
    ∃ a' res, a.addOneReq cfg.pageSize req allow align = .ok (a', res) ∧ Planned cfg off₀ a' := by
  obtain ⟨locks, hacc⟩ := h.kv.acc
  unfold PrefillAdder.addOneReq
  -- the returns before the lock
  iterate 5
    split
    · exact ⟨a, _, rfl, h⟩
  obtain ⟨c₂, hlock, hlocked⟩ := lockNode_spec hacc hl
  have hkv₂ := h.kv.locked hlocked
  have hl₂ : c₂.tree.Path req.lastNode l := by
    rw [hlocked.tree_eq]
    exact path_modifyAll.mpr hl
  obtain ⟨a₃, early, hadd, hcase⟩ :=
    (h.toCharged.withCache hkv₂).addLocked align hps hoff hlocked.acc hl₂ hreq
  -- the rest is the return of the first lock, from whatever `addLocked` left
  have hrun : ∀ c, a₃.unlockNode req.lastNode = .ok (a₃.withCache c) →
      (a.lockNode req.lastNode >>= fun a => a.addLocked cfg.pageSize req align >>= fun x =>
        x.1.unlockNode req.lastNode >>= fun a => Except.ok (a, x.2.getD a.budgetState)) =
      .ok (a₃.withCache c, early.getD (a₃.withCache c).budgetState) := by
    intro c hunlock
    simp only [hlock, bind, Except.bind, hadd, hunlock]
  rcases hcase with rfl | ⟨hlocked₃, halloc, hch₃, hfits⟩
  · -- the tree is as it was before the lock
    obtain ⟨c, hunlock, hacc', htree⟩ := unlockNode_spec (a := a.withCache c₂) hlocked hl
    refine ⟨_, _, hrun c hunlock, ⟨h.toCharged.withCache ?_, ?_⟩⟩
    · exact h.kv.withCache hacc' (htree ▸ h.kv.holds) (by rw [htree])
    · have hev : c.evictableSize = a.kv.cache.evictableSize := by
        rw [hacc'.evictable_eq, hacc.evictable_eq, htree]
      show (a.planned cfg.pageSize : ℤ) ≤ a.kv.allocator.availableSize + c.evictableSize
      rw [hev]
      exact h.fits
  · -- the tree is as it was when the budget was looked at
    obtain ⟨c, hunlock, hacc', htree⟩ := unlockNode_spec hlocked₃ hl₂
    refine ⟨_, _, hrun c hunlock, ⟨hch₃.withCache ?_, ?_⟩⟩
    · apply hch₃.kv.withCache hacc'
      · rw [htree]
        exact hkv₂.holds
      · rw [htree, hlocked₃.tree_eq]
        exact ((keepsPages_modifyAll (g := NodeData.addLock 1) fun _ => rfl).pages hkv₂.holds).2.symm
    · have hev : c.evictableSize = c₂.evictableSize := by
        rw [hacc'.evictable_eq, hlocked.acc.evictable_eq, htree]
        rfl
      show (a₃.planned cfg.pageSize : ℤ) ≤ a₃.kv.allocator.availableSize + c.evictableSize
      rw [hev, halloc]
      exact hfits

omit hps hoff h in
/-- Looking for the cached prefix of a request keeps the plan. -/
theorem Planned.initNextRoundInput (h : Planned cfg off₀ a) (now : ℤ) (w : WaitingReq) :
    ∃ a' req l, a.initNextRoundInput cfg now w = .ok (a', req) ∧ Planned cfg off₀ a' ∧
      a'.kv.cache.tree.Path req.lastNode l ∧
      req.fillIds.length = req.prefixIndices.length + req.extendInputLen := by
  obtain ⟨locks, hacc⟩ := h.kv.acc
  obtain ⟨c, m, hmatch, hacc', ⟨l, hquiet, hl, hdev, hpre, -⟩, -⟩ := RadixCache.matchPrefix_spec now hacc
    ⟨(w.originInputIds ++ w.outputIds).take (maxPrefixLen w), w.extraKey, false⟩
  obtain ⟨hholds, hpages⟩ := (RadixCache.QuietSteps.keepsPages hquiet hacc.wf).pages h.kv.holds
  -- what was found is no longer than what was looked for
  have hlen : m.deviceIndices.length ≤ (w.originInputIds ++ w.outputIds).length := by
    rw [hdev, hacc'.fits.length_along hl]
    refine hpre.length_le.trans ?_
    rw [RadixKey.length_units]
    refine (RadixCache.len_lookupKey_le cfg _).trans ?_
    exact List.length_take_le' _ _
  refine ⟨a.withCache c, ⟨w.originInputIds ++ w.outputIds, m.deviceIndices, m.lastNode,
    (w.originInputIds ++ w.outputIds).length - m.deviceIndices.length, w.maxNewTokens,
    w.outputIds.length⟩, l, ?_, ⟨h.toCharged.withCache ?_, ?_⟩, hl, ?_⟩
  · rw [PrefillAdder.initNextRoundInput, hmatch]
    rfl
  · exact h.kv.withCache hacc' hholds hpages
  · show (a.planned cfg.pageSize : ℤ) ≤ a.kv.allocator.availableSize + c.evictableSize
    rw [RadixCache.matchPrefix_evictableSize hmatch]
    exact h.fits
  · exact (Nat.add_sub_cancel' hlen).symm

/-- One request of the queue. -/
theorem Planned.offer (call : Call) : ∃ a', a.offer cfg call = .ok a' ∧ Planned cfg off₀ a' := by
  obtain ⟨a₁, req, l, hinit, h₁, hl, hreq⟩ := h.initNextRoundInput call.now call.req
  obtain ⟨a₂, res, hadd, h₂⟩ :=
    h₁.addOneReq hps hoff hl hreq call.allowPrefill call.truncationAlignSize
  refine ⟨a₂, ?_, h₂⟩
  simp only [PrefillAdder.offer, hinit, bind, Except.bind, hadd]

/-- All requests of the queue. -/
theorem Planned.round (calls : List Call) : ∃ a', a.round cfg calls = .ok a' ∧ Planned cfg off₀ a' := by
  unfold PrefillAdder.round
  induction calls generalizing a with
  | nil => exact ⟨a, rfl, h⟩
  | cons call calls ih =>
    obtain ⟨a₁, hoffer, h₁⟩ := h.offer hps hoff call
    obtain ⟨a₂, hrest, h₂⟩ := ih h₁
    refine ⟨a₂, ?_, h₂⟩
    rw [List.foldlM_cons, hoffer]
    exact hrest

end

/-- The pages that the admitted requests need together, in tokens. -/
def neededTokens (cfg : Config) (a : PrefillAdder) : ℕ :=
  ((a.canRunList.map extendReq).map (ExtendReq.numNewPages cfg.pageSize)).sum * cfg.pageSize

theorem Charged.allocForRound_iff (h : Charged cfg off₀ a) (ties : ℕ → ℕ) :
    (∃ σ out, a.allocForRound cfg ties = .ok (σ, out)) ↔
    (a.neededTokens cfg : ℤ) ≤ a.availableAndEvictable := by
  apply KVState.allocSlotsExtend_iff h.kv
  intro r hr
  obtain ⟨q, hq, rfl⟩ := List.mem_map.mp hr
  show q.prefixIndices.length ≤ q.fillIds.length
  rw [h.extend_eq q hq]
  exact Nat.le_add_right _ _

/-- A request takes no more pages than it was charged for: what is left of its last page helps. -/
theorem Charged.neededTokens_le (hps : 0 < cfg.pageSize) (h : Charged cfg off₀ a) :
    a.neededTokens cfg ≤ a.planned cfg.pageSize := by
  unfold neededTokens planned ceilPagedTokens
  rw [List.sum_map_mul_right, List.map_map]
  apply Nat.mul_le_mul_right
  apply List.sum_le_sum
  intro q hq
  have hlen := h.extend_eq q hq
  have hnew : (extendReq q).numNewPages cfg.pageSize ≤
      pageCount cfg.pageSize (q.fillIds.length - q.prefixIndices.length) :=
    numNewPages_le hps (by simp only [extendReq]; omega)
  rwa [hlen, Nat.add_sub_cancel_left] at hnew

/-! ## The initial offset -/

/-- Without a request that is beyond its `max_new_tokens` the estimate is not negative. -/
theorem initialOffset_nonneg {ratio : ℚ} {mixed : ℕ} (hratio : 0 ≤ ratio)
    (h : ∀ r ∈ running, r.outputLen ≤ r.maxNewTokens) : 0 ≤ initialOffset ratio mixed running := by
  refine add_nonneg (Nat.cast_nonneg _) (List.sum_nonneg ?_)
  intro x hx
  obtain ⟨r, hr, rfl⟩ := List.mem_map.mp hx
  have hleft : (0 : ℤ) ≤ min ((r.maxNewTokens : ℤ) - r.outputLen) clipMaxNewTokens := by
    have := h r hr
    exact le_min (by omega) (Int.natCast_nonneg _)
  exact mul_nonneg (by exact_mod_cast hleft) hratio

/-- A prompt of `n` tokens none of which is looked up, since their log probabilities are asked for. -/
def promptCall (n maxNewTokens : ℕ) : Call :=
  ⟨0, ⟨List.replicate n 0, [], none, maxNewTokens, some 0, false⟩, true, none⟩

/-- A round without any limit but the memory. -/
def unlimited : Limits := ⟨0, none, false, none⟩

/-- No request has arrived. -/
def idleReqs : ℕ → MemCache.Req := fun _ => ⟨[], none, none, [], [], 0, 0, 0, 0, false, false, none⟩

theorem lockNode_init (hc : a.kv.cache = RadixCache.init 0) : a.lockNode 0 = .ok a := by
  obtain ⟨⟨c, _, _, _, _, _⟩, _, _, _, _, _, _, _, _⟩ := a
  subst hc
  rfl

theorem unlockNode_init (hc : a.kv.cache = RadixCache.init 0) : a.unlockNode 0 = .ok a := by
  obtain ⟨⟨c, _, _, _, _, _⟩, _, _, _, _, _, _, _, _⟩ := a
  subst hc
  rfl

/-- On an empty pool a request is admitted whenever the budget says so. -/
theorem round_promptCall {ratio : ℚ} {mixed maxNewTokens numPages numReqs : ℕ}
    (hroom : (n + min maxNewTokens clipMaxNewTokens + cfg.pageSize : ℕ) <
      (numPages * cfg.pageSize : ℕ) - initialOffset ratio mixed running) :
    ∃ a, (init (.init cfg 0 false numPages numReqs idleReqs) unlimited ratio mixed running).round cfg
        [promptCall n maxNewTokens] = .ok a ∧ a.kv = .init cfg 0 false numPages numReqs idleReqs ∧
      a.canRunList = [⟨List.replicate n 0, [], 0, n, maxNewTokens, 0⟩] := by
  let a₀ := init (.init cfg 0 false numPages numReqs idleReqs) unlimited ratio mixed running
  let req : PrefillReq := ⟨List.replicate n 0, [], 0, n, maxNewTokens, 0⟩
  let a₁ := ({ a₀ with canRunList := [req] } : PrefillAdder).updatePrefillBudget cfg.pageSize
    (ceilPagedTokens cfg.pageSize n) (min maxNewTokens clipMaxNewTokens)
  have hinit : a₀.initNextRoundInput cfg 0 (promptCall n maxNewTokens).req = .ok (a₀, req) := by
    have hmatch : (RadixCache.init 0).matchPrefix cfg 0 ⟨[], none, false⟩ =
        .ok (RadixCache.init 0, ⟨[], 0⟩) := by
      unfold RadixCache.matchPrefix RadixKey.maybeToBigramView
      cases cfg.isEagle <;> rfl
    simp only [PrefillAdder.initNextRoundInput, promptCall, maxPrefixLen, List.take_zero, Nat.min_zero,
      Bool.false_eq_true, if_false]
    show (RadixCache.init 0).matchPrefix cfg 0 ⟨[], none, false⟩ >>= _ = _
    rw [hmatch]
    simp [a₀, req, bind, Except.bind, init, KVState.init]
  have hno : ¬ a₀.remTotalTokens ≤ totalTokens cfg.pageSize req := by
    have havail : (a₀.availableAndEvictable : ℚ) = (numPages * cfg.pageSize : ℕ) := by
      simp [a₀, availableAndEvictable, init, KVState.init, RadixCache.init, RadixCache.fresh,
        Allocator.availableSize, Allocator.clear]
    rw [remTotalTokens, havail, not_le]
    exact hroom
  have hadd : a₀.addLocked cfg.pageSize req none = .ok (a₁, none) := by
    unfold PrefillAdder.addLocked
    rw [if_neg hno]
    rw [if_neg fun hfull => hfull.2 rfl]
    rw [PrefillAdder.take, lockNode_init rfl]
    rfl
  have hone : a₀.addOneReq cfg.pageSize req true none = .ok (a₁, a₁.budgetState) := by
    unfold PrefillAdder.addOneReq
    rw [if_neg (by decide), if_neg fun hfull => absurd hfull.1 Bool.false_ne_true,
      if_neg fun h => h.elim fun x hx => absurd hx.1 (Option.not_mem_none x), if_neg hno,
        if_neg fun hfull => hfull.2 rfl,
      lockNode_init rfl]
    show a₀.addLocked cfg.pageSize req none >>= _ = _
    rw [hadd]
    show (do let a ← a₁.unlockNode 0; _) = _
    rw [unlockNode_init rfl]
    rfl
  refine ⟨a₁, ?_, rfl, rfl⟩
  show List.foldlM (PrefillAdder.offer cfg) a₀ [promptCall n maxNewTokens] = _
  have hoffer : a₀.offer cfg (promptCall n maxNewTokens) = .ok a₁ := by
    show a₀.initNextRoundInput cfg 0 (promptCall n maxNewTokens).req >>= _ = _
    rw [hinit]
    show a₀.addOneReq cfg.pageSize req true none >>= _ = _
    rw [hone]
    rfl
  rw [List.foldlM_cons, hoffer]
  rfl

/-- From every consistent memory, under all limits and for every sequence of calls, a round runs through, its
requests need no more than what is available or evictable after it, and their allocation goes through:
exactly if the budget does not start more than a page and a token below zero. -/
theorem round_allocates_iff (hps : 0 < cfg.pageSize) (ratio : ℚ) (mixed : ℕ) (running : List RunningReq) :
    (∀ (kv : KVState) (limits : Limits) (calls : List Call) (ties : ℕ → ℕ), KVState.Consistent cfg kv →
      ∃ a, (init kv limits ratio mixed running).round cfg calls = .ok a ∧
        (a.neededTokens cfg : ℤ) ≤ a.availableAndEvictable ∧ ∃ σ out, a.allocForRound cfg ties = .ok (σ, out)) ↔
      -(cfg.pageSize + 1 : ℚ) ≤ initialOffset ratio mixed running := by
  constructor
  · intro h
    by_contra hlow
    -- a pool without pages and a request for one token
    have hkv : KVState.Consistent cfg (.init cfg 0 false 0 0 idleReqs) :=
      (KVState.init_inv 0 0 idleReqs hps).consistent
    have hroom : (1 + min 0 clipMaxNewTokens + cfg.pageSize : ℕ) <
        (0 * cfg.pageSize : ℕ) - initialOffset ratio mixed running := by
      rw [Nat.zero_min, Nat.zero_mul]
      push_cast
      linarith
    obtain ⟨a, hround, hkv', hrun⟩ := round_promptCall hroom
    obtain ⟨a', hround', hneed, -⟩ := h _ unlimited [promptCall 1 0] id hkv
    obtain rfl : a' = a := Except.ok.inj (hround'.symm.trans hround)
    have hpages : a'.neededTokens cfg = cfg.pageSize := by
      have hnew : ExtendReq.numNewPages cfg.pageSize ⟨0, 1, lastLoc []⟩ = 1 := by
        have hone : pageCount cfg.pageSize 1 = 1 := by
          rw [pageCount, Nat.add_sub_cancel_left, Nat.div_self hps]
        rw [ExtendReq.numNewPages, hone, pageCount_zero hps]
      rw [neededTokens, hrun]
      show (ExtendReq.numNewPages cfg.pageSize ⟨0, 1, lastLoc []⟩ + 0) * cfg.pageSize = _
      rw [hnew, Nat.add_zero, Nat.one_mul]
    have hnone : a'.availableAndEvictable = 0 := by
      rw [availableAndEvictable, hkv']
      show (((0 + 0) * cfg.pageSize : ℕ) : ℤ) + 0 = 0
      simp
    rw [hpages, hnone] at hneed
    omega
  · intro hoff kv limits calls ties hkv
    obtain ⟨a, hround, hplan⟩ := (init_planned limits ratio mixed running hkv).round hps hoff calls
    have hneed : (a.neededTokens cfg : ℤ) ≤ a.availableAndEvictable :=
      (Int.ofNat_le.mpr (hplan.neededTokens_le hps)).trans hplan.fits
    exact ⟨a, hround, hneed, (hplan.allocForRound_iff ties).mpr hneed⟩

/-- A running request within its `max_new_tokens`, and a queue of two requests for the small server. -/
theorem round_allocates_of_running :
    ∃ a, (init KVState.smallServer ⟨100, none, false, none⟩ (1 / 2) 0 [⟨10, 4⟩]).round pairConfig
        [promptCall 1 8, promptCall 3 8] = .ok a ∧ (a.neededTokens pairConfig : ℤ) ≤ a.availableAndEvictable ∧
      ∃ σ out, a.allocForRound pairConfig id = .ok (σ, out) := by
  refine (round_allocates_iff (by decide) (1 / 2) 0 [⟨10, 4⟩]).mpr ?_ _ _ _ _ ?_
  · refine le_trans ?_ (initialOffset_nonneg (by norm_num) (by decide))
    norm_num [pairConfig]
  · exact (KVState.init_inv 0 2 _ (by decide)).consistent

/-- A running request has produced five tokens more than its `max_new_tokens` of ten. The server has eight
slots, and a prompt of nine tokens is admitted. -/
theorem round_overadmits : ∃ a,
    (init KVState.smallServer unlimited 1 0 [⟨10, 15⟩]).round pairConfig [promptCall 9 1] =
      .ok a ∧ a.canRunList.length = 1 ∧ a.availableAndEvictable = 8 ∧ a.neededTokens pairConfig = 10 ∧
    ∀ ties, ¬ ∃ σ out, a.allocForRound pairConfig ties = .ok (σ, out) := by
  obtain ⟨a, hround, hkv, hrun⟩ : ∃ a, (init KVState.smallServer unlimited 1 0 [⟨10, 15⟩]).round
      pairConfig [promptCall 9 1] = .ok a ∧ a.kv = KVState.smallServer ∧
      a.canRunList = [⟨List.replicate 9 0, [], 0, 9, 1, 0⟩] := by
    apply round_promptCall
    norm_num [initialOffset, runningTokenOffset, pairConfig, clipMaxNewTokens]
  have havail : a.availableAndEvictable = 8 := by
    rw [availableAndEvictable, hkv]
    rfl
  have hneed : a.neededTokens pairConfig = 10 := by
    rw [neededTokens, hrun]
    rfl
  have hch : Charged pairConfig (a.remTotalTokenOffset - a.planned 2) a := by
    refine ⟨?_, (sub_add_cancel _ _).le, ?_⟩
    · rw [hkv]
      exact (KVState.init_inv 0 2 _ (by decide)).consistent
    · rw [hrun]
      decide
  refine ⟨a, hround, by rw [hrun]; rfl, havail, hneed, fun ties halloc => ?_⟩
  have hle := (hch.allocForRound_iff ties).mp halloc
  rw [hneed, havail] at hle
  omega

end PrefillAdder

end SGLang.Managers
