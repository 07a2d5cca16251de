/-
# SGLang.Ngram.CorpusMatch — occurrences, continuations and matches of a finalised corpus.

`finalize` hands the number of occurrences and the last position of each state on to its suffix link, longest
words first. At each point of the pass a state has counted the ends that reached it (`Dawg.reached`), so that at
its end it has counted all the ends of its word (`handOn_all`). `match` keeps the state of the longest suffix of
what it has read that occurs in the corpus (`matchToken_spec`), and its anchors are that state and those along
its suffix links (`anchors_spec`).
-/
import Mathlib.Data.Nat.Count
import SGLang.Ngram.SuffixAutomaton

namespace SGLang.Ngram

open SGLang.Lib List SuffixAutomaton
open SGLang.Lib.Occurrences
open SGLang.Lib.Dawg (Graph IsDawg Holds endsOf mem_endsOf reached mem_reached)

namespace SuffixAutomaton

variable {w u : List ℤ} {s s' : SuffixAutomaton} {str : ℕ → List ℤ} {done : List ℕ}

/-! ## Handing on along the links -/

/-- A pass in which the states of `done` have handed on what they counted. -/
structure HandedOn (w : List ℤ) (s : SuffixAutomaton) (str : ℕ → List ℤ) (done : List ℕ)
    (s' : SuffixAutomaton) : Prop where
  size : s'.size = s.size
  states : ∀ v, s'.states v =
    { s.states v with occCount := (s'.states v).occCount, maxEndPos := (s'.states v).maxEndPos }
  occCount : ∀ v < s.size, (s'.states v).occCount = (reached w s.graph str done v).card
  ends : ∀ v < s.size, v ≠ 0 → ∃ i : ℕ, (s'.states v).maxEndPos = i ∧ Ends w (str v) (i + 1)
  le : ∀ v < s.size, ∀ i ∈ reached w s.graph str done v, (i : ℤ) ≤ (s'.states v).maxEndPos + 1

/-- Before the pass a state has counted the beginning of the text that is its word. -/
theorem Built.handedOn (h : Built w s str) : HandedOn w s str [] s := by
  refine ⟨rfl, fun _ => rfl, fun v hv => ?_, h.ends, fun v hv i hi => ?_⟩
  · rw [h.occCount v hv]
    by_cases hpre : str v ≠ [] ∧ str v <+: w
    · rw [if_pos hpre, eq_comm, Finset.card_eq_one]
      refine ⟨(str v).length, ?_⟩
      ext i
      rw [h.dawg.reached_nil hv, Finset.mem_singleton]
      constructor
      · rintro ⟨-, hi, hstr⟩
        rw [hstr, length_take]
        omega
      · rintro rfl
        exact ⟨length_pos_of_ne_nil hpre.1, hpre.2.length_le, prefix_iff_eq_take.mp hpre.2⟩
    · rw [if_neg hpre, eq_comm, Finset.card_eq_zero]
      ext i
      rw [h.dawg.reached_nil hv]
      refine iff_of_false ?_ (Finset.notMem_empty i)
      rintro ⟨hpos, hi, hstr⟩
      refine hpre ⟨?_, hstr ▸ take_prefix _ _⟩
      rw [hstr]
      intro hnil
      have := congrArg length hnil
      rw [length_take, length_nil] at this
      omega
  · obtain ⟨-, hle, hstr⟩ := (h.dawg.reached_nil hv).mp hi
    have := h.beginning v hv (hstr ▸ take_prefix _ _)
    rw [hstr, length_take] at this
    omega

theorem states_setState (s : SuffixAutomaton) (v : ℕ) (st : SamState) (x : ℕ) :
    (s.setState v st).states x = if x = v then st else s.states x := Function.update_apply ..

/-- **One state hands on** to its link, when all states with longer words have. -/
theorem HandedOn.handOn {d : ℕ} (hb : Built w s str) (h : HandedOn w s str done s') (hd : d < s.size)
    (hnew : d ∉ done) (hlong : ∀ x < s.size, (str d).length < (str x).length → x ∈ done)
    (hshort : ∀ x ∈ done, (str d).length ≤ (str x).length) : HandedOn w s str (d :: done) (s'.handOn d) := by
  have hlink : (s'.states d).link = s.graph.link d := by
    rw [h.states d]
    rfl
  unfold SuffixAutomaton.handOn
  rw [hlink]
  cases hl : s.graph.link d with
  | none =>
    have hsame : ∀ v < s.size, reached w s.graph str (d :: done) v = reached w s.graph str done v := by
      intro v hv
      refine hb.dawg.reached_other hd hv ?_ hshort
      rw [hl]
      exact nofun
    refine ⟨h.size, h.states, fun v hv => ?_, h.ends, fun v hv => ?_⟩
    · rw [hsame v hv]
      exact h.occCount v hv
    · rw [hsame v hv]
      exact h.le v hv
  | some l =>
    obtain ⟨hlt, hlen, hsuf⟩ := hb.dawg.link_lt_of_holds hd (IsDawg.holds_self w _) hl
    obtain ⟨hunion, hdisj⟩ := hb.dawg.reached_link hd hl hnew hlong
    have hall := IsDawg.reached_next hlong hb.dawg hd
    have hsame : ∀ v < s.size, v ≠ l → reached w s.graph str (d :: done) v = reached w s.graph str done v := by
      intro v hv hvl
      refine hb.dawg.reached_other hd hv (fun hlv => hvl ?_) hshort
      exact (Option.some.inj (hl.symm.trans hlv)).symm
    have hd0 : d ≠ 0 := by
      rintro rfl
      rw [hb.dawg.root_link] at hl
      cases hl
    refine ⟨h.size, fun v => ?_, fun v hv => ?_, fun v hv h0 => ?_, fun v hv i hi => ?_⟩
    · rw [states_setState]
      split
      · next hv =>
        subst hv
        conv_lhs => rw [h.states v]
      · exact h.states v
    · rw [states_setState]
      split
      · next hv =>
        subst hv
        rw [h.occCount v hv, h.occCount d hd, hall, hunion, Finset.card_union_of_disjoint hdisj]
      · next hvl =>
        rw [hsame v hv hvl]
        exact h.occCount v hv
    · rw [states_setState]
      split
      · next hvl =>
        subst hvl
        obtain ⟨i, hi, hei⟩ := h.ends v hv h0
        obtain ⟨j, hj, hej⟩ := h.ends d hd hd0
        rw [hi, hj]
        rcases Nat.le_total i j with hij | hij
        · exact ⟨j, max_eq_right (by exact_mod_cast hij), hej.mono hsuf⟩
        · exact ⟨i, max_eq_left (by exact_mod_cast hij), hei⟩
      · exact h.ends v hv h0
    · rw [states_setState]
      split
      · next hvl =>
        subst hvl
        show (i : ℤ) ≤ max (s'.states v).maxEndPos (s'.states d).maxEndPos + 1
        rw [hunion, Finset.mem_union] at hi
        rcases hi with hi | hi
        · have := h.le v hv i hi
          omega
        · have := h.le d hd i (hall ▸ hi)
          omega
      · next hvl =>
        rw [hsame v hv hvl] at hi
        exact h.le v hv i hi

/-- **The whole pass**, over the states by decreasing length. -/
theorem HandedOn.handOn_all (hb : Built w s str) (rest : List ℕ) (h : HandedOn w s str done s')
    (hperm : (done.reverse ++ rest).Perm (range s.size))
    (horder : (done.reverse ++ rest).Pairwise fun x y => (str y).length ≤ (str x).length) :
    HandedOn w s str (rest.reverse ++ done) (rest.foldl SuffixAutomaton.handOn s') := by
  induction rest generalizing done s' with
  | nil => exact h
  | cons d rest ih =>
    have hmem : ∀ x, x ∈ done ∨ x = d ∨ x ∈ rest ↔ x < s.size := by
      intro x
      rw [← mem_range, ← hperm.mem_iff, mem_append, mem_reverse, mem_cons]
    have hnd := hperm.nodup_iff.mpr nodup_range
    obtain ⟨-, hrest, hcross⟩ := pairwise_append.mp horder
    have hd : d < s.size := (hmem d).mp (.inr (.inl rfl))
    have hnew : d ∉ done := fun hin =>
      (disjoint_of_nodup_append hnd) (mem_reverse.mpr hin) mem_cons_self
    have hlong : ∀ x < s.size, (str d).length < (str x).length → x ∈ done := by
      intro x hx hlt
      rcases (hmem x).mpr hx with hin | rfl | hin
      · exact hin
      · exact absurd hlt (lt_irrefl _)
      · exact absurd ((pairwise_cons.mp hrest).1 x hin) (Nat.not_le.mpr hlt)
    have hshort : ∀ x ∈ done, (str d).length ≤ (str x).length :=
      fun x hin => hcross x (mem_reverse.mpr hin) d mem_cons_self
    have hshift : (d :: done).reverse ++ rest = done.reverse ++ d :: rest := by
      rw [reverse_cons, append_assoc]
      rfl
    have := ih (h.handOn hb hd hnew hlong hshort) (hshift ▸ hperm) (hshift ▸ horder)
    rw [foldl_cons, reverse_cons, append_assoc]
    exact this

/-! ## The finalised automaton -/

/-- The automaton of a corpus after `finalize`: each state but the root has the number of ends of its word and
the last of them, and lists its continuations. -/
structure Final (w : List ℤ) (s : SuffixAutomaton) (str : ℕ → List ℤ) : Prop where
  dawg : IsDawg w s.graph str
  maxLen : ∀ v < s.size, (s.states v).maxLen = (str v).length
  occCount : ∀ v < s.size, v ≠ 0 → (s.states v).occCount = (endsOf w (str v)).card
  maxEndPos : ∀ v < s.size, v ≠ 0 → ∃ i : ℕ, (s.states v).maxEndPos = i ∧ Ends w (str v) (i + 1) ∧
    ∀ j, Ends w (str v) j → j ≤ i + 1
  childrenByFreq : ∀ v, (s.states v).childrenByFreq =
    (continuations (s.states v)).mergeSort (before fun v => (s.states v).occCount)
  childrenByRecency : ∀ v, (s.states v).childrenByRecency =
    (continuations (s.states v)).mergeSort (before fun v => (s.states v).maxEndPos)

/-- **Finalising** a corpus that is not empty, in any order the sort may give. -/
theorem Built.propagate (h : Built w s str) {order : List ℕ} (horder : s.IsOrder order) :
    Final w (s.propagateOccurrencesAndRecency order) str := by
  have hperm : (([] : List ℕ).reverse ++ order.reverse).Perm (range s.size) :=
    (reverse_perm order).trans horder.1
  have hsorted : (([] : List ℕ).reverse ++ order.reverse).Pairwise fun x y => (str y).length ≤
      (str x).length := by
    rw [reverse_nil, nil_append, pairwise_reverse]
    refine horder.2.imp_of_mem fun hx hy hle => ?_
    rwa [h.maxLen _ (mem_range.mp (horder.1.mem_iff.mp hx)),
      h.maxLen _ (mem_range.mp (horder.1.mem_iff.mp hy))] at hle
  have hdone := h.handedOn.handOn_all h order.reverse hperm hsorted
  rw [reverse_reverse, append_nil] at hdone
  have hall : ∀ x < s.size, x ∈ order := fun x hx => horder.1.mem_iff.mpr (mem_range.mpr hx)
  have hstates : ∀ v, (s.propagateOccurrencesAndRecency order).states v = { s.states v with
        occCount := ((order.reverse.foldl handOn s).states v).occCount
        maxEndPos := ((order.reverse.foldl handOn s).states v).maxEndPos
        childrenByFreq := ((s.propagateOccurrencesAndRecency order).states v).childrenByFreq
        childrenByRecency := ((s.propagateOccurrencesAndRecency order).states v).childrenByRecency } := by
    intro v
    unfold propagateOccurrencesAndRecency listChildren
    dsimp only
    rw [hdone.states v]
  have hsize : (s.propagateOccurrencesAndRecency order).size = s.size := hdone.size
  have hgraph : (s.propagateOccurrencesAndRecency order).graph = s.graph := by
    unfold graph
    rw [hsize]
    congr 1
    · funext v
      rw [hstates v]
    · funext v token
      rw [hstates v]
  refine { dawg := hgraph ▸ h.dawg, maxLen := ?_, occCount := ?_, maxEndPos := ?_,
           childrenByFreq := fun _ => rfl, childrenByRecency := fun _ => rfl }
  · intro v hv
    rw [hstates v]
    exact h.maxLen v (hsize ▸ hv)
  · intro v hv _
    rw [hstates v]
    exact (hdone.occCount v (hsize ▸ hv)).trans (congrArg Finset.card (IsDawg.reached_all hall v))
  · intro v hv h0
    rw [hstates v]
    obtain ⟨i, hi, hends⟩ := hdone.ends v (hsize ▸ hv) h0
    refine ⟨i, hi, hends, fun j hj => ?_⟩
    rcases Nat.eq_zero_or_pos j with rfl | hpos
    · exact Nat.zero_le _
    · have := hdone.le v (hsize ▸ hv) j (by rw [IsDawg.reached_all hall v, mem_endsOf]; exact ⟨hpos, hj⟩)
      rw [hi] at this
      exact_mod_cast this

/-- An empty corpus is left as it is. -/
theorem Built.final_nil (h : Built [] s str) (hs : s.states = ({} : SuffixAutomaton).states)
    (hsize : s.size = 1) : Final [] s str := by
  have hzero : ∀ v < s.size, v = 0 := fun v hv => Nat.lt_one_iff.mp (hsize ▸ hv)
  refine { dawg := h.dawg, maxLen := h.maxLen, occCount := fun v hv h0 => absurd (hzero v hv) h0,
           maxEndPos := fun v hv h0 => absurd (hzero v hv) h0, childrenByFreq := fun v => ?_,
           childrenByRecency := fun v => ?_ }
  · rw [hs]
    exact mergeSort_nil.symm
  · rw [hs]
    exact mergeSort_nil.symm

/-! ## Continuations -/

theorem mem_continuations {st : SamState} {token : ℤ} {t : ℕ} :
    (token, t) ∈ continuations st ↔ token ≠ kSeparatorToken ∧ st.next.lookup token = some t := by
  unfold continuations
  rw [mem_filter, mem_map, decide_eq_true_iff, and_comm]
  refine and_congr_right fun _ => ?_
  rw [← Option.mem_def, AList.mem_lookup_iff]
  constructor
  · rintro ⟨⟨token', t'⟩, he, heq⟩
    obtain ⟨rfl, rfl⟩ := Prod.mk.inj heq
    exact he
  · exact fun he => ⟨⟨token, t⟩, he, rfl⟩

theorem nodup_continuations (st : SamState) : ((continuations st).map Prod.fst).Nodup := by
  have hkeys : ((st.next.entries.map fun e => (e.1, e.2)).map Prod.fst).Nodup := by
    rw [map_map]
    exact st.next.nodupKeys
  exact hkeys.sublist (filter_sublist.map Prod.fst)

theorem before_iff {key : ℕ → ℤ} {l r : ℤ × ℕ} : before key l r = true ↔
    key r.2 < key l.2 ∨ key r.2 = key l.2 ∧ (l.1 < r.1 ∨ l.1 = r.1 ∧ l.2 ≤ r.2) := by
  simp [before]

/-- What is listed are the continuations, by decreasing key. -/
theorem children_spec (st : SamState) (key : ℕ → ℤ) :
    ((continuations st).mergeSort (before key)).Perm (continuations st) ∧
      ((continuations st).mergeSort (before key)).Pairwise fun l r => key r.2 ≤ key l.2 := by
  refine ⟨mergeSort_perm _ _, ?_⟩
  refine (pairwise_mergeSort ?_ ?_ _).imp fun h => ?_
  · intro a b c hab hbc
    rw [before_iff] at hab hbc ⊢
    omega
  · intro a b
    rw [Bool.or_eq_true, before_iff, before_iff]
    omega
  · rcases before_iff.mp h with h | h
    · exact h.le
    · exact h.1.le

/-! ## Matching -/

section Match

variable {y ctx : List ℤ} {v : ℕ}

/-- **Falling back** from a state that holds a suffix `x` of `y` loses no suffix of `y` that the token
follows. -/
theorem Final.fallBack (h : Final w s str) (token : ℤ) (fuel : ℕ) {x : List ℤ} (hv : v < s.size)
    (hx : Holds w (str v) x) (hxy : x <:+ y) (hmax : ∀ u, u <:+ y → Occurs w (u ++ [token]) → u <:+ x)
    (hfuel : (str v).length < fuel) :
    ∃ x', (s.fallBack token fuel v x.length).1 < s.size ∧
      Holds w (str (s.fallBack token fuel v x.length).1) x' ∧ (s.fallBack token fuel v x.length).2 = x'.length ∧
      x' <:+ y ∧ (∀ u, u <:+ y → Occurs w (u ++ [token]) → u <:+ x') ∧
        ((s.fallBack token fuel v x.length).1 = 0 ∨
        (s.states (s.fallBack token fuel v x.length).1).next.lookup token ≠ none) := by
  induction fuel generalizing v x with
  | zero => exact absurd hfuel (Nat.not_lt_zero _)
  | succ fuel ih =>
    unfold fallBack
    by_cases hcond : v ≠ 0 ∧ (s.states v).next.lookup token = none
    · rw [if_pos hcond]
      obtain ⟨l, hl, hlink, hsuf, hlen, hclass⟩ := h.dawg.link v hv hcond.1
      obtain ⟨-, hlx, hlsuf⟩ := h.dawg.link_lt_of_holds hv hx hlink
      have hlink' : (s.states v).link = some l := hlink
      have hmin : min x.length (s.states l).maxLen = (str l).length := by
        rw [h.maxLen l hl]
        exact Nat.min_eq_right hlx.le
      rw [hlink']
      dsimp only [Option.getD_some]
      rw [hmin]
      refine ih hl (IsDawg.holds_self w _) (hlsuf.trans hxy) (fun u hu hocc => ?_) (by omega)
      -- a longer suffix is held by `v`, and the token does not follow there
      have hux := hmax u hu hocc
      refine suffix_of_suffix_length_le hux hlsuf (Nat.not_lt.mp fun hlt => ?_)
      have huv : Holds w (str v) u := ⟨hux.trans hx.1, hclass u (hux.trans hx.1) hlt⟩
      obtain ⟨t, ht⟩ := (h.dawg.next_isSome_concat_iff hv huv token).mpr hocc
      rw [show s.graph.next v token = none from hcond.2] at ht
      cases ht
    · rw [if_neg hcond]
      refine ⟨x, hv, hx, rfl, hxy, hmax, ?_⟩
      by_cases h0 : v = 0
      · exact .inl h0
      · exact .inr fun hnone => hcond ⟨h0, hnone⟩

/-- **One token of the context**: the state of the longest suffix that occurs, and its length, are kept. -/
theorem Final.matchToken (h : Final w s str) (hy : Longest w ctx y) (hv : v < s.size)
    (hholds : Holds w (str v) y)
    (token : ℤ) : ∃ y', Longest w (ctx ++ [token]) y' ∧ (s.matchToken (v, y.length) token).1 < s.size ∧
      Holds w (str (s.matchToken (v, y.length) token).1) y' ∧
        (s.matchToken (v, y.length) token).2 = y'.length := by
  have hfuel : (str v).length < (s.states v).maxLen + 1 := by
    rw [h.maxLen v hv]
    exact Nat.lt_succ_self _
  obtain ⟨x, hr, hx, hlen, hxy, hmax, hstop⟩ :=
    h.fallBack token _ hv hholds suffix_rfl (fun u hu _ => hu) hfuel
  cases hnext : (s.states (s.fallBack token ((s.states v).maxLen + 1) v y.length).1).next.lookup token with
  | some t =>
    simp only [SuffixAutomaton.matchToken, hnext, hlen]
    obtain ⟨ht, hxt⟩ := h.dawg.next_holds_concat hr hx hnext
    refine ⟨x ++ [token], hy.concat hxy ?_ hmax, ht, hxt, ?_⟩
    · exact (h.dawg.next_isSome_concat_iff hr hx token).mp ⟨t, hnext⟩
    · rw [length_append]
      rfl
  | none =>
    -- only the root is left, so the token does not occur
    have h0 := hstop.resolve_right fun hne => hne hnext
    rw [h0] at hnext hx
    simp only [SuffixAutomaton.matchToken, h0, hnext]
    refine ⟨[], Longest.concat_nil ctx ?_, h.dawg.size_pos, ?_, rfl⟩
    · have := (h.dawg.next_eq_none_iff h.dawg.size_pos token).mp hnext
      rw [h.dawg.root] at this
      exact this
    · rw [h.dawg.root]
      exact IsDawg.holds_self w _

/-- The whole context. -/
theorem Final.matchAll (h : Final w s str) (tokens : List ℤ) : ∃ y, Longest w tokens y ∧
    (tokens.foldl s.matchToken (0, 0)).1 < s.size ∧ Holds w (str (tokens.foldl s.matchToken (0, 0)).1) y ∧
    (tokens.foldl s.matchToken (0, 0)).2 = y.length := by
  induction tokens using reverseRecOn with
  | nil =>
    refine ⟨[], .nil w, h.dawg.size_pos, ?_, rfl⟩
    show Holds w (str 0) []
    rw [h.dawg.root]
    exact IsDawg.holds_self w _
  | append_singleton tokens token ih =>
    obtain ⟨y, hy, hv, hholds, hlen⟩ := ih
    rw [foldl_append]
    rw [show tokens.foldl s.matchToken (0, 0) = ((tokens.foldl s.matchToken (0, 0)).1, y.length) from
      Prod.ext rfl hlen]
    exact h.matchToken hy hv hholds token

end Match

/-! ## Anchors -/

/-- The states from `v` up along the suffix links, without `v` and the root. -/
inductive LinkPath (g : Graph ℤ) : ℕ → List ℕ → Prop
  | last {v : ℕ} : g.link v = some 0 → LinkPath g v []
  | step {v l : ℕ} {ls : List ℕ} : g.link v = some l → l ≠ 0 → LinkPath g l ls → LinkPath g v (l :: ls)

/-- A state and a length, kept if the state has a continuation other than the separator. -/
def keep (s : SuffixAutomaton) (anchor : ℕ × ℕ) : Bool := continuations (s.states anchor.1) ≠ []

/-- **The anchors** of a state that holds `y`: it and the states along its links, in decreasing length; each has
been read by the suffix of its length. -/
theorem Final.anchors (h : Final w s str) (fuel : ℕ) {v : ℕ} {y : List ℤ} (hv : v < s.size) (h0 : v ≠ 0)
    (hy : Holds w (str v) y) (hfuel : (str v).length < fuel) :
    ∃ ls, LinkPath s.graph v ls ∧
      s.anchors fuel v y.length = ((v, y.length) :: ls.map fun l => (l, (s.states l).maxLen)).filter s.keep ∧
      ((v, y.length) :: ls.map fun l => (l, (s.states l).maxLen)).Pairwise (fun a b => b.2 < a.2) ∧
      ∀ a ∈ (v, y.length) :: ls.map fun l => (l, (s.states l).maxLen),
        ∃ x, x <:+ y ∧ x.length = a.2 ∧ s.graph.read 0 x = some a.1 := by
  have hlist : ∀ v, ((s.states v).childrenByFreq ≠ []) = (continuations (s.states v) ≠ []) := by
    intro v
    rw [h.childrenByFreq v]
    exact propext (not_congr (by rw [← length_eq_zero_iff, (mergeSort_perm _ _).length_eq,
      length_eq_zero_iff]))
  induction fuel generalizing v y with
  | zero => exact absurd hfuel (Nat.not_lt_zero _)
  | succ fuel ih =>
    obtain ⟨l, hl, hlink, hsuf, hlen, -⟩ := h.dawg.link v hv h0
    obtain ⟨-, hly, hlsuf⟩ := h.dawg.link_lt_of_holds hv hy hlink
    have hlink' : (s.states v).link = some l := hlink
    have hread : ∃ x, x <:+ y ∧ x.length = y.length ∧ s.graph.read 0 x = some v :=
      ⟨y, suffix_rfl, rfl, h.dawg.read_of_holds hv hy⟩
    have hfirst : (if (s.states v).childrenByFreq ≠ [] then [(v, y.length)] else []) =
        [(v, y.length)].filter s.keep := by
      rw [filter_cons, filter_nil]
      refine if_congr ?_ rfl rfl
      rw [hlist v]
      exact (decide_eq_true_iff).symm
    unfold SuffixAutomaton.anchors
    rw [if_pos ⟨Nat.pos_of_ne_zero h0, Nat.lt_of_le_of_lt (Nat.zero_le _) hly⟩]
    rw [hlink', hfirst]
    cases l with
    | zero =>
      refine ⟨[], .last hlink, rfl, pairwise_singleton _ _, fun a ha => ?_⟩
      obtain rfl := mem_singleton.mp ha
      exact hread
    | succ l =>
      have hmin : min y.length (s.states (l + 1)).maxLen = (str (l + 1)).length := by
        rw [h.maxLen _ hl]
        exact Nat.min_eq_right hly.le
      obtain ⟨ls, hpath, hanchors, hdec, hall⟩ := ih hl (Nat.succ_ne_zero l) (IsDawg.holds_self w _) (by omega)
      have hmap : (l + 1, (str (l + 1)).length) :: ls.map (fun l => (l, (s.states l).maxLen)) =
          ((l + 1) :: ls).map fun l => (l, (s.states l).maxLen) := by
        rw [map_cons, h.maxLen _ hl]
      rw [hmap] at hanchors hdec hall
      refine ⟨(l + 1) :: ls, .step hlink (Nat.succ_ne_zero l) hpath, ?_, ?_, ?_⟩
      · dsimp only
        rw [hmin, hanchors, ← filter_append]
        rfl
      · refine pairwise_cons.mpr ⟨fun a ha => ?_, hdec⟩
        rw [← hmap] at ha
        rcases mem_cons.mp ha with rfl | ha
        · exact hly
        · rw [← hmap] at hdec
          exact Nat.lt_trans ((pairwise_cons.mp hdec).1 a ha) hly
      · intro a ha
        rcases mem_cons.mp ha with rfl | ha
        · exact hread
        · obtain ⟨x, hx, hxlen, hxread⟩ := hall a ha
          exact ⟨x, hx.trans hlsuf, hxlen, hxread⟩

/-! ## The automaton of a corpus -/

/-- In how many places a word that is not empty occurs in a text. -/
def occurrences (w u : List ℤ) : ℕ := Nat.count (fun i => u <:+ w.take (i + 1)) w.length

theorem card_endsOf (w u : List ℤ) : (endsOf w u).card = occurrences w u := by
  unfold occurrences
  rw [Nat.count_eq_card_filter_range]
  have hmap : endsOf w u = ((Finset.range w.length).filter fun i => u <:+ w.take (i + 1)).map
      ⟨Nat.succ, Nat.succ_injective⟩ := by
    ext i
    rw [mem_endsOf, Finset.mem_map]
    constructor
    · rintro ⟨hpos, hle, hsuf⟩
      obtain ⟨j, rfl⟩ := Nat.exists_eq_succ_of_ne_zero hpos.ne'
      exact ⟨j, Finset.mem_filter.mpr ⟨Finset.mem_range.mpr hle, hsuf⟩, rfl⟩
    · rintro ⟨j, hj, rfl⟩
      obtain ⟨hlt, hsuf⟩ := Finset.mem_filter.mp hj
      exact ⟨Nat.succ_pos j, Finset.mem_range.mp hlt, hsuf⟩
  rw [hmap, Finset.card_map]

/-- The children of a state that the word `u` reads: exactly the continuations of `u` that are not the
separator, once each, in non-increasing order of `key`. -/
structure ListsContinuations (s : SuffixAutomaton) (u : List ℤ) (children : List (ℤ × ℕ)) (key : ℕ → ℤ) :
    Prop where
  mem : ∀ token t, (token, t) ∈ children ↔ token ≠ kSeparatorToken ∧ s.graph.read 0 (u ++ [token]) = some t
  once : (children.map Prod.fst).Nodup
  order : children.Pairwise fun l r => key r.2 ≤ key l.2

/-- What `match` returns for the tokens `ctx` it looks at: the state of the longest suffix that occurs, and the
states along its suffix links, in decreasing length, without those that only the separator continues; each with
the length of a suffix of `ctx` that it is the state of. -/
def Matches (w : List ℤ) (s : SuffixAutomaton) (ctx : List ℤ) (result : List (ℕ × ℕ)) : Prop :=
  ∃ y v, Longest w ctx y ∧ s.graph.read 0 y = some v ∧
    (y = [] ∧ result = [] ∨
      y ≠ [] ∧ ∃ ls, LinkPath s.graph v ls ∧
        result = ((v, y.length) :: ls.map fun l => (l, (s.states l).maxLen)).filter s.keep ∧
        result.Pairwise (fun a b => b.2 < a.2) ∧
        ∀ a ∈ result, ∃ x, x <:+ ctx ∧ x.length = a.2 ∧ s.graph.read 0 x = some a.1)

/-- The automaton is that of the corpus `w`. -/
structure IsCorpusAutomaton (w : List ℤ) (s : SuffixAutomaton) : Prop where
  paths : ∀ u, u ≠ [] → ((∃ v, s.graph.read 0 u = some v) ↔ u <:+: w)
  occCount : ∀ u v, u ≠ [] → s.graph.read 0 u = some v → (s.states v).occCount = occurrences w u
  maxEndPos : ∀ u v, u ≠ [] → s.graph.read 0 u = some v →
    ∃ i : ℕ, (s.states v).maxEndPos = i ∧ IsGreatest {i | i < w.length ∧ u <:+ w.take (i + 1)} i
  childrenByFreq : ∀ u v, s.graph.read 0 u = some v →
    ListsContinuations s u (s.states v).childrenByFreq fun v => (s.states v).occCount
  childrenByRecency : ∀ u v, s.graph.read 0 u = some v →
    ListsContinuations s u (s.states v).childrenByRecency fun v => (s.states v).maxEndPos
  matched : ∀ context maxDepth,
    Matches w s (context.drop (context.length - maxDepth)) (s.matchContext context maxDepth)

theorem Final.ne_zero (h : Final w s str) {v : ℕ} (hu : u ≠ []) (hread : s.graph.read 0 u = some v) :
    v ≠ 0 := by
  rintro rfl
  have := ((h.dawg.read_spec u).1 0 hread).2.1
  rw [h.dawg.root, suffix_nil] at this
  exact hu this

theorem listsContinuations_of_read {v : ℕ} (hread : s.graph.read 0 u = some v) (key : ℕ → ℤ) :
    ListsContinuations s u ((continuations (s.states v)).mergeSort (before key)) key := by
  obtain ⟨hperm, hsorted⟩ := children_spec (s.states v) key
  refine ⟨fun token t => ?_, ?_, hsorted⟩
  · rw [hperm.mem_iff, mem_continuations, Graph.read_concat, hread]
    exact Iff.rfl
  · rw [(hperm.map Prod.fst).nodup_iff]
    exact nodup_continuations _

theorem Final.matches_context (h : Final w s str) (hload : s.loaded = true) (context : List ℤ) (maxDepth : ℕ) :
    Matches w s (context.drop (context.length - maxDepth)) (s.matchContext context maxDepth) := by
  obtain ⟨y, hy, hv, hholds, hlen⟩ := h.matchAll (context.drop (context.length - maxDepth))
  refine ⟨y, _, hy, h.dawg.read_of_holds hv hholds, ?_⟩
  unfold matchContext
  rw [hload]
  by_cases hnil : y = []
  · left
    refine ⟨hnil, ?_⟩
    split
    · rfl
    · dsimp only
      rw [hlen, hnil]
      exact if_neg fun h => lt_irrefl _ h.2
  · right
    have hcontext : context ≠ [] := by
      rintro rfl
      have hsuf := hy.suffix
      rw [drop_nil, suffix_nil] at hsuf
      exact hnil hsuf
    have h0 := h.ne_zero hnil (h.dawg.read_of_holds hv hholds)
    have hfuel : (str ((context.drop (context.length - maxDepth)).foldl s.matchToken (0, 0)).1).length <
        (s.states ((context.drop (context.length - maxDepth)).foldl s.matchToken (0, 0)).1).maxLen + 1 := by
      rw [h.maxLen _ hv]
      exact Nat.lt_succ_self _
    obtain ⟨ls, hpath, hanchors, hdec, hall⟩ := h.anchors _ hv h0 hholds hfuel
    refine ⟨hnil, ls, hpath, ?_⟩
    rw [if_neg (by simpa using hcontext)]
    dsimp only
    rw [hlen, hanchors]
    refine ⟨rfl, hdec.sublist filter_sublist, fun a ha => ?_⟩
    obtain ⟨x, hx, hxlen, hxread⟩ := hall a (mem_of_mem_filter ha)
    exact ⟨x, hx.trans hy.suffix, hxlen, hxread⟩

theorem Final.isCorpusAutomaton (h : Final w s str) (hmatch : ∀ context maxDepth,
      Matches w s (context.drop (context.length - maxDepth)) (s.matchContext context maxDepth)) :
    IsCorpusAutomaton w s where
  paths u _ := (h.dawg.read_spec u).2.trans occurs_iff_infix
  occCount u v hu hread := by
    obtain ⟨hv, hholds⟩ := (h.dawg.read_spec u).1 v hread
    rw [h.occCount v hv (h.ne_zero hu hread), ← card_endsOf]
    congr 1
    ext i
    rw [mem_endsOf, mem_endsOf, hholds.2 i]
  maxEndPos u v hu hread := by
    obtain ⟨hv, hholds⟩ := (h.dawg.read_spec u).1 v hread
    obtain ⟨i, hi, hends, hmax⟩ := h.maxEndPos v hv (h.ne_zero hu hread)
    refine ⟨i, hi, ((hholds.2 _).mpr hends), ?_⟩
    rintro j ⟨hj, hsuf⟩
    exact Nat.le_of_succ_le_succ (hmax (j + 1) ((hholds.2 _).mp ⟨hj, hsuf⟩))
  childrenByFreq u v hread := by
    rw [h.childrenByFreq v]
    exact listsContinuations_of_read hread _
  childrenByRecency u v hread := by
    rw [h.childrenByRecency v]
    exact listsContinuations_of_read hread _
  matched := hmatch

theorem append_of_flatten_nil {chunks : List (List ℤ)} (h : chunks.flatten = []) :
    ({} : SuffixAutomaton).append chunks = some {} := by
  induction chunks with
  | nil => rfl
  | cons tokens chunks ih =>
    rw [flatten_cons, append_eq_nil_iff] at h
    obtain ⟨rfl, hrest⟩ := h
    exact ih hrest

/-- The sort by `max_len` gives an order. -/
theorem exists_isOrder (s : SuffixAutomaton) : ∃ order, s.IsOrder order := by
  refine ⟨(range s.size).mergeSort fun l r => (s.states l).maxLen ≤ (s.states r).maxLen, mergeSort_perm _ _, ?_⟩
  refine (pairwise_mergeSort ?_ ?_ _).imp fun hle => of_decide_eq_true hle
  · intro a b c hab hbc
    exact decide_eq_true ((of_decide_eq_true hab).trans (of_decide_eq_true hbc))
  · intro a b
    rw [Bool.or_eq_true, decide_eq_true_eq, decide_eq_true_eq]
    exact Nat.le_total _ _

/-- **A corpus appended in any chunks and finalised is held in its suffix automaton**, whatever order the sort
by `max_len` gives: the paths from the root are its contiguous parts, their states have the number and the last
of their occurrences and list their continuations by them, and a context is matched by the longest suffix that
occurs and those along its suffix links. -/
theorem corpus_automaton (chunks : List (List ℤ)) : ∃ s, ({} : SuffixAutomaton).append chunks = some s ∧
    ∀ order, s.IsOrder order → IsCorpusAutomaton chunks.flatten (s.finalize order) := by
  obtain ⟨s, str, hrun, h⟩ := appended_nil.append chunks
  rw [nil_append] at h
  refine ⟨s, hrun, fun order horder => ?_⟩
  have hphase := h.phase
  simp only [phase, Prod.mk.injEq] at hphase
  obtain ⟨-, hsaw, hfin, hload⟩ := hphase
  unfold finalize
  rw [hfin, if_neg Bool.false_ne_true]
  by_cases hnil : chunks.flatten = []
  · -- nothing was appended
    rw [hsaw, if_neg (by simpa using hnil)]
    have hs := Option.some.inj (hrun.symm.trans (append_of_flatten_nil hnil))
    subst hs
    rw [hnil] at h ⊢
    have hb := h.built
    have hfinal : Final [] { ({} : SuffixAutomaton) with finalized := true } str :=
      Built.final_nil { hb with } rfl rfl
    refine hfinal.isCorpusAutomaton fun context maxDepth => ?_
    refine ⟨[], 0, ⟨nil_suffix, occurs_of_suffix suffix_rfl, fun u _ hu => ?_⟩, rfl, .inl ⟨rfl, rfl⟩⟩
    exact suffix_nil.mpr (length_eq_zero_iff.mp (Nat.le_zero.mp hu.length_le))
  · rw [hsaw, if_pos (by simpa using hnil)]
    have hprop := h.built.propagate horder
    have hfinal : Final chunks.flatten
        { s.propagateOccurrencesAndRecency order with finalized := true, loaded := true } str :=
      { hprop with }
    exact hfinal.isCorpusAutomaton (hfinal.matches_context rfl)

/-- Two chunks that repeat a token, in the order of a sort. -/
theorem corpus_automaton_repeated : ∃ s order, ({} : SuffixAutomaton).append [[1, 2], [1]] = some s ∧
    s.IsOrder order ∧ IsCorpusAutomaton [1, 2, 1] (s.finalize order) := by
  obtain ⟨s, hrun, hall⟩ := corpus_automaton [[1, 2], [1]]
  obtain ⟨order, horder⟩ := s.exists_isOrder
  exact ⟨s, order, hrun, horder, hall order horder⟩

end SuffixAutomaton

end SGLang.Ngram
