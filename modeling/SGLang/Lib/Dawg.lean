/-
# SGLang.Lib.Dawg — the suffix automaton of a text, and the text with one more letter.

The states of the suffix automaton of a text stand for its closed words; a state holds the suffixes of its word
that end at the same places. A suffix link leads to the longest suffix that ends at more places, a transition to
the state that holds the word with one more letter. `IsDawg` says that a graph is the suffix automaton, in terms
of the word of each state.

When the text grows by a letter, its new suffixes get a state of their own, and the longest of the old ones
becomes closed: it is the word of a state already, or a state is split off the one that holds it (`Extension`).
What results is the suffix automaton of the new text (`IsDawg.extend`).
-/
import Mathlib.Data.Finset.Filter
import Mathlib.Data.Finset.Disjoint
import Mathlib.Data.Finset.Lattice.Basic
import Mathlib.Data.Finset.Range
import SGLang.Lib.Occurrences

namespace SGLang.Lib.Dawg

open SGLang.Lib.Occurrences Option List

/-- States with suffix links and transitions. -/
structure Graph (α : Type) where
  size : ℕ
  link : ℕ → Option ℕ
  next : ℕ → α → Option ℕ

/-- The state reached from `v` by the letters of a word. -/
def Graph.read {α : Type} (g : Graph α) : ℕ → List α → Option ℕ
  | v, [] => some v
  | v, a :: u =>
    match g.next v a with
    | none => none
    | some t => g.read t u

theorem Graph.read_concat {α : Type} (g : Graph α) (v : ℕ) (u : List α) (a : α) :
    g.read v (u ++ [a]) = (g.read v u).bind fun t => g.next t a := by
  induction u generalizing v with
  | nil =>
    show (match g.next v a with | none => none | some t => some t) = g.next v a
    cases g.next v a with
    | none => rfl
    | some t => rfl
  | cons b u ih =>
    show (match g.next v b with | none => none | some t => g.read t (u ++ [a])) =
      (match g.next v b with | none => none | some t => g.read t u).bind _
    cases g.next v b with
    | none => rfl
    | some t => exact ih t

variable {α : Type} {w u x z : List α} {a b : α} {g g' : Graph α} {str str' : ℕ → List α} {v t q r cur : ℕ}

/-- A state with word `x` holds `u`. -/
def Holds (w x u : List α) : Prop := u <:+ x ∧ SameEnds w u x

/-- The graph is the suffix automaton of `w`, with the word `str v` for each state `v`. -/
structure IsDawg (w : List α) (g : Graph α) (str : ℕ → List α) : Prop where
  size_pos : 0 < g.size
  root : str 0 = []
  root_link : g.link 0 = none
  closed : ∀ v < g.size, Closed w (str v)
  inj : ∀ v < g.size, ∀ v' < g.size, str v = str v' → v = v'
  cover : ∀ u, Occurs w u → ∃ v < g.size, Holds w (str v) u
  link : ∀ v < g.size, v ≠ 0 → ∃ l < g.size, g.link v = some l ∧ str l <:+ str v ∧
    (str l).length < (str v).length ∧ ∀ u, u <:+ str v → (str l).length < u.length → SameEnds w u (str v)
  next_holds : ∀ v < g.size, ∀ b t, g.next v b = some t → t < g.size ∧ Holds w (str t) (str v ++ [b])
  next_total : ∀ v < g.size, ∀ b, Occurs w (str v ++ [b]) → ∃ t, g.next v b = some t

namespace IsDawg

/-- The text of one state. -/
theorem nil : IsDawg ([] : List α) ⟨1, fun _ => none, fun _ _ => none⟩ fun _ => [] where
  size_pos := Nat.one_pos
  root := rfl
  root_link := rfl
  closed _ _ := closed_self []
  inj v hv v' hv' _ := (Nat.lt_one_iff.mp hv).trans (Nat.lt_one_iff.mp hv').symm
  cover u hu := by
    obtain rfl : u = [] := length_eq_zero_iff.mp (Nat.le_zero.mp hu.length_le)
    exact ⟨0, Nat.one_pos, suffix_rfl, .refl _ _⟩
  link v hv hne := absurd (Nat.lt_one_iff.mp hv) hne
  next_holds _ _ _ _ h := nomatch h
  next_total v _ b h := by
    have := h.length_le
    rw [length_append, length_singleton] at this
    exact absurd this (by simp)

section

variable (h : IsDawg w g str)
include h

section

variable (hv : v < g.size)
include hv

/-- A word is held by one state. -/
theorem eq_of_holds (ht : t < g.size) (hu : Holds w (str v) u) (hu' : SameEnds w u (str t)) : v = t :=
  h.inj v hv t ht ((h.closed v hv).eq (h.closed t ht) (hu.2.symm.trans hu'))

theorem occurs_str : Occurs w (str v) := (h.closed v hv).occurs

omit hv in
omit h in
theorem holds_self (w : List α) (x : List α) : Holds w x x := ⟨suffix_rfl, .refl _ _⟩

/-- There is a transition exactly for the letters that follow the word. -/
theorem next_isSome_iff (b : α) : (∃ t, g.next v b = some t) ↔ Occurs w (str v ++ [b]) := by
  refine ⟨?_, h.next_total v hv b⟩
  rintro ⟨t, ht⟩
  obtain ⟨hlt, hholds⟩ := h.next_holds v hv b t ht
  exact hholds.2.occurs_iff.mpr (h.occurs_str hlt)

theorem next_eq_none_iff (b : α) : g.next v b = none ↔ ¬ Occurs w (str v ++ [b]) := by
  rw [← h.next_isSome_iff hv, ← not_isSome_iff_eq_none, isSome_iff_exists]

/-- **Reading one letter**: from a state that holds `u` a transition leads to the state that holds `u` with the
letter. -/
theorem next_holds_concat (hu : Holds w (str v) u) (ht : g.next v b = some t) :
    t < g.size ∧ Holds w (str t) (u ++ [b]) := by
  obtain ⟨hlt, hsuf, hends⟩ := h.next_holds v hv b t ht
  exact ⟨hlt, (suffix_concat_iff.mpr ⟨hu.1, rfl⟩).trans hsuf, (hu.2.concat b).trans hends⟩

theorem next_isSome_concat_iff (hu : Holds w (str v) u) (b : α) :
    (∃ t, g.next v b = some t) ↔ Occurs w (u ++ [b]) := by
  rw [h.next_isSome_iff hv, (hu.2.concat b).occurs_iff]

omit hv in
/-- **Reading** a word from the root leads to the state that holds it, and is possible exactly for the words
that occur. -/
theorem read_spec (u : List α) :
    (∀ v, g.read 0 u = some v → v < g.size ∧ Holds w (str v) u) ∧
      ((∃ v, g.read 0 u = some v) ↔ Occurs w u) := by
  induction u using reverseRecOn with
  | nil =>
    refine ⟨?_, iff_of_true ⟨0, rfl⟩ (occurs_of_suffix nil_suffix)⟩
    rintro v ⟨⟩
    exact ⟨h.size_pos, h.root ▸ holds_self w _⟩
  | append_singleton u a ih =>
    obtain ⟨hread, hocc⟩ := ih
    refine ⟨?_, ?_⟩
    · intro t ht
      rw [Graph.read_concat] at ht
      obtain ⟨v, hv, hnext⟩ := bind_eq_some_iff.mp ht
      exact h.next_holds_concat (hread v hv).1 (hread v hv).2 hnext
    · constructor
      · rintro ⟨t, ht⟩
        rw [Graph.read_concat] at ht
        obtain ⟨v, hv, hnext⟩ := bind_eq_some_iff.mp ht
        exact (h.next_isSome_concat_iff (hread v hv).1 (hread v hv).2 a).mp ⟨t, hnext⟩
      · intro hua
        obtain ⟨v, hv⟩ := hocc.mpr hua.of_concat
        obtain ⟨t, ht⟩ := (h.next_isSome_concat_iff (hread v hv).1 (hread v hv).2 a).mpr hua
        refine ⟨t, ?_⟩
        rw [Graph.read_concat, hv]
        exact ht

/-- A state reads the words it holds. -/
theorem read_of_holds (hu : Holds w (str v) u) : g.read 0 u = some v := by
  obtain ⟨hread, hocc⟩ := h.read_spec u
  obtain ⟨t, ht⟩ := hocc.mpr (hu.2.occurs_iff.mpr (h.occurs_str hv))
  rw [ht, h.eq_of_holds (hread t ht).1 hv (hread t ht).2 hu.2]

/-- The words of a state are longer than that of its link. -/
theorem link_lt_of_holds (hu : Holds w (str v) u) {l : ℕ}
    (hl : g.link v = some l) : l < g.size ∧ (str l).length < u.length ∧ str l <:+ u := by
  have h0 : v ≠ 0 := by
    rintro rfl
    rw [h.root_link] at hl
    cases hl
  obtain ⟨l', hl', hlink, hsuf, hlen, -⟩ := h.link v hv h0
  obtain rfl := some.inj (hlink.symm.trans hl)
  have hlt : (str l').length < u.length := by
    by_contra hge
    have hul := suffix_of_suffix_length_le hu.1 hsuf (Nat.not_lt.mp hge)
    have hlv := h.eq_of_holds hl' hv (holds_self w _) (hu.2.between hul hsuf)
    rw [hlv] at hlen
    exact lt_irrefl _ hlen
  exact ⟨hl', hlt, suffix_of_suffix_length_le hsuf hu.1 hlt.le⟩

/-- The states whose word is a suffix of the word of `v` are `v` and those below its link. -/
theorem suffix_cases (ht : t < g.size) (hs : str t <:+ str v) :
    t = v ∨ ∃ l < g.size, g.link v = some l ∧ (str l).length < (str v).length ∧ str l <:+ str v ∧
      str t <:+ str l := by
  by_cases h0 : v = 0
  · left
    subst h0
    rw [h.root, suffix_nil] at hs
    exact h.inj t ht 0 hv (hs.trans h.root.symm)
  · obtain ⟨l, hl, hlink, hsuf, hlen, hclass⟩ := h.link v hv h0
    by_cases hle : (str t).length ≤ (str l).length
    · exact .inr ⟨l, hl, hlink, hlen, hsuf, suffix_of_suffix_length_le hs hsuf hle⟩
    · exact .inl (h.eq_of_holds ht hv (holds_self w _) (hclass _ hs (by omega)))

end

end

end IsDawg

/-! ## One more letter -/

/-- What the graph of `w ++ [a]` is made of: a state `cur` for the new suffixes, and a state `r` for the longest
old one `z`, which is the state `q` that held `z`, or a new one with the transitions of `q` and in front of
it. -/
structure Extension (w : List α) (a : α) (z : List α) (g g' : Graph α) (str str' : ℕ → List α) (q r cur : ℕ) :
    Prop where
  longest : Longest w (w ++ [a]) z
  q_lt : q < g.size
  q_holds : Holds w (str q) z
  split : r = q ∨ ¬ r < g.size ∧ r ≠ cur ∧ str q ≠ z
  lt_size : ∀ v, v < g'.size ↔ v < g.size ∨ v = cur ∨ v = r
  str_old : ∀ v < g.size, str' v = str v
  str_cur : str' cur = w ++ [a]
  str_r : str' r = z
  link_old : ∀ v < g.size, v ≠ q ∨ r = q → g'.link v = g.link v
  link_cur : g'.link cur = some r
  link_q : r ≠ q → g'.link q = some r
  link_r : r ≠ q → g'.link r = g.link q
  next_cur : ∀ b, g'.next cur b = none
  next_new : ∀ v < g.size, str v <:+ w → ¬ Occurs w (str v ++ [a]) → g'.next v a = some cur
  next_q : ∀ v < g.size, str v <:+ w → g.next v a = some q → g'.next v a = some r
  next_old : ∀ v < g.size, ∀ b, (b = a → str v <:+ w → Occurs w (str v ++ [a]) ∧ g.next v a ≠ some q) →
    g'.next v b = g.next v b
  next_r : r ≠ q → ∀ b, g'.next r b = g'.next q b

namespace Extension

/-- The state `cur` holds the new suffixes. -/
theorem holds_cur (hu : u <:+ w ++ [a]) (hnew : ¬ Occurs w u) : Holds (w ++ [a]) (w ++ [a]) u :=
  ⟨hu, sameEnds_of_new hu hnew⟩

variable (e : Extension w a z g g' str str' q r cur)

include e

theorem q_parted (hr : r ≠ q) : str q ≠ z := by
  rcases e.split with h | h
  · exact absurd h hr
  · exact h.2.2

/-- The state `r` holds the suffixes of `z` that `q` held. -/
theorem holds_r (hu : SameEnds w u (str q)) (hz : u <:+ z) : Holds (w ++ [a]) z u := by
  have huz := hu.trans e.q_holds.2.symm
  exact ⟨hz, (e.longest.sameEnds_iff (huz.occurs_iff.mpr e.longest.occurs) e.longest.occurs).mpr
    ⟨huz, iff_of_true hz suffix_rfl⟩⟩

variable (h : IsDawg w g str)

include h

/-- Of the words of an old state only those of `q` are parted by `z`. -/
theorem parts (hv : v < g.size)
    (hu : Holds w (str v) u) (hz : u <:+ z) : str v <:+ z ∨ v = q ∧ r ≠ q ∧ Holds w (str q) u := by
  obtain ⟨i, hi⟩ := e.longest.occurs
  have hvi : Ends w (str v) i := (hu.2 i).mp (hi.mono hz)
  rcases Nat.le_total (str v).length z.length with hle | hle
  · exact .inl (hvi.suffix hi hle)
  · have hsuf := hi.suffix hvi hle
    have hvz : Holds w (str v) z := ⟨hsuf, hu.2.between hz hsuf⟩
    obtain rfl := h.eq_of_holds hv e.q_lt hvz e.q_holds.2
    rcases e.split with hr | ⟨hr, -, -⟩
    · left
      rw [← hr, ← e.str_old r (hr ▸ hv), e.str_r]
    · exact .inr ⟨rfl, fun hq => hr (hq ▸ hv), hu⟩

/-- An old state keeps a word, unless it is `q` and the word is split off it. -/
theorem holds_old (hv : v < g.size)
    (hu : Holds w (str v) u) (hparts : ¬ (v = q ∧ r ≠ q ∧ u <:+ z)) : Holds (w ++ [a]) (str v) u := by
  have hocc := h.occurs_str hv
  refine ⟨hu.1, (e.longest.sameEnds_iff (hu.2.occurs_iff.mpr hocc) hocc).mpr ⟨hu.2, ?_⟩⟩
  constructor
  · intro hz
    rcases e.parts h hv hu hz with hs | ⟨hq, hr, -⟩
    · exact hs
    · exact absurd ⟨hq, hr, hz⟩ hparts
  · exact fun hz => hu.1.trans hz

theorem closed (hv : v < g'.size) : Closed (w ++ [a]) (str' v) := by
  rcases (e.lt_size v).mp hv with hv | rfl | rfl
  · rw [e.str_old v hv]
    exact (h.closed v hv).append a
  · rw [e.str_cur]
    exact closed_self _
  · rw [e.str_r]
    exact e.longest.closed

theorem str_ne_cur (hv : v < g'.size) (hne : v ≠ cur) : str' v ≠ w ++ [a] := by
  intro heq
  apply not_occurs_self_append w a
  rw [← heq]
  rcases (e.lt_size v).mp hv with hv | rfl | rfl
  · rw [e.str_old v hv]
    exact h.occurs_str hv
  · exact absurd rfl hne
  · rw [e.str_r]
    exact e.longest.occurs

theorem str_ne_r (hv : v < g.size) (hne : v ≠ r) : str v ≠ z := by
  intro heq
  have hvq := h.eq_of_holds hv e.q_lt (IsDawg.holds_self w _) (heq ▸ e.q_holds.2)
  rcases e.split with hr | ⟨-, -, hr⟩
  · exact hne (hvq.trans hr.symm)
  · exact hr (hvq ▸ heq)

theorem inj (hv : v < g'.size) (ht : t < g'.size) (heq : str' v = str' t) : v = t := by
  by_cases hvc : v = cur
  · by_contra hne
    exact e.str_ne_cur h ht (fun htc => hne (hvc.trans htc.symm)) (by rw [← heq, hvc, e.str_cur])
  by_cases htc : t = cur
  · exact absurd (by rw [heq, htc, e.str_cur]) (e.str_ne_cur h hv hvc)
  rcases (e.lt_size v).mp hv with hv | rfl | rfl
  · rcases (e.lt_size t).mp ht with ht | rfl | rfl
    · rw [e.str_old v hv, e.str_old t ht] at heq
      exact h.inj v hv t ht heq
    · exact absurd rfl htc
    · by_contra hne
      rw [e.str_old v hv, e.str_r] at heq
      exact e.str_ne_r h hv hne heq
  · exact absurd rfl hvc
  · rcases (e.lt_size t).mp ht with ht | rfl | rfl
    · by_contra hne
      rw [e.str_old t ht, e.str_r] at heq
      exact e.str_ne_r h ht (fun htr => hne htr.symm) heq.symm
    · exact absurd rfl htc
    · rfl

theorem cover (hu : Occurs (w ++ [a]) u) : ∃ v < g'.size, Holds (w ++ [a]) (str' v) u := by
  by_cases hold : Occurs w u
  · obtain ⟨v, hv, hholds⟩ := h.cover u hold
    by_cases hparts : v = q ∧ r ≠ q ∧ u <:+ z
    · obtain ⟨rfl, -, hz⟩ := hparts
      refine ⟨r, (e.lt_size r).mpr (.inr (.inr rfl)), ?_⟩
      rw [e.str_r]
      exact e.holds_r hholds.2 hz
    · refine ⟨v, (e.lt_size v).mpr (.inl hv), ?_⟩
      rw [e.str_old v hv]
      exact e.holds_old h hv hholds hparts
  · refine ⟨cur, (e.lt_size cur).mpr (.inr (.inl rfl)), ?_⟩
    rw [e.str_cur]
    exact holds_cur ((occurs_append_iff.mp hu).resolve_left hold) hold

/-- The link of a split state leads where the old state's link led. -/
theorem link_q_lt (hr : r ≠ q) :
    ∃ l < g.size, g.link q = some l ∧ str l <:+ z ∧ (str l).length < z.length ∧
      ∀ u, u <:+ z → (str l).length < u.length → SameEnds w u (str q) := by
  have hq0 : q ≠ 0 := by
    rintro rfl
    have hz := e.q_holds.1
    rw [h.root, suffix_nil] at hz
    exact e.q_parted hr (h.root.trans hz.symm)
  obtain ⟨l, hl, hlink, hsuf, hlen, hclass⟩ := h.link q e.q_lt hq0
  have hlt : (str l).length < z.length := by
    by_contra hge
    -- otherwise `z` lies in the word of `l`, which then ends where that of `q` does
    have hzl := suffix_of_suffix_length_le e.q_holds.1 hsuf (by omega)
    have hlq := h.eq_of_holds hl e.q_lt (IsDawg.holds_self w _) (e.q_holds.2.between hzl hsuf)
    rw [hlq] at hlen
    exact lt_irrefl _ hlen
  refine ⟨l, hl, hlink, suffix_of_suffix_length_le hsuf e.q_holds.1 hlt.le, hlt, ?_⟩
  exact fun u hu hlu => hclass u (hu.trans e.q_holds.1) hlu

theorem link (hv : v < g'.size) (h0 : v ≠ 0) :
    ∃ l < g'.size, g'.link v = some l ∧ str' l <:+ str' v ∧ (str' l).length < (str' v).length ∧
      ∀ u, u <:+ str' v → (str' l).length < u.length → SameEnds (w ++ [a]) u (str' v) := by
  have hr_lt : r < g'.size := (e.lt_size r).mpr (.inr (.inr rfl))
  -- the states that were there
  have hold : ∀ v < g.size, v ≠ 0 → v ≠ q ∨ r = q → ∃ l < g'.size, g'.link v = some l ∧ str' l <:+ str' v ∧
      (str' l).length < (str' v).length ∧
      ∀ u, u <:+ str' v → (str' l).length < u.length → SameEnds (w ++ [a]) u (str' v) := by
    intro v hv h0 hvq
    obtain ⟨l, hl, hlink, hsuf, hlen, hclass⟩ := h.link v hv h0
    refine ⟨l, (e.lt_size l).mpr (.inl hl), (e.link_old v hv hvq).trans hlink, ?_⟩
    rw [e.str_old v hv, e.str_old l hl]
    refine ⟨hsuf, hlen, fun u hu hlu => (e.holds_old h hv ⟨hu, hclass u hu hlu⟩ ?_).2⟩
    rintro ⟨hq, hr, -⟩
    rcases hvq with hvq | hvq
    · exact hvq hq
    · exact hr hvq
  rcases (e.lt_size v).mp hv with hv | rfl | rfl
  · by_cases hvq : v ≠ q ∨ r = q
    · exact hold v hv h0 hvq
    · obtain ⟨hvq, hr⟩ := not_or.mp hvq
      obtain rfl := not_not.mp hvq
      -- the words that stay with `q` are longer than `z`
      refine ⟨r, hr_lt, e.link_q hr, ?_⟩
      rw [e.str_old v hv, e.str_r]
      have hlen : z.length < (str v).length := by
        refine lt_of_le_of_ne e.q_holds.1.length_le fun hlen => ?_
        exact e.q_parted hr (e.q_holds.1.eq_of_length hlen).symm
      refine ⟨e.q_holds.1, hlen, ?_⟩
      intro u hu hzu
      have huv := e.q_holds.2.between (suffix_of_suffix_length_le e.q_holds.1 hu hzu.le) hu
      refine (e.holds_old h hv ⟨hu, huv⟩ ?_).2
      rintro ⟨-, -, hz⟩
      exact absurd hz.length_le (by omega)
  · refine ⟨r, hr_lt, e.link_cur, ?_⟩
    rw [e.str_cur, e.str_r]
    refine ⟨e.longest.suffix, e.longest.length_lt, fun u hu hzu => sameEnds_of_new hu fun hocc => ?_⟩
    exact absurd (e.longest.max u hu hocc).length_le (by omega)
  · by_cases hr : v = q
    · have hv : v < g.size := hr ▸ e.q_lt
      exact hold v hv h0 (.inr hr)
    · obtain ⟨l, hl, hlink, hsuf, hlen, hclass⟩ := e.link_q_lt h hr
      refine ⟨l, (e.lt_size l).mpr (.inl hl), (e.link_r hr).trans hlink, ?_⟩
      rw [e.str_r, e.str_old l hl]
      exact ⟨hsuf, hlen, fun u hu hlu => (e.holds_r (hclass u hu hlu) hu).2⟩

theorem next_holds_old (hv : v < g.size)
    (ht : g'.next v b = some t) : t < g'.size ∧ Holds (w ++ [a]) (str' t) (str v ++ [b]) := by
  by_cases hchange : b = a → str v <:+ w → Occurs w (str v ++ [a]) ∧ g.next v a ≠ some q
  · rw [e.next_old v hv b hchange] at ht
    obtain ⟨hlt, hholds⟩ := h.next_holds v hv b t ht
    refine ⟨(e.lt_size t).mpr (.inl hlt), ?_⟩
    rw [e.str_old t hlt]
    refine e.holds_old h hlt hholds ?_
    rintro ⟨rfl, -, hz⟩
    obtain ⟨hsuf, rfl⟩ := Occurrences.suffix_concat_iff.mp (hz.trans e.longest.suffix)
    exact (hchange rfl hsuf).2 ht
  · push Not at hchange
    obtain ⟨rfl, hsuf, hchange⟩ := hchange
    have hnew : str v ++ [b] <:+ w ++ [b] := suffix_concat_iff.mpr ⟨hsuf, rfl⟩
    by_cases hocc : Occurs w (str v ++ [b])
    · have hq := hchange hocc
      obtain rfl := some.inj ((e.next_q v hv hsuf hq).symm.trans ht)
      refine ⟨(e.lt_size r).mpr (.inr (.inr rfl)), ?_⟩
      rw [e.str_r]
      exact e.holds_r (h.next_holds v hv b q hq).2.2 (e.longest.max _ hnew hocc)
    · obtain rfl := some.inj ((e.next_new v hv hsuf hocc).symm.trans ht)
      refine ⟨(e.lt_size cur).mpr (.inr (.inl rfl)), ?_⟩
      rw [e.str_cur]
      exact holds_cur hnew hocc

/-- A transition of the state that is split is one of the new state too. -/
theorem next_holds_r (ht : g'.next q b = some t) : t < g'.size ∧ Holds (w ++ [a]) (str' t) (z ++ [b]) := by
  obtain ⟨hlt, hsuf, hends⟩ := e.next_holds_old h e.q_lt ht
  refine ⟨hlt, (suffix_concat_iff.mpr ⟨e.q_holds.1, rfl⟩).trans hsuf, SameEnds.trans ?_ hends⟩
  -- neither word is a suffix of `z`, and both are or are not suffixes of the new text
  rw [sameEnds_append_iff]
  refine ⟨e.q_holds.2.concat b, ?_⟩
  rw [Occurrences.suffix_concat_iff, Occurrences.suffix_concat_iff, ← ends_length_iff, ← ends_length_iff,
    e.q_holds.2]

theorem next_holds (hv : v < g'.size)
    (ht : g'.next v b = some t) : t < g'.size ∧ Holds (w ++ [a]) (str' t) (str' v ++ [b]) := by
  rcases (e.lt_size v).mp hv with hv | rfl | rfl
  · rw [e.str_old v hv]
    exact e.next_holds_old h hv ht
  · rw [e.next_cur] at ht
    cases ht
  · by_cases hr : v = q
    · have hv : v < g.size := hr ▸ e.q_lt
      rw [e.str_old v hv]
      exact e.next_holds_old h hv ht
    · rw [e.str_r]
      exact e.next_holds_r h (e.next_r hr b ▸ ht)

theorem next_total_old (hv : v < g.size)
    (hocc : Occurs (w ++ [a]) (str v ++ [b])) : ∃ t, g'.next v b = some t := by
  by_cases hold : Occurs w (str v ++ [b])
  · obtain ⟨t, ht⟩ := h.next_total v hv b hold
    by_cases hq : b = a ∧ str v <:+ w ∧ t = q
    · obtain ⟨rfl, hsuf, rfl⟩ := hq
      exact ⟨r, e.next_q v hv hsuf ht⟩
    · refine ⟨t, (e.next_old v hv b ?_).trans ht⟩
      rintro rfl hsuf
      exact ⟨hold, fun hnext => hq ⟨rfl, hsuf, some.inj (ht.symm.trans hnext)⟩⟩
  · obtain ⟨hsuf, rfl⟩ := Occurrences.suffix_concat_iff.mp ((occurs_append_iff.mp hocc).resolve_left hold)
    exact ⟨cur, e.next_new v hv hsuf hold⟩

theorem next_total (hv : v < g'.size) (hocc : Occurs (w ++ [a]) (str' v ++ [b])) :
    ∃ t, g'.next v b = some t := by
  rcases (e.lt_size v).mp hv with hv | rfl | rfl
  · rw [e.str_old v hv] at hocc
    exact e.next_total_old h hv hocc
  · rw [e.str_cur] at hocc
    exact absurd hocc (not_occurs_self_append _ _)
  · by_cases hr : v = q
    · have hv : v < g.size := hr ▸ e.q_lt
      rw [e.str_old v hv] at hocc
      exact e.next_total_old h hv hocc
    · rw [e.next_r hr b]
      apply e.next_total_old h e.q_lt
      rw [e.str_r, occurs_append_iff, Occurrences.suffix_concat_iff, (e.q_holds.2.concat b).occurs_iff,
        ← ends_length_iff, e.q_holds.2, ends_length_iff] at hocc
      rwa [occurs_append_iff, Occurrences.suffix_concat_iff]

end Extension

/-- **The extension is the suffix automaton of the new text.** -/
theorem IsDawg.extend (h : IsDawg w g str) (e : Extension w a z g g' str str' q r cur) :
    IsDawg (w ++ [a]) g' str' where
  size_pos := lt_of_le_of_lt (Nat.zero_le _) ((e.lt_size cur).mpr (.inr (.inl rfl)))
  root := (e.str_old 0 h.size_pos).trans h.root
  root_link := by
    refine (e.link_old 0 h.size_pos ?_).trans h.root_link
    by_contra hq
    obtain ⟨h0, hr⟩ := not_or.mp hq
    obtain rfl : 0 = q := not_not.mp h0
    have hz := e.q_holds.1
    rw [h.root, suffix_nil] at hz
    exact e.q_parted hr (h.root.trans hz.symm)
  closed _ hv := e.closed h hv
  inj _ hv _ ht heq := e.inj h hv ht heq
  cover _ hu := e.cover h hu
  link _ hv h0 := e.link h hv h0
  next_holds _ hv _ _ ht := e.next_holds h hv ht
  next_total _ hv _ hocc := e.next_total h hv hocc

/-! ## Counting ends along suffix links -/

open Classical in
/-- The ends of a word in a text. -/
noncomputable def endsOf (w u : List α) : Finset ℕ :=
  (Finset.range (w.length + 1)).filter fun i => 0 < i ∧ Ends w u i

theorem mem_endsOf {i : ℕ} : i ∈ endsOf w u ↔ 0 < i ∧ Ends w u i := by
  simp only [endsOf, Finset.mem_filter, Finset.mem_range, and_iff_right_iff_imp]
  exact fun h => Nat.lt_succ_of_le h.2.1

open Classical in
/-- The ends of the word of `v` at which every state between `v` and the text before is in `done`: those that a
pass over the states has brought to `v`, once the states of `done` have handed on theirs. -/
noncomputable def reached (w : List α) (g : Graph α) (str : ℕ → List α) (done : List ℕ) (v : ℕ) : Finset ℕ :=
  (endsOf w (str v)).filter fun i => ∀ x < g.size, x ≠ v → str v <:+ str x → str x <:+ w.take i → x ∈ done

theorem mem_reached {done : List ℕ} {i : ℕ} : i ∈ reached w g str done v ↔ (0 < i ∧ Ends w (str v) i) ∧
    ∀ x < g.size, x ≠ v → str v <:+ str x → str x <:+ w.take i → x ∈ done := by
  simp [reached, mem_endsOf]

namespace IsDawg

/-- Every nonempty beginning of the text is the word of a state. -/
theorem exists_take (h : IsDawg w g str) (i : ℕ) (hi : i ≤ w.length) : ∃ v < g.size, str v = w.take i := by
  have hends : Ends w (w.take i) i := ⟨hi, suffix_rfl⟩
  obtain ⟨v, hv, hsuf, hsame⟩ := h.cover _ ⟨i, hends⟩
  refine ⟨v, hv, ?_⟩
  have := ((hsame i).mp hends).2
  exact this.eq_of_length (Nat.le_antisymm this.length_le hsuf.length_le)

/-- At first a state has the ends of the beginnings of the text that are its word. -/
theorem reached_nil (h : IsDawg w g str) (hv : v < g.size) {i : ℕ} :
    i ∈ reached w g str [] v ↔ 0 < i ∧ i ≤ w.length ∧ str v = w.take i := by
  rw [mem_reached]
  constructor
  · rintro ⟨⟨hpos, hle, hsuf⟩, hbetween⟩
    refine ⟨hpos, hle, ?_⟩
    obtain ⟨t, ht, hstr⟩ := h.exists_take i hle
    by_contra hne
    have htv : t ≠ v := by
      rintro rfl
      exact hne hstr
    exact not_mem_nil (hbetween t ht htv (hstr ▸ hsuf) (hstr ▸ suffix_rfl))
  · rintro ⟨hpos, hle, hstr⟩
    refine ⟨⟨hpos, hle, hstr ▸ suffix_rfl⟩, ?_⟩
    intro x hx hxv hvx hxi
    rw [hstr] at hvx
    have heq : str x = str v := by
      rw [hstr]
      exact hxi.eq_of_length (Nat.le_antisymm hxi.length_le hvx.length_le)
    exact absurd (h.inj x hx v hv heq) hxv

section Pass

variable {done : List ℕ} {d l : ℕ}

/-- A state that is next in a pass by decreasing length has all its ends. -/
theorem reached_next (hlong : ∀ x < g.size, (str d).length < (str x).length → x ∈ done)
    (h : IsDawg w g str) (hd : d < g.size) : reached w g str done d = endsOf w (str d) := by
  ext i
  rw [mem_reached, mem_endsOf]
  refine and_iff_left fun x hx hxd hdx _ => hlong x hx ?_
  refine lt_of_le_of_ne hdx.length_le fun hlen => hxd ?_
  exact h.inj x hx d hd (hdx.eq_of_length hlen).symm

/-- It hands them on to its link, which had none of them. -/
theorem reached_link (h : IsDawg w g str) (hd : d < g.size) (hl : g.link d = some l) (hnew : d ∉ done)
    (hlong : ∀ x < g.size, (str d).length < (str x).length → x ∈ done) :
    reached w g str (d :: done) l = reached w g str done l ∪ endsOf w (str d) ∧
      Disjoint (reached w g str done l) (endsOf w (str d)) := by
  obtain ⟨hlt, hlen, hsuf⟩ := h.link_lt_of_holds hd (holds_self w _) hl
  have hdl : d ≠ l := by
    rintro rfl
    exact lt_irrefl _ hlen
  constructor
  · ext i
    rw [Finset.mem_union, mem_reached, mem_reached, mem_endsOf]
    constructor
    · rintro ⟨hends, hbetween⟩
      by_cases hdi : Ends w (str d) i
      · exact .inr ⟨hends.1, hdi⟩
      · refine .inl ⟨hends, fun x hx hxl hlx hxi => ?_⟩
        rcases mem_cons.mp (hbetween x hx hxl hlx hxi) with rfl | hdone
        · exact absurd ⟨hends.2.1, hxi⟩ hdi
        · exact hdone
    · rintro (⟨hends, hbetween⟩ | ⟨hpos, hdi⟩)
      · exact ⟨hends, fun x hx hxl hlx hxi => mem_cons_of_mem _ (hbetween x hx hxl hlx hxi)⟩
      · refine ⟨⟨hpos, hdi.mono hsuf⟩, fun x hx hxl hlx hxi => ?_⟩
        rcases Nat.lt_or_ge (str d).length (str x).length with hlt' | hge
        · exact mem_cons_of_mem _ (hlong x hx hlt')
        · rcases h.suffix_cases hd hx (suffix_of_suffix_length_le hxi hdi.2 hge) with
            rfl | ⟨l', hl', hlink, -, -, hxl'⟩
          · exact mem_cons_self
          · obtain rfl := some.inj (hlink.symm.trans hl)
            have heq := hxl'.eq_of_length (Nat.le_antisymm hxl'.length_le hlx.length_le)
            exact absurd (h.inj x hx l' hl' heq) hxl
  · rw [Finset.disjoint_left]
    intro i hi hdi
    exact hnew ((mem_reached.mp hi).2 d hd hdl hsuf (mem_endsOf.mp hdi).2.2)

/-- And to no other state. -/
theorem reached_other (h : IsDawg w g str) (hd : d < g.size) (hv : v < g.size) (hvl : g.link d ≠ some v)
    (hshort : ∀ x ∈ done, (str d).length ≤ (str x).length) :
    reached w g str (d :: done) v = reached w g str done v := by
  ext i
  rw [mem_reached, mem_reached]
  refine and_congr_right fun hends => ⟨fun hbetween x hx hxv hvx hxi => ?_, fun hbetween x hx hxv hvx hxi =>
    mem_cons_of_mem _ (hbetween x hx hxv hvx hxi)⟩
  rcases mem_cons.mp (hbetween x hx hxv hvx hxi) with rfl | hdone
  · -- the link of `d` lies between `v` and `d`, and is not handed on yet
    rcases h.suffix_cases hd hv hvx with hvd | ⟨l, hl, hlink, hlen, hlx, hvl'⟩
    · exact absurd hvd.symm hxv
    · have hlv : l ≠ v := fun hlv => hvl (hlv ▸ hlink)
      rcases mem_cons.mp (hbetween l hl hlv hvl' (hlx.trans hxi)) with hlx' | hdone
      · rw [hlx'] at hlen
        exact absurd hlen (lt_irrefl _)
      · exact absurd (hshort l hdone) (Nat.not_le.mpr hlen)
  · exact hdone

/-- Once all have handed on, every state has all its ends. -/
theorem reached_all (hall : ∀ x < g.size, x ∈ done) (v : ℕ) : reached w g str done v = endsOf w (str v) := by
  ext i
  rw [mem_reached, mem_endsOf]
  exact and_iff_left fun x hx _ _ _ => hall x hx

end Pass

end IsDawg

end SGLang.Lib.Dawg
