/-
# SGLang.Ngram.SuffixAutomaton — the automaton of an external corpus.

A corpus is appended token by token to a suffix automaton (`csrc/ngram_corpus/suffix_automaton.cpp`). When it is
complete, the number of occurrences and the last end position of the words of each state are summed up along the
suffix links, longest words first, and the continuations of each state are listed by these values. A context is
then matched by reading it from the root and falling back along the links.

Two loops climb the links when a token is appended. What they do is said in terms of the words of the states:
the first gives the states of the suffixes that the token did not follow a transition to the new state, and
stops at the longest suffix it did follow (`linkNew_spec`); the second moves the transitions of the states below
to the split state (`redirect_spec`). Together they are an extension in the sense of `Lib.Dawg`, so the
automaton is that of the corpus.
-/
import Mathlib.Data.List.AList
import Mathlib.Data.List.Sort
import Mathlib.Algebra.Group.Int.Defs
import SGLang.Lib.Dawg

namespace SGLang.Ngram

open SGLang.Lib Function List
open SGLang.Lib.Occurrences
open SGLang.Lib.Dawg (Graph IsDawg Holds Extension)

/-! ## The code -/

/-- `SamState`; no link is the link -1. -/
structure SamState where
  link : Option ℕ := none
  maxLen : ℕ := 0
  next : AList (fun _ : ℤ => ℕ) := ∅
  occCount : ℕ := 0
  maxEndPos : ℤ := -1
  childrenByFreq : List (ℤ × ℕ) := []
  childrenByRecency : List (ℤ × ℕ) := []

/-- The states are those below `size`. -/
structure SuffixAutomaton where
  states : ℕ → SamState := fun _ => {}
  size : ℕ := 1
  last : ℕ := 0
  pos : ℕ := 0
  sawToken : Bool := false
  finalized : Bool := false
  loaded : Bool := false

namespace SuffixAutomaton

def kSeparatorToken : ℤ := -2 ^ 31

variable (s : SuffixAutomaton)

def setState (v : ℕ) (st : SamState) : SuffixAutomaton :=
  { s with states := Function.update s.states v st }

/-- `states_.push_back`. -/
def push (st : SamState) : SuffixAutomaton := { s.setState s.size st with size := s.size + 1 }

def setNext (v : ℕ) (token : ℤ) (t : ℕ) : SuffixAutomaton :=
  s.setState v { s.states v with next := (s.states v).next.insert token t }

def setLink (v l : ℕ) : SuffixAutomaton := s.setState v { s.states v with link := some l }

/-- The first loop of `extend_`, from `p` on; the words get shorter, so that `fuel` bounds its rounds. -/
def linkNew (token : ℤ) (cur : ℕ) : ℕ → Option ℕ → SuffixAutomaton → SuffixAutomaton × Option ℕ
  | 0, p, s => (s, p)
  | _ + 1, none, s => (s, none)
  | fuel + 1, some p, s =>
    match (s.states p).next.lookup token with
    | some _ => (s, some p)
    | none => linkNew token cur fuel (s.states p).link (s.setNext p token cur)

/-- The second loop of `extend_`. Reading a missing transition inserts one to state 0. -/
def redirect (token : ℤ) (q clone : ℕ) : ℕ → Option ℕ → SuffixAutomaton → SuffixAutomaton
  | 0, _, s => s
  | _ + 1, none, s => s
  | fuel + 1, some p, s =>
    match (s.states p).next.lookup token with
    | some t => if t = q then redirect token q clone fuel (s.states p).link (s.setNext p token clone) else s
    | none =>
      if 0 = q then redirect token q clone fuel (s.states p).link (s.setNext p token clone)
      else s.setNext p token 0

variable (s : SuffixAutomaton)

/-- The state `cur` of `extend_`. -/
def newState (pos : ℕ) : SamState :=
  { maxLen := (s.states s.last).maxLen + 1, occCount := 1, maxEndPos := pos }

variable (token : ℤ)

/-- The beginning of `extend_`, through its first loop: the automaton with the new state, and where the loop
stops. -/
def linked (pos : ℕ) : SuffixAutomaton × Option ℕ :=
  linkNew token s.size ((s.states s.last).maxLen + 1) (some s.last) (s.push (s.newState pos))

/-- The state `clone` of `extend_`. -/
def splitState (p q : ℕ) : SamState :=
  { s.states q with
    maxLen := (s.states p).maxLen + 1, occCount := 0, childrenByFreq := [], childrenByRecency := [] }

/-- The end of `extend_`, where a state is split off `q`. -/
def split (rounds cur p q : ℕ) : SuffixAutomaton :=
  { ((redirect token q s.size rounds (some p) (s.push (s.splitState p q))).setLink q s.size).setLink
    cur s.size with
    last := cur }

/-- `extend_` after its first loop has stopped at `p`, which leads to `q`. -/
def attach (rounds cur p q : ℕ) : SuffixAutomaton :=
  if (s.states p).maxLen + 1 = (s.states q).maxLen then { s.setLink cur q with last := cur }
  else s.split token rounds cur p q

/-- `extend_`. -/
def extend (pos : ℕ) : SuffixAutomaton :=
  let r := s.linked token pos
  match r.2 with
  | none => { r.1.setLink s.size 0 with last := s.size }
  | some p =>
    r.1.attach token ((s.states s.last).maxLen + 1) s.size p (((r.1.states p).next.lookup token).getD 0)

/-- One round of `appendTokens`. -/
def appendToken : SuffixAutomaton :=
  { s.extend token s.pos with pos := s.pos + 1, sawToken := true }

/-- `appendTokens`, which refuses tokens after `finalize`. -/
def appendTokens (tokens : List ℤ) : Option SuffixAutomaton :=
  if s.finalized then none else some (tokens.foldl appendToken s)

/-- One round of the first loop of `propagateOccurrencesAndRecency_`. -/
def handOn (state : ℕ) : SuffixAutomaton :=
  match (s.states state).link with
  | none => s
  | some link =>
    s.setState link
      { s.states link with
        occCount := (s.states link).occCount + (s.states state).occCount
        maxEndPos := max (s.states link).maxEndPos (s.states state).maxEndPos }

/-- The order in which children are listed: by decreasing `key`, then by token, then by state. -/
def before (key : ℕ → ℤ) (lhs rhs : ℤ × ℕ) : Bool :=
  key rhs.2 < key lhs.2 || (key rhs.2 = key lhs.2 && (lhs.1 < rhs.1 || (lhs.1 = rhs.1 && lhs.2 ≤ rhs.2)))

/-- The continuations of a state that are not the separator. -/
def continuations (st : SamState) : List (ℤ × ℕ) :=
  (st.next.entries.map fun e => (e.1, e.2)).filter fun e => e.1 ≠ kSeparatorToken

variable (s : SuffixAutomaton)

/-- The second loop of `propagateOccurrencesAndRecency_`. -/
def listChildren : SuffixAutomaton :=
  { s with states := fun v =>
      { s.states v with
        childrenByFreq := (continuations (s.states v)).mergeSort (before fun v => (s.states v).occCount)
        childrenByRecency := (continuations (s.states v)).mergeSort (before fun v => (s.states v).maxEndPos) } }

variable (order : List ℕ)

/-- The orders of the states that sorting by `max_len` may give. -/
def IsOrder : Prop :=
  order.Perm (List.range s.size) ∧ order.Pairwise fun lhs rhs => (s.states lhs).maxLen ≤ (s.states rhs).maxLen

def propagateOccurrencesAndRecency : SuffixAutomaton :=
  (order.reverse.foldl handOn s).listChildren

/-- `finalize`; `order` is what the sort gives. -/
def finalize : SuffixAutomaton :=
  if s.finalized then s
  else if s.sawToken then { s.propagateOccurrencesAndRecency order with finalized := true, loaded := true }
  else { s with finalized := true }

/-- The loop of `match` that falls back until the token follows. -/
def fallBack (s : SuffixAutomaton) (token : ℤ) : ℕ → ℕ → ℕ → ℕ × ℕ
  | 0, state, matchedLen => (state, matchedLen)
  | fuel + 1, state, matchedLen =>
    if state ≠ 0 ∧ (s.states state).next.lookup token = none then
      let state := (s.states state).link.getD 0
      s.fallBack token fuel state (min matchedLen (s.states state).maxLen)
    else (state, matchedLen)

/-- One round of the first loop of `match`. -/
def matchToken (s : SuffixAutomaton) (m : ℕ × ℕ) (token : ℤ) : ℕ × ℕ :=
  let r := s.fallBack token ((s.states m.1).maxLen + 1) m.1 m.2
  match (s.states r.1).next.lookup token with
  | some t => (t, r.2 + 1)
  | none =>
    match (s.states 0).next.lookup token with
    | some t => (t, 1)
    | none => (0, 0)

/-- The second loop of `match`: the anchors from a state up. -/
def anchors (s : SuffixAutomaton) : ℕ → ℕ → ℕ → List (ℕ × ℕ)
  | 0, _, _ => []
  | fuel + 1, state, matchedLen =>
    if 0 < state ∧ 0 < matchedLen then
      let anchor := if (s.states state).childrenByFreq ≠ [] then [(state, matchedLen)] else []
      match (s.states state).link with
      | none => anchor
      | some 0 => anchor
      | some (l + 1) => anchor ++ s.anchors fuel (l + 1) (min matchedLen (s.states (l + 1)).maxLen)
    else []

/-- `match`: the anchors of the last `maxDepth` tokens of a context, with their matched lengths. -/
def matchContext (s : SuffixAutomaton) (context : List ℤ) (maxDepth : ℕ) : List (ℕ × ℕ) :=
  if !s.loaded ∨ context = [] then []
  else
    let m := (context.drop (context.length - maxDepth)).foldl s.matchToken (0, 0)
    s.anchors ((s.states m.1).maxLen + 1) m.1 m.2

/-! ## The two loops -/

/-- The states with their links and transitions. -/
def graph (s : SuffixAutomaton) : Graph ℤ where
  size := s.size
  link v := (s.states v).link
  next v token := (s.states v).next.lookup token

/-- Only transitions differ. -/
structure SameButNext (s s' : SuffixAutomaton) : Prop where
  size : s'.size = s.size
  states : ∀ v, s'.states v = { s.states v with next := (s'.states v).next }

theorem SameButNext.refl (s : SuffixAutomaton) : SameButNext s s := ⟨rfl, fun _ => rfl⟩

theorem SameButNext.trans {s s' s'' : SuffixAutomaton} (h : SameButNext s s') (h' : SameButNext s' s'') :
    SameButNext s s'' := by
  refine ⟨h'.size.trans h.size, fun v => ?_⟩
  rw [h'.states v, h.states v]

theorem states_setNext (s : SuffixAutomaton) (p : ℕ) (token : ℤ) (t v : ℕ) :
    (s.setNext p token t).states v =
      if v = p then { s.states p with next := (s.states p).next.insert token t } else s.states v :=
  update_apply ..

theorem sameButNext_setNext (s : SuffixAutomaton) (p : ℕ) (token : ℤ) (t : ℕ) :
    SameButNext s (s.setNext p token t) := by
  refine ⟨rfl, fun v => ?_⟩
  rw [states_setNext]
  split
  · next h => rw [h]
  · rfl

theorem lookup_setNext (s : SuffixAutomaton) (p : ℕ) (token : ℤ) (t v : ℕ) (b : ℤ) :
    ((s.setNext p token t).states v).next.lookup b =
      if v = p ∧ b = token then some t else (s.states v).next.lookup b := by
  rw [states_setNext]
  by_cases hv : v = p
  · subst hv
    rw [if_pos rfl]
    by_cases hb : b = token
    · subst hb
      rw [if_pos ⟨rfl, rfl⟩]
      exact AList.lookup_insert _
    · rw [if_neg fun h => hb h.2]
      exact AList.lookup_insert_ne hb
  · rw [if_neg hv, if_neg fun h => hv h.1]

section Loops

variable {w z : List ℤ} {g : Graph ℤ} {str : ℕ → List ℤ} {s : SuffixAutomaton} {token : ℤ} {p q v : ℕ}

/-- A state whose word is a shorter suffix has a transition if a state with a longer one has. -/
theorem next_of_suffix (h : IsDawg w g str) (hv : v < g.size) (hp : p < g.size) (hs : str v <:+ str p)
    (hnext : g.next p token ≠ none) : g.next v token ≠ none := by
  rw [Ne, h.next_eq_none_iff hp, not_not] at hnext
  rw [Ne, h.next_eq_none_iff hv, not_not]
  exact hnext.mono (suffix_concat_iff.mpr ⟨hs, rfl⟩)

/-- A climb that has come to the state `p`: nothing that it reads from there on has been changed. -/
structure Climbing (g : Graph ℤ) (str : ℕ → List ℤ) (token : ℤ) (p : ℕ) (s : SuffixAutomaton) : Prop where
  link : ∀ v < g.size, (s.states v).link = g.link v
  next : ∀ v < g.size, str v <:+ str p → (s.states v).next.lookup token = g.next v token

/-- The transitions over the token of the states in `S` lead to `t` now, and nothing else is changed. -/
structure Moved (g : Graph ℤ) (token : ℤ) (S : ℕ → Prop) [DecidablePred S] (t : ℕ) (s s' : SuffixAutomaton) :
    Prop where
  same : SameButNext s s'
  next : ∀ v < g.size, ∀ b, (s'.states v).next.lookup b =
    if b = token ∧ S v then some t else (s.states v).next.lookup b
  rest : ∀ v, ¬ v < g.size → (s'.states v).next = (s.states v).next

section Moved

variable {S S' : ℕ → Prop} [DecidablePred S] [DecidablePred S'] {s' : SuffixAutomaton} {t : ℕ}

theorem Moved.refl (hS : ∀ v < g.size, ¬ S v) : Moved g token S t s s :=
  ⟨.refl s, fun v hv _ => (if_neg fun h => hS v hv h.2).symm, fun _ _ => rfl⟩

/-- One round, and those after it. -/
theorem Moved.step (hp : p < g.size) (hm : Moved g token S t (s.setNext p token t) s')
    (hS : ∀ v < g.size, S' v ↔ v = p ∨ S v) : Moved g token S' t s s' := by
  refine ⟨(sameButNext_setNext ..).trans hm.same, fun v hv b => ?_, fun v hv => ?_⟩
  · rw [hm.next v hv b, lookup_setNext]
    by_cases hb : b = token <;> by_cases hvp : v = p <;> simp [hb, hvp, hS v hv, hS p hp]
  · rw [hm.rest v hv, states_setNext, if_neg]
    rintro rfl
    exact hv hp

end Moved

/-- Only the root is below the root. -/
theorem below_root (h : IsDawg w g str) (hv : v < g.size) (hs : str v <:+ str 0) : v = 0 := by
  rw [h.root, suffix_nil] at hs
  exact h.inj v hv 0 h.size_pos (hs.trans h.root.symm)

/-- The states below `p` are `p` and those below its link, which a change of `p` leaves alone. -/
theorem Climbing.below (hc : Climbing g str token p s) (h : IsDawg w g str) (hp : p < g.size)
    (h0 : p ≠ 0) (t : ℕ) :
    ∃ l < g.size, (s.states p).link = some l ∧ str l <:+ str p ∧ (str l).length < (str p).length ∧
      Climbing g str token l (s.setNext p token t) ∧ ∀ v < g.size, str v <:+ str p ↔ v = p ∨
        str v <:+ str l := by
  obtain ⟨l, hl, hlinkp, hsuf, hlen, -⟩ := h.link p hp h0
  refine ⟨l, hl, (hc.link p hp).trans hlinkp, hsuf, hlen, ⟨fun v hv => ?_, fun v hv hs => ?_⟩, fun v hv =>
    ⟨fun hs => ?_, ?_⟩⟩
  · rw [(sameButNext_setNext s p token t).states v]
    exact hc.link v hv
  · rw [lookup_setNext, if_neg]
    · exact hc.next v hv (hs.trans hsuf)
    · rintro ⟨rfl, -⟩
      exact absurd hs.length_le (Nat.not_le.mpr hlen)
  · rcases h.suffix_cases hp hv hs with hvp | ⟨l', -, hl', -, -, hs'⟩
    · exact .inl hvp
    · obtain rfl := Option.some.inj (hlinkp.symm.trans hl')
      exact .inr hs'
  · rintro (rfl | hs)
    · exact suffix_rfl
    · exact hs.trans hsuf

/-- **The first loop**, from a state `p` below which nothing is changed yet: the states of suffixes that the
token did not follow get a transition to `cur`, and the loop stops at the longest that it did follow. -/
theorem linkNew_spec (cur fuel : ℕ) (h : IsDawg w g str) (hc : Climbing g str token p s) (hp : p < g.size)
    (hfuel : (str p).length < fuel) :
    Moved g token (fun v => str v <:+ str p ∧ g.next v token = none) cur s
      (linkNew token cur fuel (some p) s).1 ∧
      ((linkNew token cur fuel (some p) s).2 = none ∧ (∀ v < g.size, str v <:+ str p → g.next v token = none) ∨
        ∃ p' < g.size, (linkNew token cur fuel (some p) s).2 = some p' ∧ str p' <:+ str p ∧
          g.next p' token ≠ none ∧
          ∀ v < g.size, str v <:+ str p → (str p').length < (str v).length → g.next v token = none) := by
  induction fuel generalizing p s with
  | zero => exact absurd hfuel (Nat.not_lt_zero _)
  | succ fuel ih =>
    unfold linkNew
    rw [hc.next p hp suffix_rfl]
    cases hpn : g.next p token with
    | some t =>
      have hsome : g.next p token ≠ none := by simp [hpn]
      refine ⟨.refl fun v hv hS => next_of_suffix h hv hp hS.1 hsome hS.2,
        .inr ⟨p, hp, rfl, suffix_rfl, hsome, ?_⟩⟩
      intro v _ hs hlt
      exact absurd hs.length_le (Nat.not_le.mpr hlt)
    | none =>
      by_cases h0 : p = 0
      · -- the root is the last state
        subst h0
        have hroot : ∀ v < g.size, str v <:+ str 0 → g.next v token = none :=
          fun v hv hs => (below_root h hv hs).symm ▸ hpn
        have hstop : linkNew token cur fuel none (s.setNext 0 token cur) = (s.setNext 0 token cur, none) := by
          cases fuel <;> rfl
        rw [hc.link 0 hp, h.root_link, hstop]
        refine ⟨.step hp (.refl fun _ _ => not_false) fun v hv => ?_, .inl ⟨rfl, hroot⟩⟩
        exact ⟨fun hS => .inl (below_root h hv hS.1), fun hv0 => by simp_all⟩
      · obtain ⟨l, hl, hlinkp, hsuf, hlen, hc', hbelow⟩ := hc.below h hp h0 cur
        rw [hlinkp]
        obtain ⟨hm, hres⟩ := ih hc' hl (by omega)
        refine ⟨.step hp hm fun v hv => ?_, ?_⟩
        · rw [hbelow v hv, or_and_right, and_iff_left_of_imp fun hvp => hvp ▸ hpn]
        · rcases hres with ⟨hnone, hall⟩ | ⟨p', hp', hsome, hsp', hp'n, hlong⟩
          · refine .inl ⟨hnone, fun v hv hs => ?_⟩
            rcases (hbelow v hv).mp hs with rfl | hs'
            · exact hpn
            · exact hall v hv hs'
          · refine .inr ⟨p', hp', hsome, hsp'.trans hsuf, hp'n, fun v hv hs hlt => ?_⟩
            rcases (hbelow v hv).mp hs with rfl | hs'
            · exact hpn
            · exact hlong v hv hs' hlt

/-- **The second loop**, from a state `p` on the way of the first one down from the state that leads to `q`: the
transitions to `q` below `p` now lead to `clone`. -/
theorem redirect_spec (clone fuel : ℕ) (h : IsDawg w g str) (hc : Climbing g str token p s) (hp : p < g.size)
    (hq : q < g.size) (hz : Holds w (str q) z) (hpz : str p ++ [token] <:+ z) (hfuel : (str p).length < fuel) :
    Moved g token (fun v => str v <:+ str p ∧ g.next v token = some q) clone s
      (redirect token q clone fuel (some p) s) := by
  induction fuel generalizing p s with
  | zero => exact absurd hfuel (Nat.not_lt_zero _)
  | succ fuel ih =>
    have hocc : Occurs w (str p ++ [token]) := (hz.2.occurs_iff.mpr (h.occurs_str hq)).mono hpz
    obtain ⟨t, ht⟩ := h.next_total p hp token hocc
    unfold redirect
    rw [hc.next p hp suffix_rfl, ht]
    dsimp only
    by_cases htq : t = q
    · subst htq
      rw [if_pos rfl]
      by_cases h0 : p = 0
      · subst h0
        have hstop : redirect token t clone fuel none (s.setNext 0 token clone) = s.setNext 0 token clone := by
          cases fuel <;> rfl
        rw [hc.link 0 hp, h.root_link, hstop]
        refine .step hp (.refl fun _ _ => not_false) fun v hv => ?_
        exact ⟨fun hS => .inl (below_root h hv hS.1), fun hv0 => by simp_all⟩
      · obtain ⟨l, hl, hlinkp, hsuf, hlen, hc', hbelow⟩ := hc.below h hp h0 clone
        rw [hlinkp]
        have hlz : str l ++ [token] <:+ z := (suffix_concat_iff.mpr ⟨hsuf, rfl⟩).trans hpz
        refine .step hp (ih hc' hl hlz (by omega)) fun v hv => ?_
        rw [hbelow v hv, or_and_right, and_iff_left_of_imp fun hvp => hvp ▸ ht]
    · -- below a state that leads elsewhere no state leads to `q`
      rw [if_neg htq]
      refine .refl fun v hv hS => ?_
      have hvz := (h.next_holds v hv token q hS.2).2
      have hmid := hvz.2.between (suffix_concat_iff.mpr ⟨hS.1, rfl⟩) (hpz.trans hz.1)
      obtain ⟨htlt, hpt⟩ := h.next_holds p hp token t ht
      exact htq (h.eq_of_holds htlt hq hpt hmid)

end Loops

/-! ## Appending a token -/

/-- The automaton of a text that is not finalised: the suffix automaton, where a state has an occurrence if it
was made for a beginning of the text, and a position at which its word ends. -/
structure Built (w : List ℤ) (s : SuffixAutomaton) (str : ℕ → List ℤ) : Prop where
  dawg : IsDawg w s.graph str
  maxLen : ∀ v < s.size, (s.states v).maxLen = (str v).length
  last_lt : s.last < s.size
  last : str s.last = w
  occCount : ∀ v < s.size, (s.states v).occCount = if str v ≠ [] ∧ str v <+: w then 1 else 0
  ends : ∀ v < s.size, v ≠ 0 → ∃ i : ℕ, (s.states v).maxEndPos = i ∧ Ends w (str v) (i + 1)
  beginning : ∀ v < s.size, str v <+: w → ((str v).length : ℤ) ≤ (s.states v).maxEndPos + 1

theorem built_nil : Built [] {} fun _ => [] where
  dawg := IsDawg.nil
  maxLen _ _ := rfl
  last_lt := Nat.one_pos
  last := rfl
  occCount _ _ := (if_neg fun h => h.1 rfl).symm
  ends _ hv hne := absurd (Nat.lt_one_iff.mp hv) hne
  beginning _ _ _ := le_rfl

section Append

variable {w z : List ℤ} {s s' s₁ : SuffixAutomaton} {str str' : ℕ → List ℤ} {token : ℤ} {p q r rounds : ℕ}

/-- The word that is split off is no beginning of the text. -/
theorem not_prefix_of_split (h : IsDawg w s.graph str)
    (e : Extension w token z s.graph s'.graph str str' q r s.size) (hr : r ≠ q) : ¬ z <+: w ++ [token] := by
  intro hz
  rcases prefix_concat_iff.mp hz with heq | hz
  · exact not_occurs_self_append w token (heq ▸ e.longest.occurs)
  · obtain ⟨v, hv, hstr⟩ := h.exists_take z.length hz.length_le
    rw [← prefix_iff_eq_take.mp hz] at hstr
    have hvr : v ≠ r := by
      rintro rfl
      rcases e.split with hrq | hrq
      · exact hr hrq
      · exact hrq.1 hv
    exact e.str_ne_r h hv hvr hstr

/-- What `extend` leaves, with a split and without, in terms of the automaton before: `r` is the state of the
longest old suffix `z`, which `q` held. -/
structure Extended (w z : List ℤ) (s : SuffixAutomaton) (str : ℕ → List ℤ) (token : ℤ) (q r : ℕ)
    (s' : SuffixAutomaton) : Prop where
  last : s'.last = s.size
  split : r = q ∧ str q = z ∧ s'.size = s.size + 1 ∨ r = s.size + 1 ∧ str q ≠ z ∧ s'.size = s.size + 2
  old : ∀ v < s.size, s'.states v = { s.states v with
    next := (s'.states v).next, link := if v = q ∧ r ≠ q then some r else (s.states v).link }
  next : ∀ v < s.size, ∀ b, (s'.states v).next.lookup b =
    if b = token ∧ str v <:+ w ∧ s.graph.next v token = some q then some r
    else if b = token ∧ str v <:+ w ∧ s.graph.next v token = none then some s.size else s.graph.next v b
  cur : s'.states s.size = { s.newState w.length with link := some r }
  parted : r ≠ q → (s'.states r).maxLen = z.length ∧ (s'.states r).occCount = 0 ∧
    (s'.states r).maxEndPos = (s.states q).maxEndPos ∧ (s'.states r).link = (s.states q).link ∧
    ∀ b, (s'.states r).next.lookup b = (s'.states q).next.lookup b

theorem Extended.extension (x : Extended w z s str token q r s') (h : Built w s str)
    (hz : Longest w (w ++ [token]) z)
    (hq : q < s.size) (hholds : Holds w (str q) z) : Extension w token z s.graph s'.graph str
      (update (update str r z) s.size (w ++ [token])) q r s.size := by
  have hr : r ≠ s.size := by
    rcases x.split with ⟨rfl, -, -⟩ | ⟨rfl, -, -⟩ <;> omega
  refine { longest := hz, q_lt := hq, q_holds := hholds, split := ?_, lt_size := fun v => ?_,
           str_old := fun v hv => ?_, str_cur := update_self .., str_r := ?_, link_old := fun v hv hvq => ?_,
           link_cur := congrArg SamState.link x.cur, link_q := fun hne => ?_, link_r := fun hne =>
             (x.parted hne).2.2.2.1,
           next_cur := fun b => congrArg (·.next.lookup b) x.cur, next_new := fun v hv hs hnew => ?_,
           next_q := fun v hv hs hvq => (x.next v hv token).trans (if_pos ⟨rfl, hs, hvq⟩),
           next_old := fun v hv b hcond => ?_, next_r := fun hne => (x.parted hne).2.2.2.2 }
  · refine x.split.imp And.left ?_
    rintro ⟨rfl, hne, -⟩
    exact ⟨Nat.not_lt.mpr (Nat.le_succ _), hr, hne⟩
  · show v < s'.size ↔ v < s.size ∨ v = s.size ∨ v = r
    rcases x.split with ⟨rfl, -, hsize⟩ | ⟨rfl, -, hsize⟩ <;> rw [hsize] <;> omega
  · rw [update_of_ne (show v ≠ s.size from hv.ne)]
    by_cases hvr : v = r
    · subst hvr
      rw [update_self]
      rcases x.split with ⟨rfl, hqz, -⟩ | ⟨rfl, -, -⟩
      · exact hqz.symm
      · exact absurd hv (Nat.not_lt.mpr (Nat.le_succ _))
    · rw [update_of_ne hvr]
  · rw [update_of_ne hr, update_self]
  · refine (congrArg SamState.link (x.old v hv)).trans (if_neg ?_)
    rintro ⟨hv, hne⟩
    exact hvq.elim (· hv) hne
  · exact (congrArg SamState.link (x.old q hq)).trans (if_pos ⟨rfl, hne⟩)
  · have hnone := (h.dawg.next_eq_none_iff hv token).mpr hnew
    refine (x.next v hv token).trans ?_
    rw [if_neg, if_pos ⟨rfl, hs, hnone⟩]
    rintro ⟨-, -, hvq⟩
    cases hnone.symm.trans hvq
  · refine (x.next v hv b).trans ?_
    rw [if_neg fun hb => (hcond hb.1 hb.2.1).2 hb.2.2, if_neg]
    rintro ⟨hb, hs, hnone⟩
    exact (h.dawg.next_eq_none_iff hv token).mp hnone (hcond hb hs).1

/-- An extension has the values of its states besides. -/
theorem Built.extended (h : Built w s str) (x : Extended w z s str token q r s')
    (hz : Longest w (w ++ [token]) z) (hq : q < s.size) (hholds : Holds w (str q) z) :
    Built (w ++ [token]) s' (update (update str r z) s.size (w ++ [token])) := by
  have e := x.extension h hz hq hholds
  have hold : ∀ v < s.size, (s'.states v).maxLen = (s.states v).maxLen ∧
      (s'.states v).occCount = (s.states v).occCount ∧ (s'.states v).maxEndPos = (s.states v).maxEndPos := by
    intro v hv
    rw [x.old v hv]
    exact ⟨rfl, rfl, rfl⟩
  have hcur : (s'.states s.size).maxLen = w.length + 1 ∧ (s'.states s.size).occCount = 1 ∧
      (s'.states s.size).maxEndPos = w.length := by
    rw [x.cur]
    refine ⟨?_, rfl, rfl⟩
    show (s.states s.last).maxLen + 1 = w.length + 1
    rw [h.maxLen _ h.last_lt, h.last]
  generalize update (update str r z) s.size (w ++ [token]) = str' at e ⊢
  have hlen : (w ++ [token]).length = w.length + 1 := length_append
  -- a state of the new automaton is an old one, the new one, or split off
  have hcases : ∀ v < s'.size, v < s.size ∧ str' v = str v ∨ v = s.size ∧ str' v = w ++ [token] ∨
      v = r ∧ r ≠ q ∧ str' v = z := by
    intro v hv
    by_cases hvs : v < s.size
    · exact .inl ⟨hvs, e.str_old v hvs⟩
    · rcases (e.lt_size v).mp hv with hv | rfl | rfl
      · exact absurd hv hvs
      · exact .inr (.inl ⟨rfl, e.str_cur⟩)
      · refine .inr (.inr ⟨rfl, ?_, e.str_r⟩)
        rintro rfl
        exact hvs e.q_lt
  have hbegin : ∀ v < s.size, str v <+: w ++ [token] ↔ str v <+: w := by
    intro v hv
    rw [prefix_concat_iff]
    refine or_iff_right fun heq => ?_
    exact not_occurs_self_append w token (heq ▸ h.dawg.occurs_str hv)
  refine { dawg := h.dawg.extend e, maxLen := ?_, last_lt := ?_, last := ?_, occCount := ?_, ends := ?_,
           beginning := ?_ }
  · intro v hv
    rcases hcases v hv with ⟨hvs, hstr⟩ | ⟨rfl, hstr⟩ | ⟨rfl, hrq, hstr⟩
    · rw [hstr, (hold v hvs).1, h.maxLen v hvs]
    · rw [hstr, hcur.1, hlen]
    · rw [hstr, (x.parted hrq).1]
  · rw [x.last]
    exact (e.lt_size _).mpr (.inr (.inl rfl))
  · rw [x.last, e.str_cur]
  · intro v hv
    rcases hcases v hv with ⟨hvs, hstr⟩ | ⟨rfl, hstr⟩ | ⟨rfl, hrq, hstr⟩
    · rw [hstr, (hold v hvs).2.1, h.occCount v hvs]
      exact if_congr (and_congr_right fun _ => (hbegin v hvs).symm) rfl rfl
    · rw [hstr, hcur.2.1, if_pos ⟨concat_ne_nil _ _ , prefix_rfl⟩]
    · rw [hstr, (x.parted hrq).2.1, if_neg fun hz => not_prefix_of_split h.dawg e hrq hz.2]
  · intro v hv h0
    rcases hcases v hv with ⟨hvs, hstr⟩ | ⟨rfl, hstr⟩ | ⟨rfl, hrq, hstr⟩
    · obtain ⟨i, hi, hends⟩ := h.ends v hvs h0
      refine ⟨i, (hold v hvs).2.2.trans hi, ?_⟩
      rw [hstr]
      exact hends.append token
    · refine ⟨w.length, hcur.2.2, ?_⟩
      rw [hstr]
      exact ends_append_length.mpr suffix_rfl
    · have hq0 : q ≠ 0 := by
        rintro rfl
        have hz := e.q_holds.1
        rw [h.dawg.root, suffix_nil] at hz
        exact e.q_parted hrq (h.dawg.root.trans hz.symm)
      obtain ⟨i, hi, hends⟩ := h.ends q e.q_lt hq0
      refine ⟨i, (x.parted hrq).2.2.1.trans hi, ?_⟩
      rw [hstr]
      exact (hends.mono e.q_holds.1).append token
  · intro v hv hpre
    rcases hcases v hv with ⟨hvs, hstr⟩ | ⟨rfl, hstr⟩ | ⟨rfl, hrq, hstr⟩
    · rw [hstr] at hpre ⊢
      rw [(hold v hvs).2.2]
      exact h.beginning v hvs ((hbegin v hvs).mp hpre)
    · rw [hstr, hcur.2.2, hlen]
      exact le_rfl
    · rw [hstr] at hpre
      exact absurd hpre (not_prefix_of_split h.dawg e hrq)

theorem states_push (s : SuffixAutomaton) (st : SamState) (v : ℕ) :
    (s.push st).states v = if v = s.size then st else s.states v := update_apply ..

theorem states_setLink (s : SuffixAutomaton) (v l x : ℕ) :
    (s.setLink v l).states x = if x = v then { s.states v with link := some l } else s.states x :=
  update_apply ..

/-- What the first loop leaves, in terms of the automaton before. -/
structure Linked (w : List ℤ) (s : SuffixAutomaton) (str : ℕ → List ℤ) (token : ℤ) (pos : ℕ)
    (s₁ : SuffixAutomaton) : Prop where
  size : s₁.size = s.size + 1
  old : ∀ v < s.size, s₁.states v = { s.states v with next := (s₁.states v).next }
  next : ∀ v < s.size, ∀ b, (s₁.states v).next.lookup b =
    if b = token ∧ str v <:+ w ∧ s.graph.next v token = none then some s.size else s.graph.next v b
  new : s₁.states s.size = s.newState pos

/-- **The first loop of `extend`** and where it stops. -/
theorem Built.linked (h : Built w s str) (token : ℤ) (pos : ℕ) :
    Linked w s str token pos (s.linked token pos).1 ∧ ((s.linked token pos).2 = none ∧ ¬ Occurs w [token] ∨
        ∃ p < s.size, (s.linked token pos).2 = some p ∧ Longest w (w ++ [token]) (str p ++ [token])) := by
  have hpush : ∀ v < s.size, (s.push (s.newState pos)).states v = s.states v := by
    intro v hv
    rw [states_push, if_neg hv.ne]
  have hc : Climbing s.graph str token s.last (s.push (s.newState pos)) :=
    ⟨fun v hv => congrArg SamState.link (hpush v hv), fun v hv _ => congrArg (·.next.lookup token) (hpush v hv)⟩
  have hfuel : (str s.last).length < (s.states s.last).maxLen + 1 := by
    rw [h.maxLen _ h.last_lt]
    exact Nat.lt_succ_self _
  obtain ⟨⟨hsame, hlook, hrest⟩, hstop⟩ := linkNew_spec s.size _ h.dawg hc h.last_lt hfuel
  rw [h.last] at hlook hstop
  refine ⟨⟨hsame.size, fun v hv => ?_, fun v hv b => ?_, ?_⟩, ?_⟩
  · refine (hsame.states v).trans ?_
    rw [hpush v hv]
    rfl
  · refine (hlook v hv b).trans ?_
    rw [hpush v hv]
    rfl
  · refine (hsame.states s.size).trans ?_
    rw [hrest s.size (lt_irrefl _), states_push, if_pos rfl]
  · rcases hstop with ⟨hnone, hall⟩ | ⟨p, hp, hsome, hsuf, hnext, hlong⟩
    · refine .inl ⟨hnone, ?_⟩
      have hroot := hall 0 h.dawg.size_pos (h.dawg.root ▸ nil_suffix)
      rw [h.dawg.next_eq_none_iff h.dawg.size_pos, h.dawg.root] at hroot
      exact hroot
    · refine .inr ⟨p, hp, hsome, ?_⟩
      rw [Ne, h.dawg.next_eq_none_iff hp, not_not] at hnext
      have hself : Longest w w w := ⟨suffix_rfl, occurs_of_suffix suffix_rfl, fun _ hu _ => hu⟩
      refine hself.concat hsuf hnext fun u hu hocc => ?_
      -- the state that holds `u` has a suffix of the text for its word, and the token follows it
      obtain ⟨v, hv, hholds⟩ := h.dawg.cover u hocc.of_concat
      have hvw : str v <:+ w := ends_length_iff.mp ((hholds.2 _).mp (ends_length_iff.mpr hu))
      have hvp : (str v).length ≤ (str p).length := by
        by_contra hlt
        have hnone := hlong v hv hvw (Nat.not_le.mp hlt)
        rw [h.dawg.next_eq_none_iff hv] at hnone
        exact hnone ((hholds.2.concat token).occurs_iff.mp hocc)
      exact hholds.1.trans (suffix_of_suffix_length_le hvw hsuf hvp)

/-- **Without a split**: the longest old suffix is the word of a state `q`, and the new state is linked to
it. -/
theorem Linked.extended (hl : Linked w s str token w.length s₁) (hqz : str q = z) :
    Extended w z s str token q q { s₁.setLink s.size q with last := s.size } := by
  have hstates : ∀ v < s.size, (s₁.setLink s.size q).states v = s₁.states v := by
    intro v hv
    rw [states_setLink, if_neg hv.ne]
  refine ⟨rfl, .inl ⟨rfl, hqz, hl.size⟩, fun v hv => ?_, fun v hv b => ?_, ?_, fun hne => absurd rfl hne⟩
  · rw [if_neg fun hvq => hvq.2 rfl]
    show (s₁.setLink s.size q).states v = { s.states v with next := ((s₁.setLink s.size q).states v).next }
    rw [hstates v hv]
    exact hl.old v hv
  · refine (congrArg (·.next.lookup b) (hstates v hv)).trans ((hl.next v hv b).trans ?_)
    by_cases hb : b = token ∧ str v <:+ w ∧ s.graph.next v token = some q
    · rw [if_pos hb, if_neg, hb.1, hb.2.2]
      rintro ⟨-, -, hnone⟩
      cases hnone.symm.trans hb.2.2
    · rw [if_neg hb]
  · show (s₁.setLink s.size q).states s.size = _
    rw [states_setLink, if_pos rfl, hl.new]

section

variable (h : Built w s str) (hl : Linked w s str token w.length s₁) (hp : p < s.size)
  (hz : Longest w (w ++ [token]) (str p ++ [token])) (hq : s.graph.next p token = some q)
include h hl hp hz hq

/-- What the second loop leaves, in terms of the automaton before the token. -/
theorem Built.redirected (hrounds : (str p).length < rounds) :
    let s₂ := redirect token q s₁.size rounds (some p) (s₁.push (s₁.splitState p q))
    SameButNext (s₁.push (s₁.splitState p q)) s₂ ∧ (∀ v < s.size, ∀ b, (s₂.states v).next.lookup b =
        if b = token ∧ str v <:+ w ∧ s.graph.next v token = some q then some s₁.size
        else (s₁.states v).next.lookup b) ∧
      ∀ v, ¬ v < s.size → (s₂.states v).next = ((s₁.push (s₁.splitState p q)).states v).next := by
  have hpush : ∀ v < s.size, (s₁.push (s₁.splitState p q)).states v = s₁.states v := by
    intro v hv
    rw [states_push, if_neg]
    rw [hl.size]
    omega
  have hpw : str p <:+ w := (Occurrences.suffix_concat_iff.mp hz.suffix).1
  have hc : Climbing s.graph str token p (s₁.push (s₁.splitState p q)) := by
    refine ⟨fun v hv => ?_, fun v hv hs => ?_⟩
    · rw [hpush v hv, hl.old v hv]
      rfl
    · rw [hpush v hv, hl.next v hv, if_neg]
      rintro ⟨-, -, hnone⟩
      exact next_of_suffix h.dawg hv hp hs (by simp [hq]) hnone
  obtain ⟨hqlt, hholds⟩ := h.dawg.next_holds p hp token q hq
  obtain ⟨hsame, hlook, hrest⟩ := redirect_spec s₁.size rounds h.dawg hc hp hqlt hholds suffix_rfl hrounds
  refine ⟨hsame, fun v hv b => ?_, hrest⟩
  rw [hlook v hv b, hpush v hv]
  refine if_congr (and_congr_right fun _ => and_congr_left fun hvq =>
    ⟨fun hs => hs.trans hpw, fun hs => ?_⟩) rfl rfl
  -- the token follows the word of `v`, so it is no longer than that of `p`
  have hocc := (h.dawg.next_isSome_iff hv token).mp ⟨q, hvq⟩
  exact (Occurrences.suffix_concat_iff.mp (hz.max _ (suffix_concat_iff.mpr ⟨hs, rfl⟩) hocc)).1

/-- **With a split**: the longest old suffix is held by a state `q` with a longer word. -/
theorem Built.extend_split (hqp : str q ≠ str p ++ [token]) (hrounds : (str p).length < rounds) :
    Extended w (str p ++ [token]) s str token q s₁.size (s₁.split token rounds s.size p q) := by
  set S := s₁.split token rounds s.size p q
  have hqlt : q < s.size := (h.dawg.next_holds p hp token q hq).1
  obtain ⟨hsame, hlook, hrest⟩ := h.redirected hl hp hz hq hrounds
  have hpush : ∀ v, v ≠ s₁.size → (s₁.push (s₁.splitState p q)).states v = s₁.states v := by
    intro v hv
    rw [states_push, if_neg hv]
  have hclone := hl.size
  have hne : s₁.size ≠ q := by omega
  have hold : ∀ v < s.size, S.states v = { s.states v with
        next := ((redirect token q s₁.size rounds (some p) (s₁.push (s₁.splitState p q))).states v).next
        link := if v = q ∧ s₁.size ≠ q then some s₁.size else (s.states v).link } := by
    intro v hv
    show ((SuffixAutomaton.setLink _ q s₁.size).setLink s.size s₁.size).states v = _
    rw [states_setLink, if_neg hv.ne, states_setLink]
    by_cases hvq : v = q
    · subst hvq
      rw [if_pos rfl, if_pos ⟨rfl, hne⟩, hsame.states v, hpush v (by omega), hl.old v hv]
    · rw [if_neg hvq, if_neg fun hv => hvq hv.1, hsame.states v, hpush v (by omega), hl.old v hv]
  have hsplit : S.states s₁.size = s₁.splitState p q := by
    show ((SuffixAutomaton.setLink _ q s₁.size).setLink s.size s₁.size).states s₁.size = _
    rw [states_setLink, if_neg (by omega), states_setLink, if_neg hne, hsame.states, hrest s₁.size (by omega),
      states_push, if_pos rfl]
  have hnext : ∀ v < s.size, ∀ b, (S.states v).next.lookup b =
      if b = token ∧ str v <:+ w ∧ s.graph.next v token = some q then some s₁.size
      else if b = token ∧ str v <:+ w ∧ s.graph.next v token = none then some s.size else s.graph.next v b := by
    intro v hv b
    rw [hold v hv, ← hl.next v hv b]
    exact hlook v hv b
  refine ⟨rfl, .inr ⟨hclone, hqp, ?_⟩, fun v hv => ?_, hnext, ?_, fun _ => ?_⟩
  · show SuffixAutomaton.size (redirect token q s₁.size rounds (some p) _) = _
    rw [hsame.size]
    exact congrArg (· + 1) hclone
  · rw [hold v hv]
  · show ((SuffixAutomaton.setLink _ q s₁.size).setLink s.size s₁.size).states s.size = _
    rw [states_setLink, if_pos rfl, states_setLink, if_neg hqlt.ne', hsame.states, hrest _ (lt_irrefl _),
      hpush s.size (by omega), hl.new]
  · rw [hsplit]
    refine ⟨?_, rfl, ?_, ?_, fun b => ?_⟩
    · show (s₁.states p).maxLen + 1 = _
      rw [hl.old p hp, length_append]
      rw [h.maxLen p hp]
      rfl
    · show (s₁.states q).maxEndPos = _
      rw [hl.old q hqlt]
    · show (s₁.states q).link = _
      rw [hl.old q hqlt]
    · -- the word of `q` is too long for `q` to lead to itself
      show (s₁.states q).next.lookup b = _
      rw [hnext q hqlt, ← hl.next q hqlt, if_neg]
      rintro ⟨-, -, hqq⟩
      have hlen := (h.dawg.next_holds q hqlt token q hqq).2.1.length_le
      rw [length_append, length_singleton] at hlen
      omega

end

/-- **Appending a token** gives the automaton of the text with that token. -/
theorem Built.extend (h : Built w s str) (token : ℤ) :
    ∃ str', Built (w ++ [token]) (s.extend token w.length) str' := by
  obtain ⟨hl, hstop⟩ := h.linked token w.length
  unfold SuffixAutomaton.extend
  dsimp only
  rcases hstop with ⟨hnone, hnot⟩ | ⟨p, hp, hsome, hz⟩
  · rw [hnone]
    exact ⟨_, h.extended (hl.extended h.dawg.root) (Longest.concat_nil w hnot) h.dawg.size_pos
      (h.dawg.root ▸ IsDawg.holds_self w _)⟩
  · rw [hsome]
    dsimp only
    obtain ⟨q, hq⟩ := h.dawg.next_total p hp token hz.occurs
    obtain ⟨hqlt, hholds⟩ := h.dawg.next_holds p hp token q hq
    have hlook : ((s.linked token w.length).1.states p).next.lookup token = some q := by
      rw [hl.next p hp, if_neg, hq]
      rintro ⟨-, -, hnone⟩
      rw [hq] at hnone
      cases hnone
    have hlenp : ((s.linked token w.length).1.states p).maxLen + 1 = (str p ++ [token]).length := by
      rw [hl.old p hp, length_append]
      rw [h.maxLen p hp]
      rfl
    have hlenq : ((s.linked token w.length).1.states q).maxLen = (str q).length := by
      rw [hl.old q hqlt]
      exact h.maxLen q hqlt
    rw [hlook, Option.getD_some]
    unfold attach
    rw [hlenp, hlenq]
    by_cases hlen : (str p ++ [token]).length = (str q).length
    · rw [if_pos hlen]
      exact ⟨_, h.extended (hl.extended (hholds.1.eq_of_length hlen).symm) hz hqlt hholds⟩
    · rw [if_neg hlen]
      have hrounds : (str p).length < (s.states s.last).maxLen + 1 := by
        rw [h.maxLen _ h.last_lt, h.last]
        exact Nat.lt_succ_of_le (Occurrences.suffix_concat_iff.mp hz.suffix).1.length_le
      exact ⟨_, h.extended (h.extend_split hl hp hz hq (fun heq => hlen (congrArg length heq).symm) hrounds) hz
        hqlt hholds⟩

end Append

/-! ## Appending a corpus -/

/-- Whether tokens came, and what was done with them, and nothing of the states. -/
def phase (s : SuffixAutomaton) : ℕ × Bool × Bool × Bool := (s.pos, s.sawToken, s.finalized, s.loaded)

theorem phase_linkNew (token : ℤ) (cur fuel : ℕ) (p : Option ℕ) (s : SuffixAutomaton) :
    (linkNew token cur fuel p s).1.phase = s.phase := by
  induction fuel generalizing p s with
  | zero => rfl
  | succ fuel ih =>
    cases p with
    | none => rfl
    | some p =>
      unfold linkNew
      split
      · rfl
      · exact ih _ _

theorem phase_redirect (token : ℤ) (q clone fuel : ℕ) (p : Option ℕ) (s : SuffixAutomaton) :
    (redirect token q clone fuel p s).phase = s.phase := by
  induction fuel generalizing p s with
  | zero => rfl
  | succ fuel ih =>
    cases p with
    | none => rfl
    | some p =>
      unfold redirect
      split
      · split
        · exact ih _ _
        · rfl
      · split
        · exact ih _ _
        · rfl

theorem phase_extend (s : SuffixAutomaton) (token : ℤ) (pos : ℕ) : (s.extend token pos).phase = s.phase := by
  have hlinked : (s.linked token pos).1.phase = s.phase := phase_linkNew ..
  unfold extend
  dsimp only
  split
  · exact hlinked
  · unfold attach
    split
    · exact hlinked
    · exact (phase_redirect ..).trans hlinked

/-- An automaton to which the tokens of `w` were appended. -/
structure Appended (w : List ℤ) (s : SuffixAutomaton) (str : ℕ → List ℤ) : Prop where
  built : Built w s str
  phase : s.phase = (w.length, decide (w ≠ []), false, false)

theorem Appended.appendToken {w : List ℤ} {s : SuffixAutomaton} {str : ℕ → List ℤ} (h : Appended w s str)
    (token : ℤ) : ∃ str', Appended (w ++ [token]) (s.appendToken token) str' := by
  obtain ⟨hpos, -, hfin, hload⟩ : s.pos = w.length ∧ _ ∧ s.finalized = false ∧ s.loaded = false := by
    simpa only [SuffixAutomaton.phase, Prod.mk.injEq] using h.phase
  obtain ⟨str', hbuilt⟩ := h.built.extend token
  have hphase := phase_extend s token w.length
  simp only [SuffixAutomaton.phase, Prod.mk.injEq] at hphase
  refine ⟨str', ?_, ?_⟩
  · unfold SuffixAutomaton.appendToken
    rw [hpos]
    exact { hbuilt with }
  · unfold SuffixAutomaton.appendToken
    rw [hpos]
    simp only [SuffixAutomaton.phase, Prod.mk.injEq, hphase.2.2.1, hphase.2.2.2, hfin, hload]
    simp

/-- The tokens of a corpus in chunks. -/
def append (s : SuffixAutomaton) (chunks : List (List ℤ)) : Option SuffixAutomaton :=
  chunks.foldlM appendTokens s

/-- **Appending in any chunks** gives the automaton of the whole sequence. -/
theorem Appended.append {w : List ℤ} {s : SuffixAutomaton} {str : ℕ → List ℤ} (h : Appended w s str)
    (chunks : List (List ℤ)) :
    ∃ s' str', s.append chunks = some s' ∧ Appended (w ++ chunks.flatten) s' str' := by
  have htokens : ∀ (tokens : List ℤ) (w : List ℤ) (s : SuffixAutomaton) (str : ℕ → List ℤ), Appended w s str →
      ∃ str', Appended (w ++ tokens) (tokens.foldl SuffixAutomaton.appendToken s) str' := by
    intro tokens
    induction tokens with
    | nil =>
      intro w s str h
      exact ⟨str, (append_nil w).symm ▸ h⟩
    | cons token tokens ih =>
      intro w s str h
      obtain ⟨str', h'⟩ := h.appendToken token
      obtain ⟨str'', h''⟩ := ih _ _ _ h'
      exact ⟨str'', (append_cons w token tokens).symm ▸ h''⟩
  induction chunks generalizing w s str with
  | nil => exact ⟨s, str, rfl, (append_nil w).symm ▸ h⟩
  | cons tokens chunks ih =>
    have hfin : s.finalized = false := congrArg (fun f => f.2.2.1) h.phase
    obtain ⟨str', h'⟩ := htokens tokens w s str h
    obtain ⟨s'', str'', hrun, h''⟩ := ih h'
    refine ⟨s'', str'', ?_, ?_⟩
    · show (s.appendTokens tokens).bind _ = _
      unfold appendTokens
      rw [hfin]
      exact hrun
    · rw [flatten_cons, ← append_assoc]
      exact h''

theorem appended_nil : Appended [] {} fun _ => [] := ⟨built_nil, rfl⟩

end SuffixAutomaton

end SGLang.Ngram
