/-
# SGLang.Ngram.MatchState — matching a growing context against the n-gram trie.

A request that drafts tokens asks the trie for every suffix of its context that has a continuation. Between two
calls its context grows by a few tokens, so the nodes of the suffixes are kept in a `MatchState` and moved on
token by token. A node may have left the trie since, or stand for another n-gram: the state holds versions, and
it is rebuilt from the context whenever one of them is out of date or the trie was reset.

A suffix that was not in the trie is kept as missing. No version tells that it has been inserted since, so a
state that is moved on does not find it, and `matchAnchors` can return less than it would with a fresh state.
`matchAnchors_eq_fresh_iff` says exactly when: whatever was inserted, evicted and reset before, the two differ
if and only if the state is moved on past a suffix that was missing and that, continued by the new tokens, is
now in the trie with a continuation.
-/
import SGLang.Ngram.Trie

namespace SGLang.Ngram

open SGLang.Lib Trie Option
open List (length_append length_map)
open Relation (ReflTransGen)

/-! ## The code -/

/-- `NodeRef`; a null pointer is `none`. -/
structure NodeRef where
  ptr : Option ℕ
  version : ℕ
  deriving DecidableEq, Repr

def NodeRef.null : NodeRef := ⟨none, 0⟩

structure MatchState where
  trieEpoch : ℕ
  processedTotalLen : ℕ
  anchors : List NodeRef

/-- A `MatchState` as it is constructed. -/
def MatchState.fresh : MatchState := ⟨0, 0, []⟩

namespace Trie

def capture (t : Trie) : Option ℕ → NodeRef
  | none => .null
  | some p => ⟨some p, (t.nodes p).version⟩

def resolve (t : Trie) (state : MatchState) (ref : NodeRef) : Option ℕ :=
  ref.ptr.bind fun p =>
    if state.trieEpoch ≠ t.trieEpoch ∨ (t.nodes p).version ≠ ref.version then none else some p

/-- `validateMatchState_`. -/
def validateMatchState (t : Trie) (state : MatchState) : Bool :=
  state.trieEpoch = t.trieEpoch && state.anchors.all fun ref => ref.ptr.isNone || (t.resolve state ref).isSome

/-- The last tokens, as many as given. -/
def suffix (k : ℕ) (tokens : List ℤ) : List ℤ := tokens.drop (tokens.length - k)

/-- `rebuildMatchState_`. -/
def rebuildMatchState (cfg : Param) (t : Trie) (context : List ℤ) (totalLen : ℕ) : MatchState where
  trieEpoch := t.trieEpoch
  processedTotalLen := totalLen
  anchors := (List.range (min context.length cfg.maxTrieDepth)).map fun i =>
    t.capture (t.walk t.root (suffix (i + 1) context))

/-- The child for the token of the node that a reference stands for; nothing if it is out of date. -/
def advanceRef (t : Trie) (state : MatchState) (token : ℤ) (ref : NodeRef) : Option NodeRef :=
  if ref.ptr = none then some .null
  else (t.resolve state ref).map fun node => t.capture ((t.nodes node).child.lookup token)

/-- The loop of `advanceMatchState_`, for one token. -/
def advanceToken (cfg : Param) (t : Trie) (state : MatchState) (token : ℤ) : Option MatchState :=
  let nextDepth := min (state.anchors.length + 1) cfg.maxTrieDepth
  ((state.anchors.take (nextDepth - 1)).mapM (t.advanceRef state token)).map fun next =>
    { state with anchors := t.capture ((t.nodes t.root).child.lookup token) :: next }

/-- `advanceMatchState_`. -/
def advanceMatchState (cfg : Param) (t : Trie) (state : MatchState) (tokens : List ℤ) (totalLen : ℕ) :
    Option MatchState :=
  if t.validateMatchState state then
    (tokens.foldlM (t.advanceToken cfg) state).map fun state => { state with processedTotalLen := totalLen }
  else none

/-- Whether there is something to draft after the node. -/
def expandable (t : Trie) (p : ℕ) : Bool := !(t.nodes p).child.entries.isEmpty

/-- `getExpandableAnchors_`, the longest suffix first. -/
def getExpandableAnchors (t : Trie) (state : MatchState) : List (ℕ × ℕ) :=
  (List.range state.anchors.length).reverse.filterMap fun i =>
    ((state.anchors[i]?.bind (t.resolve state)).filter t.expandable).map (·, i + 1)

/-- Whether `match` tries to move the state on. -/
def canAdvance (cfg : Param) (t : Trie) (context : List ℤ) (state : MatchState) (totalLen : ℕ) : Bool :=
  state.trieEpoch = t.trieEpoch && state.processedTotalLen ≤ totalLen &&
    totalLen - state.processedTotalLen ≤ context.length &&
    state.anchors.length = min state.processedTotalLen cfg.maxTrieDepth

/-- The state that `match` leaves. -/
def nextState (cfg : Param) (t : Trie) (context : List ℤ) (state : MatchState) (totalLen : ℕ) : MatchState :=
  let advanced :=
    if t.canAdvance cfg context state totalLen then
      t.advanceMatchState cfg state (suffix (totalLen - state.processedTotalLen) context) totalLen
    else none
  advanced.getD (t.rebuildMatchState cfg context totalLen)

/-- `Trie::match`. -/
def matchAnchors (cfg : Param) (t : Trie) (context : List ℤ) (state : MatchState) (totalLen : ℕ) :
    List (ℕ × ℕ) :=
  t.getExpandableAnchors (t.nextState cfg context state totalLen)

end Trie

/-- A request: its state, and its tokens at its last call. -/
structure Request where
  state : MatchState
  tokens : List ℤ

/-- The trie, and the requests that are matched against it. -/
structure Matcher where
  trie : Trie
  requests : ℕ → Request

namespace Matcher

/-- What a request passes: the end of its tokens. -/
def context (cfg : Param) (tokens : List ℤ) : List ℤ := Trie.suffix (min tokens.length cfg.maxTrieDepth) tokens

/-- A call of `match` with these tokens and this state. -/
def call (cfg : Param) (m : Matcher) (tokens : List ℤ) (state : MatchState) : List (ℕ × ℕ) :=
  m.trie.matchAnchors cfg (context cfg tokens) state tokens.length

inductive Step (cfg : Param) (m : Matcher) : Matcher → Prop
  | insert {t : Trie} (tokens : List ℤ) : m.trie.insert cfg tokens = some t → Step cfg m { m with trie := t }
  | reset {t : Trie} : m.trie.reset cfg = some t → Step cfg m { m with trie := t }
  /-- A request calls `match` after its sequence has grown. -/
  | call (id : ℕ) (appended : List ℤ) : Step cfg m { m with
      requests := Function.update m.requests id
        ⟨m.trie.nextState cfg (context cfg ((m.requests id).tokens ++ appended)) (m.requests id).state
          ((m.requests id).tokens ++ appended).length, (m.requests id).tokens ++ appended⟩ }
  /-- `eraseMatchState`; `Ngram::reset` does this for all requests. -/
  | erase (id : ℕ) : Step cfg m { m with
      requests := Function.update m.requests id { m.requests id with state := .fresh } }

/-- The state of the request is moved on past a suffix that it holds as missing, and that leads, with the new
tokens, to a node with a continuation. -/
def Overlooks (cfg : Param) (m : Matcher) (id : ℕ) (appended : List ℤ) : Prop :=
  (m.requests id).state.trieEpoch = m.trie.trieEpoch ∧ appended.length ≤ cfg.maxTrieDepth ∧
    m.trie.validateMatchState (m.requests id).state = true ∧
    ∃ i, (m.requests id).state.anchors[i]?.map NodeRef.ptr = some none ∧
      i + appended.length < cfg.maxTrieDepth ∧
      ∃ p, m.trie.walk m.trie.root (Trie.suffix (i + 1) (m.requests id).tokens ++ appended) = some p ∧
        m.trie.expandable p = true

end Matcher

/-! ## Suffixes -/

namespace Trie

variable {cfg : Param} {t t' : Trie} {state state' : MatchState} {tokens appended : List ℤ} {known : ℕ → Bool}

theorem length_suffix {k : ℕ} (hk : k ≤ tokens.length) : (suffix k tokens).length = k := by
  unfold suffix
  rw [List.length_drop]
  omega

theorem suffix_append (k : ℕ) (tokens appended : List ℤ) :
    suffix (k + appended.length) (tokens ++ appended) = suffix k tokens ++ appended := by
  unfold suffix
  rw [length_append, Nat.add_sub_add_right, List.drop_append_of_le_length (Nat.sub_le _ _)]

theorem suffix_concat (k : ℕ) (tokens : List ℤ) (token : ℤ) :
    suffix (k + 1) (tokens ++ [token]) = suffix k tokens ++ [token] := suffix_append k tokens [token]

theorem suffix_suffix {j k : ℕ} (hkj : k ≤ j) (hj : j ≤ tokens.length) :
    suffix k (suffix j tokens) = suffix k tokens := by
  unfold suffix
  rw [List.drop_drop, List.length_drop]
  congr 1
  omega

/-! ## States -/

theorem resolve_capture (hepoch : state.trieEpoch = t.trieEpoch) (o : Option ℕ) :
    t.resolve state (t.capture o) = o := by
  cases o with
  | none => rfl
  | some p =>
    unfold resolve capture
    rw [bind_some, if_neg]
    rintro (h | h)
    · exact h hepoch
    · exact h rfl

/-- What the state holds for a suffix: its node, if it is in the trie and known to be. -/
def anchor (t : Trie) (tokens : List ℤ) (known : ℕ → Bool) (i : ℕ) : Option ℕ :=
  if known i then t.walk t.root (suffix (i + 1) tokens) else none

/-- The state stands for the tokens, but takes suffixes that are not known for missing. -/
structure Follows (cfg : Param) (t : Trie) (tokens : List ℤ) (known : ℕ → Bool) (state : MatchState) :
    Prop where
  epoch : state.trieEpoch = t.trieEpoch
  anchors : state.anchors =
    (List.range (min tokens.length cfg.maxTrieDepth)).map fun i => t.capture (t.anchor tokens known i)

/-- What is known after some tokens: the suffixes that begin in them, and the continuations of those known
before. -/
def after (n : ℕ) (known : ℕ → Bool) (i : ℕ) : Bool := i < n || known (i - n)

theorem after_zero (known : ℕ → Bool) : after 0 known = known := by
  funext i
  simp [after]

theorem after_succ (n : ℕ) (known : ℕ → Bool) : after (n + 1) known = after n (after 1 known) := by
  funext i
  unfold after
  rw [Nat.sub_sub]
  by_cases hi : i < n
  · simp [hi, Nat.lt_succ_of_lt hi]
  · rw [decide_eq_false hi, Bool.false_or, decide_eq_decide.mpr (show i < n + 1 ↔ i - n < 1 by omega)]

/-- The child of a node that is known is the node of the longer suffix. -/
theorem advanceRef_capture (hepoch : state.trieEpoch = t.trieEpoch) (token : ℤ) (o : Option ℕ) :
    t.advanceRef state token (t.capture o) =
      some (t.capture (o.bind fun p => (t.nodes p).child.lookup token)) := by
  unfold advanceRef
  rw [resolve_capture hepoch]
  cases o with
  | none => rfl
  | some p => exact if_neg (some_ne_none p)

theorem anchor_concat (t : Trie) (tokens : List ℤ) (known : ℕ → Bool) (token : ℤ) (i : ℕ) :
    t.anchor (tokens ++ [token]) (after 1 known) (i + 1) =
      (t.anchor tokens known i).bind fun p => (t.nodes p).child.lookup token := by
  have hknown : after 1 known (i + 1) = known i := by simp [after]
  unfold anchor
  rw [hknown, suffix_concat, walk_append]
  cases known i with
  | false => rfl
  | true =>
    rw [if_pos rfl, if_pos rfl]
    exact congrArg _ (funext fun p => walk_singleton t p token)

theorem Follows.advanceToken (h : Follows cfg t tokens known state) (token : ℤ) :
    ∃ state', t.advanceToken cfg state token = some state' ∧
      Follows cfg t (tokens ++ [token]) (after 1 known) state' := by
  have hdepth := cfg.one_lt_depth
  set k := min (tokens.length + 1) cfg.maxTrieDepth - 1
  have htake : state.anchors.take (min (state.anchors.length + 1) cfg.maxTrieDepth - 1) =
      (List.range k).map fun i => t.capture (t.anchor tokens known i) := by
    rw [h.anchors, length_map, List.length_range, ← List.map_take, List.take_range]
    congr 2
    omega
  have hmap : ((List.range k).map fun i => t.capture (t.anchor tokens known i)).mapM
      (t.advanceRef state token) =
      some ((List.range k).map fun i => t.capture (t.anchor (tokens ++ [token]) (after 1 known) (i + 1))) := by
    rw [List.mapM_map]
    refine mapM_eq_map fun i _ => ?_
    rw [anchor_concat]
    exact advanceRef_capture h.epoch token _
  have hrun : t.advanceToken cfg state token = some { state with
      anchors := t.capture ((t.nodes t.root).child.lookup token) ::
        (List.range k).map fun i => t.capture (t.anchor (tokens ++ [token]) (after 1 known) (i + 1)) } := by
    unfold Trie.advanceToken
    dsimp only
    rw [htake, hmap, map_some]
  refine ⟨_, hrun, h.epoch, ?_⟩
  rw [length_append, List.length_singleton, show min (tokens.length + 1) cfg.maxTrieDepth = k + 1 by omega,
    List.range_succ_eq_map, List.map_cons, List.map_map]
  refine congrArg (t.capture · :: _) ?_
  show (t.nodes t.root).child.lookup token = t.walk t.root (suffix (0 + 1) (tokens ++ [token]))
  rw [suffix_concat]
  unfold suffix
  rw [Nat.sub_zero, List.drop_length, List.nil_append, walk_singleton]

theorem Follows.advanceTokens (h : Follows cfg t tokens known state) (appended : List ℤ) :
    ∃ state', appended.foldlM (t.advanceToken cfg) state = some state' ∧
      Follows cfg t (tokens ++ appended) (after appended.length known) state' := by
  induction appended generalizing tokens known state with
  | nil =>
    refine ⟨state, rfl, ?_⟩
    rw [List.append_nil, List.length_nil, after_zero]
    exact h
  | cons token rest ih =>
    obtain ⟨state₁, hrun, h₁⟩ := h.advanceToken token
    obtain ⟨state₂, hrun', h₂⟩ := ih h₁
    refine ⟨state₂, ?_, ?_⟩
    · rw [List.foldlM_cons, hrun]
      exact hrun'
    · rw [List.append_assoc, ← after_succ] at h₂
      exact h₂

/-- A state that is rebuilt knows everything. -/
theorem follows_rebuild (cfg : Param) (t : Trie) (tokens : List ℤ) (totalLen : ℕ) :
    Follows cfg t tokens (fun _ => true) (t.rebuildMatchState cfg (Matcher.context cfg tokens) totalLen) := by
  refine ⟨rfl, ?_⟩
  have hlen : (Matcher.context cfg tokens).length = min tokens.length cfg.maxTrieDepth :=
    length_suffix (Nat.min_le_left _ _)
  unfold rebuildMatchState
  rw [hlen, Nat.min_eq_left (Nat.min_le_right _ _)]
  refine List.map_congr_left fun i hi => ?_
  have hi := List.mem_range.mp hi
  unfold anchor Matcher.context
  rw [if_pos rfl, suffix_suffix (by omega) (Nat.min_le_left _ _)]

/-! ## What is returned -/

theorem filterMap_range_inj {f g : ℕ → Option ℕ} {n : ℕ} :
    ((List.range n).reverse.filterMap fun i => (f i).map (·, i + 1)) =
      ((List.range n).reverse.filterMap fun i => (g i).map (·, i + 1)) ↔ ∀ i < n, f i = g i := by
  have hmem : ∀ (f : ℕ → Option ℕ) i, i < n → ∀ p,
      (p, i + 1) ∈ ((List.range n).reverse.filterMap fun i => (f i).map (·, i + 1)) ↔ f i = some p := by
    intro f i hi p
    rw [List.mem_filterMap]
    constructor
    · rintro ⟨j, -, hj⟩
      obtain ⟨q, hq, heq⟩ := Option.map_eq_some_iff.mp hj
      obtain ⟨rfl, hji⟩ := Prod.mk.inj heq
      rw [← Nat.succ.inj hji, hq]
    · intro hp
      exact ⟨i, by simpa using hi, by rw [hp]; rfl⟩
  constructor
  · intro heq i hi
    refine ext fun p => ?_
    rw [← hmem f i hi p, heq, hmem g i hi p]
  · intro hall
    refine List.filterMap_congr fun i hi => ?_
    rw [hall i (by simpa using hi)]

theorem Follows.getExpandableAnchors (h : Follows cfg t tokens known state) :
    t.getExpandableAnchors state = (List.range (min tokens.length cfg.maxTrieDepth)).reverse.filterMap fun i =>
      ((t.anchor tokens known i).filter t.expandable).map (·, i + 1) := by
  unfold Trie.getExpandableAnchors
  have hlen : state.anchors.length = min tokens.length cfg.maxTrieDepth := by
    rw [h.anchors, length_map, List.length_range]
  rw [hlen]
  refine List.filterMap_congr fun i hi => ?_
  have hi : i < min tokens.length cfg.maxTrieDepth := by simpa using hi
  rw [h.anchors, List.getElem?_map, List.getElem?_range hi, map_some, bind_some, resolve_capture h.epoch]

/-! ## One call -/

/-- The state of a request whose tokens were these at its last call: unless the trie has been reset since, a
reference was made for the node of its suffix. -/
structure Valid (cfg : Param) (t : Trie) (tokens : List ℤ) (state : MatchState) : Prop where
  epoch_le : state.trieEpoch ≤ t.trieEpoch
  processed : state.trieEpoch = t.trieEpoch → state.processedTotalLen = tokens.length
  length : state.trieEpoch = t.trieEpoch → state.anchors.length = min tokens.length cfg.maxTrieDepth
  stamped : state.trieEpoch = t.trieEpoch → ∀ i ref p, state.anchors[i]? = some ref → ref.ptr = some p →
    generations.Stamped t p ref.version (suffix (i + 1) tokens)
  null : ∀ ref ∈ state.anchors, ref.ptr = none → ref = .null

theorem Valid.fresh (h : 0 < t.trieEpoch) : Valid cfg t tokens .fresh where
  epoch_le := Nat.zero_le _
  processed heq := absurd heq h.ne
  length heq := absurd heq h.ne
  stamped heq := absurd heq h.ne
  null := nofun

/-- Insertions may take nodes away, but then the versions say so. -/
theorem Valid.shrinks (h : Valid cfg t tokens state) (hs : Shrinks t t') : Valid cfg t' tokens state where
  epoch_le := hs.epoch ▸ h.epoch_le
  processed heq := h.processed (heq.trans hs.epoch)
  length heq := h.length (heq.trans hs.epoch)
  stamped heq i ref p href hp := (h.stamped (heq.trans hs.epoch) i ref p href hp).keeps hs.keeps
  null := h.null

theorem Valid.of_follows (h : Follows cfg t tokens known state)
    (hlen : state.processedTotalLen = tokens.length) : Valid cfg t tokens state where
  epoch_le := h.epoch.le
  processed _ := hlen
  length _ := by rw [h.anchors, length_map, List.length_range]
  stamped _ i ref p href hp := by
    rw [h.anchors, List.getElem?_map] at href
    obtain ⟨j, hj, rfl⟩ := Option.map_eq_some_iff.mp href
    obtain ⟨hi, rfl⟩ := List.getElem?_eq_some_iff.mp hj
    rw [List.getElem_range] at hp ⊢
    cases ho : t.anchor tokens known i with
    | none =>
      rw [ho] at hp
      cases hp
    | some q =>
      rw [ho] at hp
      obtain rfl : q = p := some.inj hp
      unfold anchor at ho
      split at ho
      · exact .of_fact ho
      · cases ho
  null ref href hp := by
    rw [h.anchors] at href
    obtain ⟨i, -, rfl⟩ := List.mem_map.mp href
    cases ho : t.anchor tokens known i with
    | none => rfl
    | some q =>
      rw [ho] at hp
      cases hp

/-- What a state knows: the suffixes that it holds a reference for. -/
def knows (state : MatchState) (i : ℕ) : Bool := (state.anchors[i]?.bind NodeRef.ptr).isSome

/-- A state all of whose references are up to date holds the nodes of the suffixes that it knows. -/
theorem Valid.follows (h : Valid cfg t tokens state) (hval : t.validateMatchState state = true) :
    Follows cfg t tokens (knows state) state := by
  obtain ⟨hepoch, hall⟩ := Bool.and_eq_true_iff.mp hval
  have hepoch := of_decide_eq_true hepoch
  refine ⟨hepoch, List.ext_getElem (by rw [length_map, List.length_range, h.length hepoch]) fun i hi _ => ?_⟩
  rw [List.getElem_map, List.getElem_range]
  have href : state.anchors[i]? = some state.anchors[i] := List.getElem?_eq_getElem hi
  have hok := List.all_eq_true.mp hall _ (List.getElem_mem hi)
  have hknows : knows state i = (state.anchors[i].ptr).isSome := by
    unfold knows
    rw [href, bind_some]
  unfold anchor
  rw [hknows]
  cases hp : state.anchors[i].ptr with
  | none => exact h.null _ (List.getElem_mem hi) hp
  | some p =>
    rw [hp, isNone_some, Bool.false_or] at hok
    have hversion : (t.nodes p).version = state.anchors[i].version := by
      by_contra hne
      unfold resolve at hok
      rw [hp, bind_some, if_pos (.inr hne)] at hok
      cases hok
    have hwalk : t.walk t.root (suffix (i + 1) tokens) = some p :=
      (h.stamped hepoch i _ p href hp).2 hversion
    rw [isSome_some, if_pos rfl, hwalk]
    show state.anchors[i] = ⟨some p, (t.nodes p).version⟩
    rw [hversion, ← hp]

/-- How `match` goes on from the state of a request: it moves the state on, or rebuilds it. -/
theorem Valid.nextState_cases (h : Valid cfg t tokens state) (appended : List ℤ) :
    ((state.trieEpoch = t.trieEpoch ∧ appended.length ≤ cfg.maxTrieDepth ∧ t.validateMatchState state = true) ∧
      (t.nextState cfg (Matcher.context cfg (tokens ++ appended)) state
          (tokens ++ appended).length).processedTotalLen =
        (tokens ++ appended).length ∧ Follows cfg t (tokens ++ appended) (after appended.length (knows state))
        (t.nextState cfg (Matcher.context cfg (tokens ++ appended)) state (tokens ++ appended).length)) ∨
    (¬ (state.trieEpoch = t.trieEpoch ∧ appended.length ≤ cfg.maxTrieDepth ∧
      t.validateMatchState state = true) ∧
      t.nextState cfg (Matcher.context cfg (tokens ++ appended)) state (tokens ++ appended).length =
        t.rebuildMatchState cfg (Matcher.context cfg (tokens ++ appended)) (tokens ++ appended).length) := by
  set context := Matcher.context cfg (tokens ++ appended) with hcontext
  have hclen : context.length = min (tokens ++ appended).length cfg.maxTrieDepth :=
    length_suffix (Nat.min_le_left _ _)
  by_cases hadv : state.trieEpoch = t.trieEpoch ∧ appended.length ≤ cfg.maxTrieDepth ∧
      t.validateMatchState state = true
  · obtain ⟨hepoch, hshort, hval⟩ := hadv
    refine .inl ⟨⟨hepoch, hshort, hval⟩, ?_⟩
    have hnew : (tokens ++ appended).length - state.processedTotalLen = appended.length := by
      rw [h.processed hepoch, length_append, Nat.add_sub_cancel_left]
    have hle : appended.length ≤ context.length := by
      rw [hclen, length_append]
      omega
    have hcan : t.canAdvance cfg context state (tokens ++ appended).length = true := by
      unfold canAdvance
      rw [hnew, decide_eq_true hepoch, decide_eq_true hle, h.length hepoch, h.processed hepoch]
      simp
    have hsuffix : suffix appended.length context = appended := by
      rw [hcontext, Matcher.context, suffix_suffix _ (Nat.min_le_left _ _)]
      · have hsplit := suffix_append 0 tokens appended
        rw [Nat.zero_add] at hsplit
        rw [hsplit, suffix, Nat.sub_zero, List.drop_length, List.nil_append]
      · rw [← hclen]
        exact hle
    obtain ⟨state', hrun, hfollows⟩ := (h.follows hval).advanceTokens appended
    unfold nextState
    rw [if_pos hcan, hnew, hsuffix, advanceMatchState, if_pos hval, hrun]
    exact ⟨rfl, { hfollows with }⟩
  · refine .inr ⟨hadv, ?_⟩
    unfold nextState
    by_cases hcan : t.canAdvance cfg context state (tokens ++ appended).length = true
    · have hcan' := hcan
      unfold canAdvance at hcan'
      simp only [Bool.and_eq_true, decide_eq_true_eq] at hcan'
      obtain ⟨⟨⟨hepoch, -⟩, hle⟩, -⟩ := hcan'
      have hval : ¬ t.validateMatchState state = true := by
        refine fun hval => hadv ⟨hepoch, ?_, hval⟩
        rw [h.processed hepoch, length_append, Nat.add_sub_cancel_left, hclen] at hle
        exact hle.trans (Nat.min_le_right _ _)
      rw [if_pos hcan, advanceMatchState, if_neg hval, getD_none]
    · rw [if_neg hcan, getD_none]

/-- A fresh state is rebuilt. -/
theorem nextState_fresh (h : 0 < t.trieEpoch) (context : List ℤ) (totalLen : ℕ) :
    t.nextState cfg context .fresh totalLen = t.rebuildMatchState cfg context totalLen := by
  have hcan : t.canAdvance cfg context .fresh totalLen = false := by
    unfold canAdvance
    rw [decide_eq_false (show MatchState.fresh.trieEpoch ≠ t.trieEpoch from h.ne)]
    simp
  unfold nextState
  rw [if_neg (ne_true_of_eq_false hcan), getD_none]

/-- The state that a call leaves is one for the tokens of the call. -/
theorem Valid.nextState (h : Valid cfg t tokens state) (appended : List ℤ) :
    Valid cfg t (tokens ++ appended)
      (t.nextState cfg (Matcher.context cfg (tokens ++ appended)) state (tokens ++ appended).length) := by
  rcases h.nextState_cases appended with ⟨-, hlen, hfollows⟩ | ⟨-, heq⟩
  · exact .of_follows hfollows hlen
  · rw [heq]
    exact .of_follows (follows_rebuild cfg t _ _) rfl

end Trie

namespace Matcher

variable {cfg : Param} {m m' : Matcher}

/-! ## Runs -/

structure Inv (cfg : Param) (m : Matcher) : Prop where
  wf : m.trie.WF
  sized : m.trie.Sized cfg
  epoch_pos : 0 < m.trie.trieEpoch
  valid : ∀ id, Trie.Valid cfg m.trie (m.requests id).tokens (m.requests id).state

theorem Inv.setRequest (h : m.Inv cfg) (id : ℕ) {r : Request} (hr : Valid cfg m.trie r.tokens r.state) :
    Inv cfg { m with requests := Function.update m.requests id r } :=
  ⟨h.wf, h.sized, h.epoch_pos, (Function.forall_update_iff m.requests fun _ r =>
    Valid cfg m.trie r.tokens r.state).mpr ⟨hr, fun id' _ => h.valid id'⟩⟩

theorem Inv.step (h : m.Inv cfg) (hstep : Step cfg m m') : m'.Inv cfg := by
  cases hstep with
  | insert tokens hrun =>
    obtain ⟨hwf, hsized, hshrink⟩ := h.wf.of_insert h.sized hrun
    exact ⟨hwf, hsized, hshrink.epoch ▸ h.epoch_pos, fun id => (h.valid id).shrinks hshrink⟩
  | @reset t hrun =>
    obtain ⟨t', hrun', hwf, hsized, hepoch⟩ := fill_spec { m.trie with trieEpoch := m.trie.trieEpoch + 1 } cfg
    cases hrun.symm.trans hrun'
    refine ⟨hwf, hsized, hepoch ▸ Nat.succ_pos _, fun id => ?_⟩
    -- the epoch is a new one, so every state is out of date
    have hlt : (m.requests id).state.trieEpoch < t.trieEpoch := by
      rw [hepoch]
      exact Nat.lt_succ_of_le (h.valid id).epoch_le
    exact ⟨hlt.le, fun heq => absurd heq hlt.ne, fun heq => absurd heq hlt.ne, fun heq => absurd heq hlt.ne,
      (h.valid id).null⟩
  | call id appended => exact h.setRequest id ((h.valid id).nextState appended)
  | erase id => exact h.setRequest id (.fresh h.epoch_pos)

theorem inv_of_run {t : Trie} (hnew : new cfg = some t)
    (hrun : ReflTransGen (Step cfg) ⟨t, fun _ => ⟨.fresh, []⟩⟩ m) : m.Inv cfg := by
  induction hrun with
  | refl =>
    obtain ⟨t', hnew', hwf, hsized, hepoch⟩ := fill_spec ⟨fun _ => ⟨∅, 0, 0, 1⟩, [], [], 0, 1⟩ cfg
    cases hnew.symm.trans hnew'
    have hpos : 0 < t.trieEpoch := hepoch ▸ Nat.one_pos
    exact ⟨hwf, hsized, hpos, fun _ => .fresh hpos⟩
  | tail _ hstep ih => exact ih.step hstep

/-- Eight nodes, n-grams of up to four tokens. -/
def small : Param := ⟨8, 4, by decide, by decide⟩

/-- Whatever was inserted, evicted, reset and matched before: a call of a request returns the same anchors as
with a fresh state if and only if its state is not moved on past a suffix that was missing and now has a
continuation. -/
theorem matchAnchors_eq_fresh_iff {t : Trie} (hnew : Trie.new cfg = some t)
    (hrun : ReflTransGen (Step cfg) ⟨t, fun _ => ⟨.fresh, []⟩⟩ m) (id : ℕ) (appended : List ℤ) :
    m.call cfg ((m.requests id).tokens ++ appended) (m.requests id).state =
      m.call cfg ((m.requests id).tokens ++ appended) .fresh ↔ ¬ m.Overlooks cfg id appended := by
  have h := inv_of_run hnew hrun
  have hfresh : m.call cfg ((m.requests id).tokens ++ appended) .fresh = m.trie.getExpandableAnchors
      (m.trie.rebuildMatchState cfg (context cfg ((m.requests id).tokens ++ appended))
        ((m.requests id).tokens ++ appended).length) := by
    unfold call matchAnchors
    rw [nextState_fresh h.epoch_pos]
  rw [hfresh]
  unfold call matchAnchors
  rcases (h.valid id).nextState_cases appended with ⟨⟨hepoch, hshort, hval⟩, -, hfollows⟩ | ⟨hnot, heq⟩
  · have hlen := (h.valid id).length hepoch
    rw [hfollows.getExpandableAnchors, (follows_rebuild cfg m.trie _ _).getExpandableAnchors,
      filterMap_range_inj]
    have hwhole : ∀ i,
        m.trie.anchor ((m.requests id).tokens ++ appended) (fun _ => true) (i + appended.length) =
        m.trie.walk m.trie.root (suffix (i + 1) (m.requests id).tokens ++ appended) := by
      intro i
      unfold anchor
      rw [if_pos rfl, ← suffix_append, Nat.add_right_comm]
    constructor
    · rintro hsame ⟨-, -, -, i, hnull, hi, p, hwalk, hexp⟩
      obtain ⟨ref, href, hptr⟩ := Option.map_eq_some_iff.mp hnull
      have hlt : i < min (m.requests id).tokens.length cfg.maxTrieDepth :=
        hlen ▸ (List.getElem?_eq_some_iff.mp href).1
      have hknown : after appended.length (knows (m.requests id).state) (i + appended.length) = false := by
        unfold after knows
        rw [Nat.add_sub_cancel, show (m.requests id).state.anchors[i]? = some ref from href, bind_some, hptr]
        simp
      have hentry := hsame (i + appended.length) (by rw [length_append]; omega)
      rw [hwhole, hwalk, anchor, if_neg (ne_true_of_eq_false hknown)] at hentry
      simp [Option.filter, hexp] at hentry
    · intro hnone i hi
      by_cases hknown : after appended.length (knows (m.requests id).state) i = true
      · unfold anchor
        rw [if_pos hknown, if_pos rfl]
      · rw [length_append] at hi
        obtain ⟨hge, hnull⟩ : appended.length ≤ i ∧
          knows (m.requests id).state (i - appended.length) = false := by
          unfold after at hknown
          simpa using hknown
        obtain ⟨j, rfl⟩ : ∃ j, i = j + appended.length := ⟨i - appended.length, by omega⟩
        rw [Nat.add_sub_cancel] at hnull
        have hj : j < (m.requests id).state.anchors.length := by
          rw [hlen]
          omega
        rw [hwhole, anchor, if_neg hknown]
        symm
        rw [filter_none, filter_eq_none_iff]
        intro p hwalk hexp
        refine hnone ⟨hepoch, hshort, hval, j, ?_, by omega, p, hwalk, hexp⟩
        have href : (m.requests id).state.anchors[j]? = some (m.requests id).state.anchors[j] :=
          List.getElem?_eq_getElem hj
        unfold knows at hnull
        rw [href, bind_some, isSome_eq_false_iff, isNone_iff_eq_none] at hnull
        rw [href, map_some, hnull]
  · rw [heq]
    refine ⟨fun _ => ?_, fun _ => rfl⟩
    rintro ⟨hepoch, hshort, hval, -⟩
    exact hnot ⟨hepoch, hshort, hval⟩

/-- An n-gram is inserted, and a request is matched twice. -/
theorem matchAnchors_eq_fresh_iff_small : ∃ t m, Trie.new small = some t ∧
    ReflTransGen (Step small) ⟨t, fun _ => ⟨.fresh, []⟩⟩ m ∧ (m.requests 0).tokens = [1, 2] ∧
      m.call small [1, 2] (m.requests 0).state = [(5, 2), (3, 1)] ∧ ¬ m.Overlooks small 0 [] := by
  refine ⟨_, _, rfl, .head (.insert [1, 2, 3] rfl) (.single (.call 0 [1, 2])), rfl, rfl, ?_⟩
  exact (matchAnchors_eq_fresh_iff rfl (.head (.insert [1, 2, 3] rfl) (.single (.call 0 [1, 2]))) 0 []).mp rfl

/-- A request is matched before its n-gram is inserted, and again after: the suffixes that were missing stay
missing. -/
theorem inserted_suffix_overlooked : ∃ t m, Trie.new small = some t ∧
    ReflTransGen (Step small) ⟨t, fun _ => ⟨.fresh, []⟩⟩ m ∧ (m.requests 0).tokens = [1, 2] ∧
      m.call small [1, 2] (m.requests 0).state = [] ∧ m.call small [1, 2] .fresh = [(5, 2), (3, 1)] :=
  ⟨_, _, rfl, .head (.call 0 [1, 2]) (.single (.insert [1, 2, 3] rfl)), rfl, rfl, rfl⟩

/-- **When an insertion goes through**, whatever happened before: exactly if its longest n-gram leaves a node
for the root. Then it loses none of the nodes and uses none twice. -/
theorem insert_goes_through_iff {t : Trie} (hnew : Trie.new cfg = some t)
    (hrun : ReflTransGen (Step cfg) ⟨t, fun _ => ⟨.fresh, []⟩⟩ m) (tokens : List ℤ) :
    (∃ t', m.trie.insert cfg tokens = some t' ∧ (t'.root :: (t'.globalLru ++ t'.nodePool)).Nodup ∧
      t'.Sized cfg) ↔ min tokens.length cfg.maxTrieDepth < cfg.capacity := by
  have h := inv_of_run hnew hrun
  constructor
  · rintro ⟨t', hins, -⟩
    by_contra hfit
    cases tokens with
    | nil => exact hfit (lt_of_le_of_lt (Nat.min_le_left _ _) cfg.capacity_pos)
    | cons token rest =>
      have hlong : cfg.capacity ≤ ((token :: rest).take cfg.maxTrieDepth).length := by
        rw [List.length_take, Nat.min_comm]
        exact not_lt.mp hfit
      rw [Trie.insert, h.wf.insertNgram_eq_none h.sized hlong] at hins
      cases hins
  · intro hfit
    obtain ⟨t', hins, hwf, hsized, -⟩ := h.wf.insert_spec h.sized hfit
    exact ⟨t', hins, hwf.nodup, hsized⟩

/-- All nodes are in use, and four tokens still find room. -/
theorem insert_goes_through_iff_small : ∃ t m, Trie.new small = some t ∧
    ReflTransGen (Step small) ⟨t, fun _ => ⟨.fresh, []⟩⟩ m ∧ m.trie.nodePool = [] ∧
      ∃ t', m.trie.insert small [6, 7, 8, 9] = some t' ∧ (t'.root :: (t'.globalLru ++ t'.nodePool)).Nodup ∧
        t'.Sized small :=
  ⟨_, _, rfl, .single (.insert [1, 2, 3, 4, 5] rfl), rfl,
    (insert_goes_through_iff rfl (.single (.insert [1, 2, 3, 4, 5] rfl)) [6, 7, 8, 9]).mpr (by decide)⟩

end Matcher

end SGLang.Ngram
