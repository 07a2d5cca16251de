/-
# SGLang.Ngram.Trie — the n-gram trie in a pool of nodes.

The trie keeps the n-grams of the token sequences that were inserted, up to a depth. Its nodes come from a pool
of fixed size and are linked by pointers; when the pool runs low, the nodes least recently used go back to it,
with a new version, and may come out of it again as nodes of other n-grams.

The model has the pool, the pointers and the list of nodes by their last use; how often a node was seen and the
order among siblings are left out, since only the drafts built from matches use them. `walk` follows pointers.
What is proved is that the pointers always form a tree whose nodes are listed after their parents, so that what
is evicted is a leaf and an insertion goes through whenever its n-grams fit into the pool; and that an n-gram
keeps its node until the node's version changes (`insert_spec`).
-/
import Mathlib.Data.List.Induction
import SGLang.Lib.Dict
import SGLang.Lib.Generations

namespace SGLang.Ngram

open SGLang.Lib List
open Function (update_of_ne)
open Option (bind_eq_some_iff bind_some)

/-! ## The code -/

/-- `TrieNode`. -/
structure TrieNode where
  child : AList fun _ : ℤ => ℕ
  token : ℤ
  parent : ℕ
  version : ℕ

/-- What the constructors accept: a pool that is not empty, and a depth greater than one. -/
structure Param where
  capacity : ℕ
  maxTrieDepth : ℕ
  capacity_pos : 0 < capacity
  one_lt_depth : 1 < maxTrieDepth

/-- `Trie`; pointers are positions in `nodes_`. Of `node_pool_` the part below `free_node_count_` is kept, the
last one first. -/
structure Trie where
  nodes : ℕ → TrieNode
  nodePool : List ℕ
  globalLru : List ℕ
  root : ℕ
  trieEpoch : ℕ

namespace Trie

def setNode (t : Trie) (p : ℕ) (node : TrieNode) : Trie := { t with nodes := Function.update t.nodes p node }

/-- `getNode`; nothing if the pool is empty. -/
def getNode (t : Trie) : Option (ℕ × Trie) :=
  match t.nodePool with
  | [] => none
  | p :: rest => some (p, { t with nodePool := rest }.setNode p ⟨∅, 0, 0, (t.nodes p).version⟩)

/-- A whole pool, with a root out of it. -/
def fill (t : Trie) (capacity : ℕ) : Option Trie :=
  (getNode { t with globalLru := [], nodePool := (List.range capacity).reverse }).map fun x =>
    { x.2 with root := x.1 }

/-- `Trie::Trie`. -/
def new (cfg : Param) : Option Trie := fill ⟨fun _ => ⟨∅, 0, 0, 1⟩, [], [], 0, 1⟩ cfg.capacity

/-- `Trie::reset`. -/
def reset (cfg : Param) (t : Trie) : Option Trie := fill { t with trieEpoch := t.trieEpoch + 1 } cfg.capacity

/-- A new child: `getNode`, and its links. -/
def newChild (t : Trie) (cursor : ℕ) (token : ℤ) : Option (ℕ × Trie) :=
  t.getNode.map fun (node, t) =>
    let t := t.setNode cursor { t.nodes cursor with child := (t.nodes cursor).child.insert token node }
    (node, { t.setNode node { t.nodes node with token := token, parent := cursor } with
      globalLru := t.globalLru ++ [node] })

/-- The loop of `insert` along one n-gram, with the nodes on the way. -/
def insertPath (t : Trie) (cursor : ℕ) : List ℤ → Option (Trie × List ℕ)
  | [] => some (t, [])
  | token :: rest =>
    match (t.nodes cursor).child.lookup token with
    | none => do
        let (node, t) ← t.newChild cursor token
        let (t, path) ← t.insertPath node rest
        return (t, node :: path)
    | some node => do
        let (t, path) ← t.insertPath node rest
        return (t, node :: path)

/-- The nodes of a path are moved to the front, the last one first. -/
def splice (t : Trie) (path : List ℕ) : Trie :=
  { t with globalLru := path.foldr (fun node lru => node :: lru.erase node) t.globalLru }

/-- One round of `squeeze`; nothing if there is no node, or if it has children. -/
def evict (t : Trie) : Option Trie :=
  t.globalLru.getLast?.bind fun last =>
    if (t.nodes last).child.entries ≠ [] then none
    else
      let parent := (t.nodes last).parent
      let t := t.setNode parent
        { t.nodes parent with child := (t.nodes parent).child.erase (t.nodes last).token }
      some { t.setNode last { t.nodes last with version := (t.nodes last).version + 1 } with
        globalLru := t.globalLru.dropLast, nodePool := last :: t.nodePool }

def evictMany : ℕ → Trie → Option Trie
  | 0, t => some t
  | n + 1, t => t.evict.bind (evictMany n)

/-- `Trie::squeeze`. -/
def squeeze (cfg : Param) (t : Trie) (count : ℕ) : Option Trie :=
  if t.nodePool.length + count ≤ cfg.capacity then t.evictMany count else none

/-- Room for as many nodes. -/
def makeRoom (cfg : Param) (t : Trie) (count : ℕ) : Option Trie :=
  if t.nodePool.length < count then t.squeeze cfg (count - t.nodePool.length) else some t

/-- `Trie::insert` of one n-gram. -/
def insertNgram (cfg : Param) (t : Trie) (ngram : List ℤ) : Option Trie := do
  let t ← t.makeRoom cfg ngram.length
  let (t, path) ← t.insertPath t.root ngram
  return t.splice path

/-- `Trie::insert`: an n-gram from each position on. -/
def insert (cfg : Param) (t : Trie) : List ℤ → Option Trie
  | [] => some t
  | token :: rest => (t.insertNgram cfg ((token :: rest).take cfg.maxTrieDepth)).bind fun t => t.insert cfg rest

/-- Where the tokens lead from a node on. -/
def walk (t : Trie) : ℕ → List ℤ → Option ℕ
  | p, [] => some p
  | p, token :: rest => ((t.nodes p).child.lookup token).bind fun node => t.walk node rest

/-! ## The tree -/

/-- The nodes in use. -/
def Live (t : Trie) (p : ℕ) : Prop := p = t.root ∨ p ∈ t.globalLru

/-- The nodes in use and those in the pool are different, the pointers down and up agree, and no node is listed
before its parent. -/
structure WF (t : Trie) : Prop where
  nodup : (t.root :: (t.globalLru ++ t.nodePool)).Nodup
  edge : ∀ p token n, t.Live p → (t.nodes p).child.lookup token = some n →
    n ∈ t.globalLru ∧ (t.nodes n).parent = p ∧ (t.nodes n).token = token
  owned : ∀ n ∈ t.globalLru, t.Live (t.nodes n).parent ∧
    (t.nodes (t.nodes n).parent).child.lookup (t.nodes n).token = some n
  order : t.globalLru.Pairwise fun a b => (t.nodes a).parent ≠ b
  irrefl : ∀ n ∈ t.globalLru, (t.nodes n).parent ≠ n

/-- Every node is the root, in use or in the pool. -/
def Sized (cfg : Param) (t : Trie) : Prop := t.globalLru.length + t.nodePool.length + 1 = cfg.capacity

/-- The versions of the nodes are their generations; what is known of a node is the n-gram that leads to it. -/
def generations : Generations Trie ℕ (List ℤ) where
  generation t p := (t.nodes p).version
  Fact t p ngram := t.walk t.root ngram = some p

variable {cfg : Param} {t t' t'' : Trie} {p q n cursor last count : ℕ} {token : ℤ}
  {ngram ngram' tokens : List ℤ}
  {lru path : List ℕ}

/-! ### Walks -/

theorem walk_append (t : Trie) (p : ℕ) (ngram ngram' : List ℤ) :
    t.walk p (ngram ++ ngram') = (t.walk p ngram).bind fun q => t.walk q ngram' := by
  induction ngram generalizing p with
  | nil => rfl
  | cons token rest ih =>
    rw [cons_append, walk, walk, Option.bind_assoc]
    exact congrArg _ (funext ih)

theorem walk_singleton (t : Trie) (p : ℕ) (token : ℤ) : t.walk p [token] = (t.nodes p).child.lookup token :=
  Option.bind_fun_some _

theorem walk_concat (h : t.walk p (ngram ++ [token]) = some q) :
    ∃ r, t.walk p ngram = some r ∧ (t.nodes r).child.lookup token = some q := by
  rw [walk_append] at h
  obtain ⟨r, hr, hq⟩ := bind_eq_some_iff.mp h
  exact ⟨r, hr, walk_singleton t r token ▸ hq⟩

theorem walk_snoc (h : t.walk p ngram = some q) (hchild : (t.nodes q).child.lookup token = some n) :
    t.walk p (ngram ++ [token]) = some n := by
  rw [walk_append, h, bind_some, walk_singleton, hchild]

theorem walk_congr (hnodes : t'.nodes = t.nodes) : t'.walk p ngram = t.walk p ngram := by
  induction ngram generalizing p with
  | nil => rfl
  | cons token rest ih =>
    rw [walk, walk, hnodes]
    exact congrArg _ (funext fun m => ih)

theorem WF.live_root (_ : t.WF) : t.Live t.root := .inl rfl

theorem WF.root_notMem (h : t.WF) : t.root ∉ t.globalLru := fun hmem =>
  (nodup_cons.mp h.nodup).1 (mem_append_left _ hmem)

theorem WF.walk_live (h : t.WF) (hp : t.Live p) (hw : t.walk p ngram = some q) : t.Live q := by
  induction ngram generalizing p with
  | nil =>
    cases hw
    exact hp
  | cons token rest ih =>
    obtain ⟨m, hm, hrest⟩ := bind_eq_some_iff.mp hw
    exact ih (.inr (h.edge p token m hp hm).1) hrest

/-- A walk gets through in another trie if that has the links to the nodes of a kind and their parents are of
it. -/
theorem WF.walk_transfer {P : ℕ → Prop} (h : t.WF) (hroot : t'.root = t.root)
    (hlink : ∀ p token n, t.Live p → (t.nodes p).child.lookup token = some n → P n →
      P p ∧ (t'.nodes p).child.lookup token = some n) (hq : P q) (hw : t.walk t.root ngram = some q) :
    t'.walk t'.root ngram = some q := by
  induction ngram using reverseRecOn generalizing q with
  | nil => exact hroot ▸ hw
  | append_singleton ngram token ih =>
    obtain ⟨r, hr, hlook⟩ := walk_concat hw
    obtain ⟨hP, hlook'⟩ := hlink r token q (h.walk_live h.live_root hr) hlook hq
    exact walk_snoc (ih hP hr) hlook'

/-- A node has one n-gram: its parent and its token say how it was reached. -/
theorem WF.walk_inj (h : t.WF) (hw : t.walk t.root ngram = some q) (hw' : t.walk t.root ngram' = some q) :
    ngram = ngram' := by
  induction ngram using reverseRecOn generalizing q ngram' with
  | nil =>
    cases hw
    rcases eq_nil_or_concat' ngram' with rfl | ⟨ngram', token, rfl⟩
    · rfl
    · obtain ⟨r, hr, hq⟩ := walk_concat hw'
      exact absurd (h.edge r token _ (h.walk_live h.live_root hr) hq).1 h.root_notMem
  | append_singleton ngram token ih =>
    obtain ⟨r, hr, hq⟩ := walk_concat hw
    obtain ⟨hmem, hparent, htoken⟩ := h.edge r token q (h.walk_live h.live_root hr) hq
    rcases eq_nil_or_concat' ngram' with rfl | ⟨ngram', token', rfl⟩
    · cases hw'
      exact absurd hmem h.root_notMem
    · obtain ⟨r', hr', hq'⟩ := walk_concat hw'
      obtain ⟨-, hparent', htoken'⟩ := h.edge r' token' q (h.walk_live h.live_root hr') hq'
      have hsame : ngram = ngram' := ih hr (by rw [hr', ← hparent', hparent])
      rw [hsame, ← htoken, htoken']

/-! ### `insert` along one n-gram -/

/-- Nodes are added, and nothing else: no version changes, and every n-gram keeps its node. -/
structure Grows (t t' : Trie) : Prop where
  root : t'.root = t.root
  epoch : t'.trieEpoch = t.trieEpoch
  version : ∀ p, (t'.nodes p).version = (t.nodes p).version
  walk : ∀ ngram p, t.walk t.root ngram = some p → t'.walk t'.root ngram = some p
  size : t'.globalLru.length + t'.nodePool.length = t.globalLru.length + t.nodePool.length

theorem Grows.refl (t : Trie) : Grows t t := ⟨rfl, rfl, fun _ => rfl, fun _ _ h => h, rfl⟩

theorem Grows.trans (h : Grows t t') (h' : Grows t' t'') : Grows t t'' :=
  ⟨h'.root.trans h.root, h'.epoch.trans h.epoch, fun p => (h'.version p).trans (h.version p),
    fun ngram p hp => h'.walk ngram p (h.walk ngram p hp), h'.size.trans h.size⟩

theorem Grows.keeps (h : Grows t t') : generations.Keeps t t' := fun p =>
  ⟨(h.version p).ge, fun ngram hp _ => h.walk ngram p hp⟩

theorem newChild_eq (token : ℤ) {rest : List ℕ} (hpool : t.nodePool = n :: rest) (hne : cursor ≠ n) :
    ∃ t', t.newChild cursor token = some (n, t') ∧ t'.nodes n = ⟨∅, token, cursor, (t.nodes n).version⟩ ∧
      (∀ p, p ≠ n → t'.nodes p = { t.nodes p with
        child := if p = cursor then (t.nodes p).child.insert token n else (t.nodes p).child }) ∧
      t'.globalLru = t.globalLru ++ [n] ∧ t'.nodePool = rest ∧ t'.root = t.root ∧
        t'.trieEpoch = t.trieEpoch := by
  unfold newChild getNode
  rw [hpool]
  refine ⟨_, rfl, ?_, fun p hp => ?_, rfl, rfl, rfl, rfl⟩
  · simp [setNode, update_of_ne hne.symm]
  · by_cases hc : p = cursor
    · subst hc
      simp [setNode, update_of_ne hp]
    · simp [setNode, update_of_ne hp, hc]

/-- A child is added to a node in use that has none for the token. -/
theorem WF.newChild (h : t.WF) (hcursor : t.Live cursor) (hnone : (t.nodes cursor).child.lookup token = none)
    (hpool : t.nodePool ≠ []) :
    ∃ n t', t.newChild cursor token = some (n, t') ∧ t'.WF ∧ Grows t t' ∧
      (t'.nodes cursor).child.lookup token = some n ∧ t'.nodePool.length + 1 = t.nodePool.length := by
  obtain ⟨n, rest, hrest⟩ := exists_cons_of_ne_nil hpool
  have hnodup := h.nodup
  rw [hrest] at hnodup
  have hnroot : n ≠ t.root := by
    rintro rfl
    simp at hnodup
  have hnlru : n ∉ t.globalLru := by
    intro hmem
    have hdisj := (nodup_append.mp (nodup_cons.mp hnodup).2).2.2
    exact hdisj n hmem n mem_cons_self rfl
  have hdead : ∀ p, t.Live p → p ≠ n := by
    rintro p (rfl | hp) rfl
    · exact hnroot rfl
    · exact hnlru hp
  have hne := hdead cursor hcursor
  obtain ⟨t', hrun, hnodesn, hnodes, hlru, hpool', hroot, hepoch⟩ := newChild_eq token hrest hne
  have hlive : ∀ p, t'.Live p ↔ t.Live p ∨ p = n := by
    intro p
    unfold Live
    rw [hroot, hlru, mem_append, mem_singleton, or_assoc]
  -- what a node in use had as a child it has still; what it has besides is the new node
  have hchild : ∀ p token' m, t.Live p → ((t'.nodes p).child.lookup token' = some m ↔
      (t.nodes p).child.lookup token' = some m ∨ p = cursor ∧ token' = token ∧ m = n) := by
    intro p token' m hp
    rw [hnodes p (hdead p hp)]
    by_cases hpc : p = cursor
    · subst hpc
      have hold : (t.nodes p).child.lookup token' = some m → token' ≠ token := by
        rintro hm rfl
        cases hnone.symm.trans hm
      rw [if_pos rfl, Dict.lookup_insert_iff]
      tauto
    · simp [hpc]
  have hparent : ∀ m, t.Live m → (t'.nodes m).parent = (t.nodes m).parent ∧
      (t'.nodes m).token = (t.nodes m).token := by
    intro m hm
    rw [hnodes m (hdead m hm)]
    exact ⟨rfl, rfl⟩
  refine ⟨n, t', hrun, ?_, ?_, ?_, ?_⟩
  · exact {
      nodup := by
        rw [hroot, hlru, hpool', append_assoc]
        exact hnodup
      edge := fun p token' m hp hm => by
        rw [hlru, mem_append, mem_singleton]
        rcases (hlive p).mp hp with hp | rfl
        · rcases (hchild p token' m hp).mp hm with hm | ⟨rfl, rfl, rfl⟩
          · obtain ⟨hmem, hpar, htok⟩ := h.edge p token' m hp hm
            rw [(hparent m (.inr hmem)).1, (hparent m (.inr hmem)).2]
            exact ⟨.inl hmem, hpar, htok⟩
          · rw [hnodesn]
            exact ⟨.inr rfl, rfl, rfl⟩
        · rw [hnodesn] at hm
          cases hm
      owned := fun m hm => by
        rw [hlru, mem_append, mem_singleton] at hm
        rcases hm with hm | rfl
        · obtain ⟨hpar, hlook⟩ := h.owned m hm
          rw [(hparent m (.inr hm)).1, (hparent m (.inr hm)).2]
          exact ⟨(hlive _).mpr (.inl hpar), (hchild _ _ _ hpar).mpr (.inl hlook)⟩
        · rw [hnodesn]
          exact ⟨(hlive _).mpr (.inl hcursor), (hchild _ _ _ hcursor).mpr (.inr ⟨rfl, rfl, rfl⟩)⟩
      order := by
        rw [hlru, pairwise_append]
        refine ⟨h.order.imp_of_mem fun {a b} ha _ hab => ?_, pairwise_singleton _ _, ?_⟩
        · rw [(hparent a (.inr ha)).1]
          exact hab
        · intro a ha b hb
          rw [mem_singleton.mp hb, (hparent a (.inr ha)).1]
          exact hdead _ (h.owned a ha).1
      irrefl := fun m hm => by
        rw [hlru, mem_append, mem_singleton] at hm
        rcases hm with hm | rfl
        · rw [(hparent m (.inr hm)).1]
          exact h.irrefl m hm
        · rw [hnodesn]
          exact hne }
  · refine ⟨hroot, hepoch, fun p => ?_, fun ngram p hp => ?_, ?_⟩
    · by_cases hpn : p = n
      · subst hpn
        rw [hnodesn]
      · rw [hnodes p hpn]
    · exact h.walk_transfer (P := fun _ => True) hroot
        (fun p token' m hp hm _ => ⟨trivial, (hchild p token' m hp).mpr (.inl hm)⟩) trivial hp
    · simp only [hlru, hpool', hrest, length_append, length_cons, length_nil]
      omega
  · exact (hchild cursor token n hcursor).mpr (.inr ⟨rfl, rfl, rfl⟩)
  · rw [hpool', hrest]
    rfl

/-- The pool is large enough, so the loop gets through, and the path holds the nodes of the longer and longer
n-grams. -/
theorem WF.insertPath (h : t.WF) (hcursor : t.walk t.root ngram = some cursor)
    (hpool : tokens.length ≤ t.nodePool.length) :
    ∃ t' path, t.insertPath cursor tokens = some (t', path) ∧ t'.WF ∧ Grows t t' ∧ path.length = tokens.length ∧
      ∀ i (hi : i < path.length), t'.walk t'.root (ngram ++ tokens.take (i + 1)) = some path[i] := by
  induction tokens generalizing t cursor ngram with
  | nil => exact ⟨t, [], rfl, h, .refl t, rfl, nofun⟩
  | cons token rest ih =>
    have hlive := h.walk_live h.live_root hcursor
    -- the step to the child, found or made, and then the rest of the way
    have hstep : ∀ {t₁ : Trie} {node : ℕ}, t₁.WF → Grows t t₁ →
        (t₁.nodes cursor).child.lookup token = some node →
        rest.length ≤ t₁.nodePool.length →
        ∃ t' path, t₁.insertPath node rest = some (t', path) ∧ t'.WF ∧ Grows t t' ∧
          (node :: path).length = (token :: rest).length ∧ ∀ i (hi : i < (node :: path).length),
            t'.walk t'.root (ngram ++ (token :: rest).take (i + 1)) = some (node :: path)[i] := by
      intro t₁ node h₁ hgrow hnode hlen
      have hwalk := walk_snoc (hgrow.walk _ _ hcursor) hnode
      obtain ⟨t', path, hrun, h', hgrow', hlength, hpath⟩ := ih h₁ hwalk hlen
      refine ⟨t', path, hrun, h', hgrow.trans hgrow', congrArg (· + 1) hlength, ?_⟩
      rintro (_ | i) hi
      · rw [take_succ_cons, take_zero]
        exact hgrow'.walk _ _ hwalk
      · have htail := hpath i (Nat.lt_of_succ_lt_succ hi)
        rw [append_assoc] at htail
        exact htail
    rw [length_cons] at hpool
    cases hnode : (t.nodes cursor).child.lookup token with
    | some node =>
      obtain ⟨t', path, hrun, hrest⟩ := hstep h (.refl t) hnode (Nat.le_of_succ_le hpool)
      refine ⟨t', node :: path, ?_, hrest⟩
      rw [Trie.insertPath, hnode]
      simp [hrun]
    | none =>
      have hne : t.nodePool ≠ [] := by
        rintro hnil
        rw [hnil] at hpool
        cases hpool
      obtain ⟨node, t₁, hnew, h₁, hgrow, hlook, hlen⟩ := h.newChild hlive hnode hne
      obtain ⟨t', path, hrun, hrest⟩ := hstep h₁ hgrow hlook (by omega)
      refine ⟨t', node :: path, ?_, hrest⟩
      rw [Trie.insertPath, hnode]
      simp [hnew, hrun]

/-! ### The order of use -/

theorem foldr_splice (hlru : lru.Nodup) (hpath : path.Nodup) :
    path.foldr (fun node lru => node :: lru.erase node) lru = path ++ lru.filter (· ∉ path) := by
  induction path with
  | nil => simp
  | cons n path ih =>
    obtain ⟨hn, hpath⟩ := nodup_cons.mp hpath
    rw [foldr_cons, ih hpath, erase_append_right _ hn, (hlru.filter _).erase_eq_filter, filter_filter,
      cons_append]
    congr 2
    refine filter_congr fun x _ => ?_
    by_cases hx : x = n <;> simp [hx]

/-- The list is put in another order that still has no node before its parent. -/
theorem WF.reorder (h : t.WF) (hperm : lru.Perm t.globalLru)
    (horder : lru.Pairwise fun a b => (t.nodes a).parent ≠ b) : WF { t with globalLru := lru } where
  nodup := ((hperm.append_right t.nodePool).cons t.root).nodup_iff.mpr h.nodup
  edge p token n hp hn := by
    have hp : t.Live p := hp.imp_right hperm.mem_iff.mp
    exact ⟨hperm.mem_iff.mpr (h.edge p token n hp hn).1, (h.edge p token n hp hn).2⟩
  owned n hn := by
    obtain ⟨hpar, hlook⟩ := h.owned n (hperm.mem_iff.mp hn)
    exact ⟨hpar.imp_right hperm.mem_iff.mpr, hlook⟩
  order := horder
  irrefl n hn := h.irrefl n (hperm.mem_iff.mp hn)

/-- The nodes along an n-gram come to the front, each after its parent. -/
theorem WF.splice (h : t.WF) (hlen : path.length = tokens.length)
    (hpath : ∀ i (hi : i < path.length), t.walk t.root (tokens.take (i + 1)) = some path[i]) :
    (t.splice path).WF ∧ Grows t (t.splice path) := by
  have hparent : ∀ i (hi : i < path.length), t.walk t.root (tokens.take i) = some (t.nodes path[i]).parent ∧
      path[i] ∈ t.globalLru := by
    intro i hi
    have hwalk := hpath i hi
    rw [take_succ_eq_append_getElem (hlen ▸ hi)] at hwalk
    obtain ⟨r, hr, hlook⟩ := walk_concat hwalk
    obtain ⟨hmem, hpar, -⟩ := h.edge r _ _ (h.walk_live h.live_root hr) hlook
    exact ⟨hpar ▸ hr, hmem⟩
  have hinj : ∀ i j (hi : i < path.length) (hj : j < path.length), path[i] = path[j] → i = j := by
    intro i j hi hj heq
    have hsame := congrArg length (h.walk_inj (hpath i hi) (heq ▸ hpath j hj))
    rw [length_take, length_take] at hsame
    omega
  have hnodup : path.Nodup := nodup_iff_injective_getElem.mpr fun i j heq =>
    Fin.ext (hinj i j i.2 j.2 heq)
  have hlru : t.globalLru.Nodup := (nodup_append.mp (nodup_cons.mp h.nodup).2).1
  have hsub : path ⊆ t.globalLru := by
    intro n hn
    obtain ⟨i, hi, rfl⟩ := getElem_of_mem hn
    exact (hparent i hi).2
  have hperm : (path ++ t.globalLru.filter (· ∉ path)).Perm t.globalLru := by
    refine (perm_ext_iff_of_nodup (Nodup.append hnodup (hlru.filter _) ?_) hlru).mpr fun n => ?_
    · intro n hn hn'
      exact (of_decide_eq_true (mem_filter.mp hn').2) hn
    · rw [mem_append, mem_filter]
      by_cases hn : n ∈ path
      · simp [hn, hsub hn]
      · simp [hn]
  -- the parent of a node of the path is the root, or the node before it in the path
  have hbefore : ∀ i (hi : i < path.length), (t.nodes path[i]).parent = t.root ∨
      ∃ j, ∃ (hj : j < path.length), j < i ∧ (t.nodes path[i]).parent = path[j] := by
    rintro (_ | i) hi
    · have hroot := (hparent 0 hi).1
      rw [take_zero] at hroot
      exact .inl (Option.some.inj hroot).symm
    · refine .inr ⟨i, Nat.lt_of_succ_lt hi, Nat.lt_succ_self i, ?_⟩
      have hpar := (hparent (i + 1) hi).1
      rw [hpath i (Nat.lt_of_succ_lt hi)] at hpar
      exact (Option.some.inj hpar).symm
  have horder : (path ++ t.globalLru.filter (· ∉ path)).Pairwise fun a b => (t.nodes a).parent ≠ b := by
    rw [pairwise_append]
    refine ⟨?_, h.order.sublist filter_sublist, ?_⟩
    · rw [pairwise_iff_getElem]
      intro i j hi hj hij heq
      rcases hbefore i hi with hroot | ⟨k, hk, hki, hpar⟩
      · exact h.root_notMem (hroot ▸ heq ▸ hsub (getElem_mem hj))
      · have hkj := hinj k j hk hj (hpar.symm.trans heq)
        omega
    · intro a ha b hb heq
      obtain ⟨i, hi, rfl⟩ := getElem_of_mem ha
      obtain ⟨hb, hnot⟩ := mem_filter.mp hb
      rcases hbefore i hi with hroot | ⟨k, hk, -, hpar⟩
      · exact h.root_notMem (hroot ▸ heq ▸ hb)
      · refine of_decide_eq_true hnot ?_
        rw [← heq, hpar]
        exact getElem_mem hk
  have heq : t.splice path = { t with globalLru := path ++ t.globalLru.filter (· ∉ path) } := by
    unfold Trie.splice
    rw [foldr_splice hlru hnodup]
  rw [heq]
  refine ⟨h.reorder hperm horder, rfl, rfl, fun _ => rfl, fun ngram p hp => ?_, ?_⟩
  · rw [← hp]
    exact walk_congr rfl
  · rw [hperm.length_eq]

/-! ### `squeeze` -/

/-- The node that was least recently used has no children: they would be listed after it. -/
theorem WF.last_leaf (h : t.WF) (hlast : t.globalLru.getLast? = some last) :
    (t.nodes last).child.entries = [] := by
  obtain ⟨lru, hlru⟩ := getLast?_eq_some_iff.mp hlast
  have hmem : last ∈ t.globalLru := mem_of_getLast? hlast
  by_contra hne
  obtain ⟨⟨token, n⟩, hentry⟩ := exists_mem_of_ne_nil _ hne
  have hlook : (t.nodes last).child.lookup token = some n := AList.mem_lookup_iff.mpr hentry
  obtain ⟨hn, hparent, -⟩ := h.edge last token n (.inr hmem) hlook
  have hbefore : n ∈ lru := by
    rw [hlru, mem_append, mem_singleton] at hn
    refine hn.resolve_right fun heq => ?_
    subst heq
    exact h.irrefl n hmem hparent
  have horder := h.order
  rw [hlru, pairwise_append] at horder
  exact horder.2.2 n hbefore last (mem_singleton_self _) hparent

/-- What `squeeze` does to the trie: nodes leave it, and their versions go up. -/
structure Shrinks (t t' : Trie) : Prop where
  root : t'.root = t.root
  epoch : t'.trieEpoch = t.trieEpoch
  keeps : generations.Keeps t t'
  size : t'.globalLru.length + t'.nodePool.length = t.globalLru.length + t.nodePool.length

theorem Shrinks.refl (t : Trie) : Shrinks t t := ⟨rfl, rfl, .refl _ t, rfl⟩

theorem Shrinks.trans (h : Shrinks t t') (h' : Shrinks t' t'') : Shrinks t t'' :=
  ⟨h'.root.trans h.root, h'.epoch.trans h.epoch, h.keeps.trans h'.keeps, h'.size.trans h.size⟩

theorem Grows.shrinks (h : Grows t t') : Shrinks t t' := ⟨h.root, h.epoch, h.keeps, h.size⟩

theorem evict_eq (hlast : t.globalLru.getLast? = some last) (hleaf : (t.nodes last).child.entries = [])
    (hne : (t.nodes last).parent ≠ last) :
    ∃ t', t.evict = some t' ∧ t'.nodes last = { t.nodes last with version := (t.nodes last).version + 1 } ∧
      (∀ p, p ≠ last → t'.nodes p = { t.nodes p with
        child := if p = (t.nodes last).parent then (t.nodes p).child.erase (t.nodes last).token else
          (t.nodes p).child }) ∧
      t'.globalLru = t.globalLru.dropLast ∧ t'.nodePool = last :: t.nodePool ∧ t'.root = t.root ∧
      t'.trieEpoch = t.trieEpoch := by
  unfold evict
  rw [hlast, bind_some, if_neg (not_not.mpr hleaf)]
  refine ⟨_, rfl, ?_, fun p hp => ?_, rfl, rfl, rfl, rfl⟩
  · simp [setNode, update_of_ne hne.symm]
  · by_cases hpar : p = (t.nodes last).parent
    · subst hpar
      simp [setNode, update_of_ne hne]
    · simp [setNode, update_of_ne hp, hpar]

theorem WF.evict (h : t.WF) (hne : t.globalLru ≠ []) :
    ∃ t', t.evict = some t' ∧ t'.WF ∧ Shrinks t t' ∧ t'.globalLru.length + 1 = t.globalLru.length := by
  obtain ⟨last, hlast⟩ : ∃ last, t.globalLru.getLast? = some last :=
    ⟨_, getLast?_eq_some_getLast hne⟩
  have hleaf := h.last_leaf hlast
  have hmem : last ∈ t.globalLru := mem_of_getLast? hlast
  obtain ⟨hplive, hplook⟩ := h.owned last hmem
  have hirrefl := h.irrefl last hmem
  obtain ⟨t', hrun, hnodesl, hnodes, hlru, hpool, hroot, hepoch⟩ := evict_eq hlast hleaf hirrefl
  obtain ⟨lru, hsplit⟩ := getLast?_eq_some_iff.mp hlast
  have hlru' : t'.globalLru = lru := by
    rw [hlru, hsplit, dropLast_concat]
  have hnodup := h.nodup
  rw [hsplit, append_assoc] at hnodup
  have hlastlru : last ∉ lru := by
    intro hin
    have hdisj := (nodup_append.mp (nodup_cons.mp hnodup).2).2.2
    exact hdisj last hin last mem_cons_self rfl
  have hlastroot : last ≠ t.root := fun heq => h.root_notMem (heq ▸ hmem)
  have hnochild : ∀ token, (t.nodes last).child.lookup token = none := by
    intro token
    rw [AList.lookup_eq_none, AList.mem_keys, AList.keys, hleaf]
    exact not_mem_nil
  have hlive : ∀ p, t'.Live p ↔ t.Live p ∧ p ≠ last := by
    intro p
    unfold Live
    rw [hroot, hlru', hsplit, mem_append, mem_singleton]
    constructor
    · rintro (rfl | hp)
      · exact ⟨.inl rfl, hlastroot.symm⟩
      · exact ⟨.inr (.inl hp), fun heq => hlastlru (heq ▸ hp)⟩
    · rintro ⟨rfl | hp | hp, hl⟩
      · exact .inl rfl
      · exact .inr hp
      · exact absurd hp hl
  -- the one link that is gone is the one to the node
  have hchild : ∀ p token n, t.Live p → ((t'.nodes p).child.lookup token = some n ↔
      (t.nodes p).child.lookup token = some n ∧ n ≠ last) := by
    intro p token n hp
    have hlink : (t.nodes p).child.lookup token = some last →
        p = (t.nodes last).parent ∧ token = (t.nodes last).token := fun hl =>
      ⟨(h.edge p token last hp hl).2.1.symm, (h.edge p token last hp hl).2.2.symm⟩
    by_cases hpl : p = last
    · subst hpl
      rw [hnodesl]
      simp [hnochild]
    · rw [hnodes p hpl]
      split
      · next hpp =>
        subst hpp
        rw [Dict.lookup_erase_iff]
        refine ⟨fun ⟨htok, hn⟩ => ⟨hn, ?_⟩, fun ⟨hn, hnl⟩ => ⟨?_, hn⟩⟩
        · rintro rfl
          exact htok (hlink hn).2
        · rintro rfl
          exact hnl (Option.some.inj (hn.symm.trans hplook))
      · next hpp =>
        refine ⟨fun hn => ⟨hn, ?_⟩, And.left⟩
        rintro rfl
        exact hpp (hlink hn).1
  have hsame : ∀ n, n ≠ last → (t'.nodes n).parent = (t.nodes n).parent ∧
      (t'.nodes n).token = (t.nodes n).token ∧
      (t'.nodes n).version = (t.nodes n).version := by
    intro n hn
    rw [hnodes n hn]
    exact ⟨rfl, rfl, rfl⟩
  refine ⟨t', hrun, ?_, ⟨hroot, hepoch, ?_, ?_⟩, ?_⟩
  · exact {
      nodup := by
        rw [hroot, hlru', hpool]
        exact hnodup
      edge := fun p token n hp hn => by
        obtain ⟨hp, hpl⟩ := (hlive p).mp hp
        obtain ⟨hn, hnl⟩ := (hchild p token n hp).mp hn
        obtain ⟨hin, hpar, htok⟩ := h.edge p token n hp hn
        rw [hlru', (hsame n hnl).1, (hsame n hnl).2.1]
        rw [hsplit, mem_append, mem_singleton] at hin
        exact ⟨hin.resolve_right hnl, hpar, htok⟩
      owned := fun n hn => by
        rw [hlru'] at hn
        have hnl : n ≠ last := fun heq => hlastlru (heq ▸ hn)
        obtain ⟨hpar, hlook⟩ := h.owned n (hsplit ▸ mem_append_left _ hn)
        rw [(hsame n hnl).1, (hsame n hnl).2.1]
        refine ⟨(hlive _).mpr ⟨hpar, fun heq => ?_⟩, (hchild _ _ _ hpar).mpr ⟨hlook, hnl⟩⟩
        rw [heq, hnochild] at hlook
        cases hlook
      order := by
        have horder := h.order
        rw [hsplit, pairwise_append] at horder
        rw [hlru']
        refine horder.1.imp_of_mem fun {a b} ha _ hab => ?_
        rw [(hsame a fun heq => hlastlru (heq ▸ ha)).1]
        exact hab
      irrefl := fun n hn => by
        rw [hlru'] at hn
        rw [(hsame n fun heq => hlastlru (heq ▸ hn)).1]
        exact h.irrefl n (hsplit ▸ mem_append_left _ hn) }
  · intro p
    by_cases hpl : p = last
    · subst hpl
      show (t.nodes p).version ≤ (t'.nodes p).version ∧
        ∀ ngram, _ → (t'.nodes p).version = (t.nodes p).version → _
      rw [hnodesl]
      exact ⟨Nat.le_succ _, fun _ _ heq => absurd heq (Nat.succ_ne_self _)⟩
    · refine ⟨(hsame p hpl).2.2.ge, fun ngram hp _ => ?_⟩
      -- a walk that does not end at the node does not come past it
      refine h.walk_transfer (P := (· ≠ last)) hroot (fun q token m hq hm hml =>
        ⟨?_, (hchild q token m hq).mpr ⟨hm, hml⟩⟩)
        hpl hp
      rintro rfl
      cases (hnochild token).symm.trans hm
  · rw [hlru', hpool, hsplit, length_append, length_cons, length_singleton]
    omega
  · rw [hlru', hsplit, length_append, length_singleton]

theorem WF.evictMany (h : t.WF) (hcount : count ≤ t.globalLru.length) :
    ∃ t', t.evictMany count = some t' ∧ t'.WF ∧ Shrinks t t' ∧
      t'.globalLru.length + count = t.globalLru.length := by
  induction count generalizing t with
  | zero => exact ⟨t, rfl, h, .refl t, rfl⟩
  | succ count ih =>
    have hne : t.globalLru ≠ [] := by
      intro hnil
      rw [hnil] at hcount
      cases hcount
    obtain ⟨t₁, hrun, h₁, hshrink, hlen⟩ := h.evict hne
    obtain ⟨t₂, hrun', h₂, hshrink', hlen'⟩ := ih h₁ (by omega)
    refine ⟨t₂, ?_, h₂, hshrink.trans hshrink', by omega⟩
    show t.evict.bind (Trie.evictMany count) = some t₂
    rw [hrun, bind_some, hrun']

/-- There are not as many nodes to evict. -/
theorem WF.evictMany_eq_none (h : t.WF) (hcount : t.globalLru.length < count) : t.evictMany count = none := by
  induction count generalizing t with
  | zero => cases hcount
  | succ count ih =>
    show t.evict.bind (Trie.evictMany count) = none
    by_cases hne : t.globalLru = []
    · unfold Trie.evict
      rw [hne]
      rfl
    · obtain ⟨t₁, hrun, h₁, -, hlen⟩ := h.evict hne
      rw [hrun, bind_some]
      exact ih h₁ (by omega)

/-! ### `insert` -/

theorem WF.insertNgram (h : t.WF) (hsize : t.Sized cfg) (hfit : ngram.length < cfg.capacity) :
    ∃ t', t.insertNgram cfg ngram = some t' ∧ t'.WF ∧ t'.Sized cfg ∧ Shrinks t t' := by
  unfold Sized at hsize
  have hroom : ∃ t₁, t.makeRoom cfg ngram.length = some t₁ ∧ t₁.WF ∧ Shrinks t t₁ ∧
      ngram.length ≤ t₁.nodePool.length := by
    unfold makeRoom
    split
    · next hlow =>
      obtain ⟨t₁, hrun, h₁, hshrink, hlen⟩ := h.evictMany
        (show ngram.length - t.nodePool.length ≤ t.globalLru.length by omega)
      have hsame := hshrink.size
      refine ⟨t₁, ?_, h₁, hshrink, by omega⟩
      unfold squeeze
      rw [if_pos (by omega), hrun]
    · next hhigh => exact ⟨t, rfl, h, .refl t, not_lt.mp hhigh⟩
  obtain ⟨t₁, hrun₁, h₁, hshrink, hpool⟩ := hroom
  obtain ⟨t₂, path, hrun₂, h₂, hgrow, hlen, hpath⟩ :=
    h₁.insertPath (show t₁.walk t₁.root [] = some t₁.root from rfl) hpool
  obtain ⟨h₃, hgrow'⟩ := h₂.splice hlen hpath
  have hall := (hshrink.trans hgrow.shrinks).trans hgrow'.shrinks
  refine ⟨t₂.splice path, ?_, h₃, ?_, hall⟩
  · simp [Trie.insertNgram, hrun₁, hrun₂]
  · unfold Sized
    rw [hall.size]
    exact hsize

/-- **`insert`**: it goes through if its longest n-gram leaves room for the root, it keeps the tree, and a node
that keeps its version keeps its n-gram. -/
theorem WF.insert_spec (h : t.WF) (hsize : t.Sized cfg)
    (hfit : min tokens.length cfg.maxTrieDepth < cfg.capacity) :
    ∃ t', t.insert cfg tokens = some t' ∧ t'.WF ∧ t'.Sized cfg ∧ Shrinks t t' := by
  induction tokens generalizing t with
  | nil => exact ⟨t, rfl, h, hsize, .refl t⟩
  | cons token rest ih =>
    rw [length_cons] at hfit
    have hlen : ((token :: rest).take cfg.maxTrieDepth).length < cfg.capacity := by
      rw [length_take, length_cons]
      omega
    obtain ⟨t₁, hrun, h₁, hsize₁, hshrink⟩ := h.insertNgram hsize hlen
    obtain ⟨t₂, hrun', h₂, hsize₂, hshrink'⟩ := ih h₁ hsize₁ (by omega)
    refine ⟨t₂, ?_, h₂, hsize₂, hshrink.trans hshrink'⟩
    rw [Trie.insert, hrun, bind_some, hrun']

/-- An n-gram as long as the pool does not fit, since the root takes a node. -/
theorem WF.insertNgram_eq_none (h : t.WF) (hsize : t.Sized cfg) (hlong : cfg.capacity ≤ ngram.length) :
    t.insertNgram cfg ngram = none := by
  unfold Sized at hsize
  have hroom : t.makeRoom cfg ngram.length = none := by
    unfold makeRoom squeeze
    rw [if_pos (by omega)]
    split
    · exact h.evictMany_eq_none (by omega)
    · rfl
  simp [Trie.insertNgram, hroom]

/-- An insertion that goes through leaves the trie as `insert_spec` says. -/
theorem WF.of_insert (h : t.WF) (hsize : t.Sized cfg) (hrun : t.insert cfg tokens = some t') :
    t'.WF ∧ t'.Sized cfg ∧ Shrinks t t' := by
  by_cases hfit : min tokens.length cfg.maxTrieDepth < cfg.capacity
  · obtain ⟨t₁, hrun₁, hspec⟩ := h.insert_spec hsize hfit
    cases hrun.symm.trans hrun₁
    exact hspec
  · cases tokens with
    | nil => exact absurd (lt_of_le_of_lt (Nat.min_le_left _ _) cfg.capacity_pos) hfit
    | cons token rest =>
      have hlong : cfg.capacity ≤ ((token :: rest).take cfg.maxTrieDepth).length := by
        rw [length_take, Nat.min_comm]
        exact not_lt.mp hfit
      rw [Trie.insert, h.insertNgram_eq_none hsize hlong] at hrun
      cases hrun

/-! ### `reset` -/

theorem fill_spec (t : Trie) (cfg : Param) : ∃ t', t.fill cfg.capacity = some t' ∧ t'.WF ∧ t'.Sized cfg ∧
    t'.trieEpoch = t.trieEpoch := by
  obtain ⟨n, hn⟩ : ∃ n, cfg.capacity = n + 1 := ⟨_, (Nat.succ_pred_eq_of_pos cfg.capacity_pos).symm⟩
  have hpool : (range cfg.capacity).reverse = n :: (range n).reverse := by
    rw [hn, range_succ, reverse_append]
    rfl
  unfold fill getNode
  rw [hpool]
  refine ⟨_, rfl, ?_, ?_, rfl⟩
  · exact {
      nodup := by
        show (n :: ([] ++ (range n).reverse)).Nodup
        rw [nil_append, nodup_cons, nodup_reverse, mem_reverse, mem_range]
        exact ⟨lt_irrefl n, nodup_range⟩
      edge := fun p token m hp hm => by
        rcases hp with hp | hp
        · have hm : (Function.update t.nodes n ⟨∅, 0, 0, (t.nodes n).version⟩ p).child.lookup token =
              some m := hm
          rw [show p = n from hp, Function.update_self] at hm
          cases hm
        · cases hp
      owned := nofun
      order := Pairwise.nil
      irrefl := nofun }
  · show 0 + (range n).reverse.length + 1 = cfg.capacity
    rw [length_reverse, length_range, hn, Nat.zero_add]

end Trie

end SGLang.Ngram
