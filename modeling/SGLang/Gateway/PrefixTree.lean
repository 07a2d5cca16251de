/-
# SGLang.Gateway.PrefixTree — the multi-tenant prefix tree of cache-aware routing.

The gateway keeps, per model, one radix tree of the texts it has routed. A node carries the tenants (workers)
that served a text through it, each with the epoch of its last use, and the tree keeps how many characters each
tenant has in it. `insert` walks the text down, splitting nodes where texts part and entering the tenant on the
way; `prefix_match_with_counts` and `prefix_match_tenant` walk without changing the shape;
`evict_tenant_by_size` and `remove_tenant` take a tenant off nodes from the bottom up and unlink the nodes that
are left without tenants.

A text is a list of characters and the heap of nodes is a page tree with pages of one character. Epochs come
from a counter shared by all trees, so an operation is given the value it draws. The order in which a hash map
is iterated, and which of several equally old entries a heap gives out first, are arguments (`Dict.arrange`).
-/
import SGLang.Gateway.NodeText
import SGLang.Lib.Dict
import SGLang.Lib.PageTreeVisit

namespace SGLang.Gateway

open SGLang.Lib SGLang.Lib.PageTree

/-- The interned tenant name. -/
abbrev TenantId := String

/-- What a node keeps of its tenants. -/
structure NodeTenants where
  lastAccess : AList fun _ : TenantId => ℕ
  lastTenant : Option TenantId

namespace NodeTenants

/-- `tenant_last_access_time.insert`. -/
def touch (x : TenantId) (epoch : ℕ) (d : NodeTenants) : NodeTenants :=
  { d with lastAccess := d.lastAccess.insert x epoch }

/-- `tenant_last_access_time.entry(x).or_insert(0)`. -/
def enter (x : TenantId) (d : NodeTenants) : NodeTenants :=
  if x ∈ d.lastAccess then d else d.touch x 0

/-- `tenant_last_access_time.remove`. -/
def leave (x : TenantId) (d : NodeTenants) : NodeTenants :=
  { d with lastAccess := d.lastAccess.erase x }

end NodeTenants

abbrev TenantNodes := PageTree NodeText Text NodeTenants

abbrev CharCounts := AList fun _ : TenantId => ℕ

/-- `Tree`. -/
structure PrefixTree where
  nodes : TenantNodes
  tenantCharCount : CharCounts

/-- The node exists and carries the tenant. -/
def carries (t : TenantNodes) (n : ℕ) (x : TenantId) : Bool :=
  ((t.nodes n).map fun nd => decide (x ∈ nd.data.lastAccess)).getD false

/-- A child of the node carries the tenant. -/
def childCarries (t : TenantNodes) (n : ℕ) (x : TenantId) : Bool :=
  (t.childIds n).any fun c => carries t c x

namespace PrefixTree

def new : PrefixTree := ⟨PageTree.single 0 NodeText.empty ⟨∅, none⟩, ∅⟩

/-! ## `insert` -/

/-- `entry(x).and_modify(|c| *c += n).or_insert(n)`. -/
def addCount (counts : CharCounts) (x : TenantId) (n : ℕ) : CharCounts :=
  counts.insert x ((counts.lookup x).getD 0 + n)

/-- Enter the tenant on a node that the walk goes through, with the characters it gains. -/
def attach (t : TenantNodes) (counts : CharCounts) (n : ℕ) (x : TenantId) (chars : ℕ) :
    TenantNodes × CharCounts :=
  if carries t n x then (t, counts)
  else (t.modifyData n (NodeTenants.touch x 0), addCount counts x chars)

/-- The loop of `insert`; `none` if it does not end or a slice panics. -/
def insertLoop (x : TenantId) (epoch : ℕ) :
    ℕ → TenantNodes → CharCounts → ℕ → Text → Option (TenantNodes × CharCounts)
  | 0, _, _, _, _ => none
  | _ + 1, t, counts, prev, [] => some (t.modifyData prev (NodeTenants.touch x epoch), counts)
  | fuel + 1, t, counts, prev, firstChar :: rest =>
    let remaining := firstChar :: rest
    match t.child prev [firstChar] with
    | none =>
      let leaf : NodeTenants := ⟨AList.singleton x epoch, some x⟩
      some ((t.addLeaf 1 prev (NodeText.new remaining) leaf).1, addCount counts x remaining.length)
    | some c => do
        let nd ← t.nodes c
        let sharedCount := Text.sharedPrefixCount remaining nd.key.text
        if sharedCount < nd.key.charCount then
          -- the halves of the text are those of the split; the upper node copies the tenants
          let (_, contractedText) ← nd.key.splitAtChar sharedCount
          let _ ← contractedText.firstChar
          let (t, newNode) := PageTree.splitAt 1 t c sharedCount id id
          let (t, counts) := attach t counts newNode x sharedCount
          let remaining ← Text.advanceByChars remaining sharedCount
          insertLoop x epoch fuel t counts newNode remaining
        else
          let (t, counts) := attach t counts c x nd.key.charCount
          let remaining ← Text.advanceByChars remaining sharedCount
          insertLoop x epoch fuel t counts c remaining

/-- `Tree::insert`. -/
def insert (T : PrefixTree) (text : Text) (tenant : TenantId) (epoch : ℕ) : Option PrefixTree := do
  let nodes := T.nodes.modifyData T.nodes.root (NodeTenants.enter tenant)
  let counts :=
    if tenant ∈ T.tenantCharCount then T.tenantCharCount else T.tenantCharCount.insert tenant 0
  let (nodes, counts) ← insertLoop tenant epoch (text.length + 1) nodes counts nodes.root text
  some ⟨nodes, counts⟩

/-! ## Prefix matches -/

/-- The loop of both prefix matches: the node where it stops and the characters matched. `enters` says whether
it goes into a child; `none` if it does not end or a slice panics. -/
def matchLoop (t : TenantNodes) (enters : NodeTenants → Bool) : ℕ → ℕ → Text → ℕ → Option (ℕ × ℕ)
  | 0, _, _, _ => none
  | _ + 1, prev, [], matched => some (prev, matched)
  | fuel + 1, prev, firstChar :: rest, matched =>
    let remaining := firstChar :: rest
    match t.child prev [firstChar] with
    | none => some (prev, matched)
    | some c => do
        let nd ← t.nodes c
        if enters nd.data then
          let sharedCount := Text.sharedPrefixCount remaining nd.key.text
          if sharedCount = nd.key.charCount then
            let remaining ← Text.advanceByChars remaining sharedCount
            matchLoop t enters fuel c remaining (matched + sharedCount)
          else some (c, matched + sharedCount)
        else some (prev, matched)

/-- The tenant of a node: the cached one if it is still there, else the first that the iteration gives, which is
then cached; `"empty"` for a node without tenants. -/
def chooseTenant (order : List TenantId → List TenantId) (d : NodeTenants) : TenantId × NodeTenants :=
  let first := ((Dict.arrange order d.lastAccess.keys).head?).getD "empty"
  match d.lastTenant with
  | some x => if x ∈ d.lastAccess then (x, d) else (first, { d with lastTenant := some first })
  | none => (first, { d with lastTenant := some first })

structure PrefixMatchResult where
  tenant : TenantId
  matchedCharCount : ℕ
  inputCharCount : ℕ
  deriving DecidableEq, Repr

/-- `Tree::prefix_match_with_counts`. -/
def prefixMatchWithCounts (T : PrefixTree) (text : Text) (order : List TenantId → List TenantId)
    (epoch : ℕ) : Option (PrefixTree × PrefixMatchResult) := do
  let (curr, matchedChars) ← matchLoop T.nodes (fun _ => true) (text.length + 1) T.nodes.root text 0
  let nd ← T.nodes.nodes curr
  let (tenant, data) := chooseTenant order nd.data
  -- one match in eight updates the time of the last access
  let data := if epoch % 8 = 0 then data.touch tenant epoch else data
  some ({ T with nodes := T.nodes.modifyData curr fun _ => data },
    ⟨tenant, matchedChars, text.length⟩)

/-- `Tree::prefix_match_tenant`. -/
def prefixMatchTenant (T : PrefixTree) (text : Text) (tenant : TenantId) (epoch : ℕ) :
    Option (PrefixTree × Text) := do
  let (curr, matchedChars) ← matchLoop T.nodes (fun d => decide (tenant ∈ d.lastAccess))
    (text.length + 1) T.nodes.root text 0
  let nodes :=
    if carries T.nodes curr tenant then T.nodes.modifyData curr (NodeTenants.touch tenant epoch)
    else T.nodes
  let matched ← Text.takeChars text matchedChars
  some ({ T with nodes := nodes }, matched)

/-! ## Taking a tenant off, from the bottom up -/

variable (t : TenantNodes)

/-- What eviction and removal both do with a node that carries the tenant: take the tenant off, unlink the node
if it is left without tenants and children, and name the parent if it has become the lowest node with the
tenant. -/
def peel (n : ℕ) (x : TenantId) : TenantNodes × Option ℕ :=
  match t.nodes n with
  | none => (t, none)
  | some nd =>
    let t := t.modifyData n (NodeTenants.leave x)
    if n = t.root then (t, none)
    else
      let bare := nd.children.entries.isEmpty && (nd.data.lastAccess.erase x).entries.isEmpty
      let t := if bare && nd.key.firstChar.isSome then PageTree.removeLeaf 1 t n else t
      (t, if carries t nd.parent x && !childCarries t nd.parent x then some nd.parent else none)

structure EvictionEntry where
  timestamp : ℕ
  tenant : TenantId
  node : ℕ
  deriving DecidableEq, Repr

/-- The entry of a node for a tenant that it carries. -/
def entryOf (n : ℕ) (x : TenantId) : Option EvictionEntry :=
  (t.nodes n).bind fun nd => (nd.data.lastAccess.lookup x).map fun timestamp => ⟨timestamp, x, n⟩

/-- `leaf_of`: the tenants of a node that no child of it carries. -/
def leafOf (n : ℕ) : List TenantId :=
  ((t.nodes n).map fun nd => nd.data.lastAccess.keys.filter fun x => !childCarries t n x).getD []

/-- The first of the oldest entries, and the others. -/
def popMin : List EvictionEntry → Option (EvictionEntry × List EvictionEntry)
  | [] => none
  | e :: es =>
    match popMin es with
    | none => some (e, [])
    | some (m, rest) =>
      if e.timestamp ≤ m.timestamp then some (e, es) else some (m, e :: rest)

/-- The body of the eviction loop for one entry, with the entry it pushes. -/
def evictEntry (maxSize : ℕ) (T : PrefixTree) (e : EvictionEntry) : PrefixTree × Option EvictionEntry :=
  if ∃ usedSize ∈ T.tenantCharCount.lookup e.tenant, usedSize ≤ maxSize then (T, none)
  else
    match T.nodes.nodes e.node with
    -- an unlinked node has no tenants left
    | none => (T, none)
    | some nd =>
      if carries T.nodes e.node e.tenant && !childCarries T.nodes e.node e.tenant then
        let counts := Dict.update T.tenantCharCount e.tenant fun count => count - nd.key.charCount
        let (nodes, parent) := peel T.nodes e.node e.tenant
        (⟨nodes, counts⟩, parent.bind fun p => entryOf nodes p e.tenant)
      else (T, none)

/-- The eviction loop; `none` if it does not end. -/
def evictLoop (maxSize : ℕ) (order : ℕ → List EvictionEntry → List EvictionEntry) :
    ℕ → PrefixTree → List EvictionEntry → Option PrefixTree
  | fuel, T, pq =>
    match popMin (Dict.arrange (order fuel) pq) with
    | none => some T
    | some (e, pq) =>
      match fuel with
      | 0 => none
      | fuel + 1 =>
        let (T, pushed) := evictEntry maxSize T e
        evictLoop maxSize order fuel T (pushed.toList ++ pq)

/-- How many tenant entries the nodes have together. -/
def tenantEntries (t : TenantNodes) : ℕ :=
  ∑ n ∈ Finset.range t.next, ((t.nodes n).map fun nd => nd.data.lastAccess.entries.length).getD 0

/-- `Tree::evict_tenant_by_size`. -/
def evictTenantBySize (T : PrefixTree) (maxSize : ℕ)
    (order : ℕ → List EvictionEntry → List EvictionEntry) : Option PrefixTree := do
  let visited ← T.nodes.visit
  let pq := visited.flatMap fun n => (leafOf T.nodes n).filterMap (entryOf T.nodes n)
  evictLoop maxSize order (pq.length + tenantEntries T.nodes) T pq

/-- The loop of `remove_tenant`; `none` if it does not end. -/
def removeLoop (x : TenantId) : ℕ → TenantNodes → List ℕ → Option TenantNodes
  | _, t, [] => some t
  | 0, _, _ :: _ => none
  | fuel + 1, t, n :: queue =>
    let (t, parent) := peel t n x
    removeLoop x fuel t (queue ++ parent.toList)

/-- `Tree::remove_tenant`. -/
def removeTenant (T : PrefixTree) (tenant : TenantId) (order : List ℕ → List ℕ) : Option PrefixTree := do
  let visited ← T.nodes.visit
  let queue := visited.filter fun n =>
    carries T.nodes n tenant && !childCarries T.nodes n tenant
  let nodes ← removeLoop tenant (T.nodes.next + 1) T.nodes (Dict.arrange order queue)
  some ⟨nodes, T.tenantCharCount.erase tenant⟩

/-! ## Sequences of operations -/

/-- A call on the tree, with the epoch it draws and the orders in which it iterates. -/
inductive Operation
  | insert (text : Text) (tenant : TenantId) (epoch : ℕ)
  | prefixMatchWithCounts (text : Text) (order : List TenantId → List TenantId) (epoch : ℕ)
  | prefixMatchTenant (text : Text) (tenant : TenantId) (epoch : ℕ)
  | evictTenantBySize (maxSize : ℕ) (order : ℕ → List EvictionEntry → List EvictionEntry)
  | removeTenant (tenant : TenantId) (order : List ℕ → List ℕ)

/-- The tree after a call. -/
def apply (T : PrefixTree) : Operation → Option PrefixTree
  | .insert text tenant epoch => T.insert text tenant epoch
  | .prefixMatchWithCounts text order epoch => (T.prefixMatchWithCounts text order epoch).map Prod.fst
  | .prefixMatchTenant text tenant epoch => (T.prefixMatchTenant text tenant epoch).map Prod.fst
  | .evictTenantBySize maxSize order => T.evictTenantBySize maxSize order
  | .removeTenant tenant order => T.removeTenant tenant order

/-- The tree after a sequence of calls; `none` if one of them panics or does not end. -/
def run (ops : List Operation) : Option PrefixTree := ops.foldlM apply new

end PrefixTree

end SGLang.Gateway
