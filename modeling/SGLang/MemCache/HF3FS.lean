/-
# SGLang.MemCache.HF3FS — the pages of an HF3FS file under concurrent writers.

`RankMetadata` says which pages of the file are free and which page each key has. A writer reserves pages for
its keys, writes them, and then confirms the pages that were written and gives back the others; each of the two
calls is atomic, and between them other writers, deletions, reads and clears may come. A reserved page is
written down nowhere: it is only gone from the free pages or from the key that was evicted for it.

`pages_conserved` says which calls keep the pages together: a confirmation must not find its key there already,
and nobody may clear while pages are reserved. From any state that such calls lead to, any other call loses a
page or makes one of it two.
-/
import Mathlib.Data.List.Range
import SGLang.Lib.OrderedDict

namespace SGLang.MemCache.HF3FS

open SGLang.Lib List OrderedDict
open Relation (ReflTransGen)

variable {Key Client : Type}

structure RankMetadata (Key : Type) where
  numPages : ℕ
  freePages : List ℕ
  keyToIndex : OrderedDict Key ℕ

namespace RankMetadata

/-- `RankMetadata(num_pages)`. -/
def new (numPages : ℕ) : RankMetadata Key := ⟨numPages, List.range numPages, .empty⟩

/-- The pages of which the metadata knows. -/
def pages (m : RankMetadata Key) : List ℕ := m.freePages ++ m.keyToIndex.values

/-- A free page, or the page of the oldest key; `none` is the `KeyError` of an empty dictionary. -/
def takePage (m : RankMetadata Key) : Option (ℕ × RankMetadata Key) :=
  match m.freePages.getLast? with
  | some page => some (page, { m with freePages := m.freePages.dropLast })
  | none => m.keyToIndex.popFirst.map fun r => (r.1.2, { m with keyToIndex := r.2 })

/-- The second loop of `reserve_and_allocate_page_indices`: those keys get a page for which the first loop has
found none. -/
def allocatePages : List (Option ℕ) → RankMetadata Key → Option (List (Bool × ℕ) × RankMetadata Key)
  | [], m => some ([], m)
  | some page :: found, m => (allocatePages found m).map fun r => ((true, page) :: r.1, r.2)
  | none :: found, m => do
      let (page, m) ← m.takePage
      (allocatePages found m).map fun r => ((false, page) :: r.1, r.2)

/-- `if page_index not in self.free_pages: self.free_pages.append(page_index)`. -/
def freePage (m : RankMetadata Key) (page : ℕ) : RankMetadata Key :=
  if page ∈ m.freePages then m else { m with freePages := m.freePages ++ [page] }

def clearAll (m : RankMetadata Key) : RankMetadata Key :=
  { m with freePages := List.range m.numPages, keyToIndex := .empty }

variable [DecidableEq Key]

/-- `get_page_indices`; the first loop of `reserve_and_allocate_page_indices` does the same. -/
def getPageIndices : List Key → RankMetadata Key → List (Option ℕ) × RankMetadata Key
  | [], m => ([], m)
  | key :: keys, m =>
    let r := getPageIndices keys { m with keyToIndex := m.keyToIndex.moveToEnd key }
    (m.keyToIndex.get? key :: r.1, r.2)

def reserveAndAllocatePageIndices (keys : List Key) (m : RankMetadata Key) :
    Option (List (Bool × ℕ) × RankMetadata Key) :=
  let (found, m) := m.getPageIndices keys
  m.allocatePages found

variable (m : RankMetadata Key)

/-- The first loop of `confirm_write`. -/
def setKeys (written : List (Key × ℕ)) : RankMetadata Key :=
  written.foldl (fun m w => { m with keyToIndex := m.keyToIndex.setLast w.1 w.2 }) m

def confirmWrite (written : List (Key × ℕ)) (pagesToRelease : List ℕ) : RankMetadata Key :=
  pagesToRelease.foldl freePage (m.setKeys written)

/-- One key of `delete_keys`. -/
def deleteKey (key : Key) : RankMetadata Key :=
  match m.keyToIndex.get? key with
  | none => m
  | some page => ({ m with keyToIndex := m.keyToIndex.drop key } : RankMetadata Key).freePage page

def deleteKeys (keys : List Key) (m : RankMetadata Key) : RankMetadata Key := keys.foldl deleteKey m

end RankMetadata

open RankMetadata

/-! ## `_batch_set` -/

/-- The keys that are to be written, each with the page reserved for it. -/
def toWrite (keys : List Key) (indices : List (Bool × ℕ)) : List (Key × ℕ) :=
  (keys.zip indices).filterMap fun (key, isWritten, page) => if isWritten then none else some (key, page)

/-- `written_keys_to_confirm`, for a writer and what came of each write. -/
def writtenKeys (batch : List (Key × ℕ)) (writeResults : List Bool) : List (Key × ℕ) :=
  (batch.zip writeResults).filterMap fun (item, ok) => if ok then some item else none

/-- `pages_to_release`. -/
def failedPages (batch : List (Key × ℕ)) (writeResults : List Bool) : List ℕ :=
  (batch.zip writeResults).filterMap fun (item, ok) => if ok then none else some item.2

/-- The metadata, and what each client has reserved and not yet confirmed. -/
structure System (Key Client : Type) where
  metadata : RankMetadata Key
  reserved : OrderedDict Client (List (Key × ℕ))

/-- The atomic calls; a client calls `reserve` and then `confirm`. -/
inductive Event (Key Client : Type)
  | reserve (client : Client) (keys : List Key)
  | confirm (client : Client) (writeResults : List Bool)
  | deleteKeys (keys : List Key)
  | clearAll
  | getPageIndices (keys : List Key)

namespace System

def init (numPages : ℕ) : System Key Client := ⟨.new numPages, .empty⟩

def reservedPages (s : System Key Client) : List ℕ := s.reserved.values.flatMap fun batch => batch.map Prod.snd

/-- Each page is in exactly one place, and there once: among the free pages, with a key, or reserved by a
client. -/
def Conserved (s : System Key Client) : Prop :=
  (s.metadata.freePages ++ s.metadata.keyToIndex.values ++ s.reservedPages).Perm
    (List.range s.metadata.numPages)

variable [DecidableEq Key] [DecidableEq Client]

variable (s : System Key Client)

/-- One call; `none` if it raises. -/
def step : Event Key Client → Option (System Key Client)
  | .reserve client keys => do
      let (indices, m) ← s.metadata.reserveAndAllocatePageIndices keys
      return ⟨m, s.reserved.setLast client (toWrite keys indices)⟩
  | .confirm client writeResults => do
      let batch ← s.reserved.get? client
      return ⟨s.metadata.confirmWrite (writtenKeys batch writeResults) (failedPages batch writeResults),
        s.reserved.drop client⟩
  | .deleteKeys keys => some { s with metadata := s.metadata.deleteKeys keys }
  | .clearAll => some { s with metadata := s.metadata.clearAll }
  | .getPageIndices keys => some { s with metadata := (s.metadata.getPageIndices keys).2 }

/-- The clients keep to `_batch_set`: a client that has nothing reserved asks for distinct keys, and there are
pages enough for all reservations; a client that has reserved confirms, with a result for each write. -/
def Allowed : Event Key Client → Prop
  | .reserve client keys =>
    s.reserved.get? client = none ∧ keys.Nodup ∧
      s.reservedPages.length + keys.countP (fun key => s.metadata.keyToIndex.get? key = none) ≤
        s.metadata.numPages
  | .confirm client writeResults => ∃ batch, s.reserved.get? client = some batch ∧
      writeResults.length = batch.length
  | _ => True

/-- No key is confirmed that has a page already, and nobody clears while a page is reserved. -/
def Heeds : Event Key Client → Prop
  | .confirm client writeResults =>
    ∀ batch, s.reserved.get? client = some batch →
      ∀ w ∈ writtenKeys batch writeResults, s.metadata.keyToIndex.get? w.1 = none
  | .clearAll => s.reservedPages = []
  | _ => True

end System

/-! ## What each call does to the pages -/

namespace RankMetadata

variable {m m' : RankMetadata Key} {page : ℕ} {found : List (Option ℕ)}

theorem takePage_spec (h : m.takePage = some (page, m')) : m'.numPages = m.numPages ∧
    m.pages.Perm (page :: m'.pages) := by
  unfold takePage at h
  split at h
  · next last hlast =>
    cases h
    refine ⟨rfl, ?_⟩
    have hfree := dropLast_append_getLast? _ hlast
    show (m.freePages ++ m.keyToIndex.values).Perm (page :: (m.freePages.dropLast ++ m.keyToIndex.values))
    nth_rewrite 1 [← hfree]
    rw [append_assoc]
    exact perm_middle
  · next hnone =>
    obtain ⟨⟨item, d⟩, hpop, heq⟩ := Option.map_eq_some_iff.mp h
    cases heq
    refine ⟨rfl, ?_⟩
    show (m.freePages ++ m.keyToIndex.values).Perm (item.2 :: (m.freePages ++ d.values))
    rw [values_popFirst hpop]
    exact perm_middle

theorem exists_takePage (h : m.pages ≠ []) : ∃ page m', m.takePage = some (page, m') := by
  unfold takePage
  split
  · exact ⟨_, _, rfl⟩
  · next hnone =>
    rw [getLast?_eq_none_iff] at hnone
    have hvalues : m.keyToIndex.values ≠ [] := by simpa [pages, hnone] using h
    obtain ⟨item, d, hpop⟩ := exists_popFirst hvalues
    exact ⟨_, _, by rw [hpop]; rfl⟩

/-- The pages of the results that are not written yet. -/
def newPages (indices : List (Bool × ℕ)) : List ℕ := (indices.filter fun r => !r.1).map Prod.snd

theorem allocatePages_spec : ∀ {m m' : RankMetadata Key} {indices : List (Bool × ℕ)},
    m.allocatePages found = some (indices, m') →
      m'.numPages = m.numPages ∧ indices.length = found.length ∧
        m.pages.Perm (newPages indices ++ m'.pages) := by
  induction found with
  | nil =>
    intro m m' indices h
    cases h
    exact ⟨rfl, rfl, .refl _⟩
  | cons f found ih =>
    intro m m' indices h
    cases f with
    | some page =>
      obtain ⟨⟨rest, m₁⟩, hrest, heq⟩ := Option.map_eq_some_iff.mp h
      cases heq
      obtain ⟨hnum, hlen, hperm⟩ := ih hrest
      exact ⟨hnum, congrArg (· + 1) hlen, hperm⟩
    | none =>
      obtain ⟨⟨page, m₁⟩, htake, hmap⟩ := Option.bind_eq_some_iff.mp h
      obtain ⟨⟨rest, m₂⟩, hrest, heq⟩ := Option.map_eq_some_iff.mp hmap
      cases heq
      obtain ⟨hnum₁, hperm₁⟩ := takePage_spec htake
      obtain ⟨hnum₂, hlen, hperm₂⟩ := ih hrest
      exact ⟨hnum₂.trans hnum₁, congrArg (· + 1) hlen, hperm₁.trans (hperm₂.cons page)⟩

/-- There are pages enough, so none of the keys raises. -/
theorem exists_allocatePages : ∀ {m : RankMetadata Key},
    found.countP Option.isNone ≤ m.pages.length → ∃ indices m', m.allocatePages found = some (indices, m') := by
  induction found with
  | nil => exact fun _ => ⟨_, _, rfl⟩
  | cons f found ih =>
    intro m h
    cases f with
    | some page =>
      obtain ⟨indices, m', hrest⟩ := ih (m := m) (by simpa using h)
      exact ⟨_, _, by rw [allocatePages, hrest]; rfl⟩
    | none =>
      have hpos : m.pages ≠ [] := by
        rintro hnil
        rw [hnil] at h
        simp at h
      obtain ⟨page, m₁, htake⟩ := exists_takePage hpos
      have hlen := (takePage_spec htake).2.length_eq
      obtain ⟨indices, m', hrest⟩ := ih (m := m₁) (by
        rw [countP_cons_of_pos rfl] at h
        rw [length_cons] at hlen
        omega)
      exact ⟨_, _, by rw [allocatePages, htake]; exact congrArg (Option.map _) hrest⟩

/-- The page becomes free, and nothing else changes. -/
theorem freePage_of_notMem (h : page ∉ m.freePages) :
    m.freePage page = { m with freePages := m.freePages ++ [page] } := if_neg h

theorem freePage_fields (m : RankMetadata Key) (page : ℕ) :
    (m.freePage page).numPages = m.numPages ∧ (m.freePage page).keyToIndex = m.keyToIndex ∧
      (m.freePage page).freePages.length ≤ m.freePages.length + 1 := by
  unfold freePage
  split
  · exact ⟨rfl, rfl, Nat.le_succ _⟩
  · exact ⟨rfl, rfl, by simp⟩

theorem foldl_freePage_fields (pagesToRelease : List ℕ) : ∀ m : RankMetadata Key,
    (pagesToRelease.foldl freePage m).numPages = m.numPages ∧
      (pagesToRelease.foldl freePage m).keyToIndex = m.keyToIndex ∧
      (pagesToRelease.foldl freePage m).freePages.length ≤ m.freePages.length + pagesToRelease.length := by
  induction pagesToRelease with
  | nil => exact fun m => ⟨rfl, rfl, Nat.le_refl _⟩
  | cons page rest ih =>
    intro m
    obtain ⟨hnum, hkeys, hlen⟩ := ih (m.freePage page)
    obtain ⟨hnum₁, hkeys₁, hlen₁⟩ := m.freePage_fields page
    refine ⟨hnum.trans hnum₁, hkeys.trans hkeys₁, ?_⟩
    rw [foldl_cons, length_cons]
    omega

theorem foldl_freePage_freePages {pagesToRelease : List ℕ} (hnodup : pagesToRelease.Nodup) :
    ∀ {m : RankMetadata Key}, (∀ page ∈ pagesToRelease, page ∉ m.freePages) →
      (pagesToRelease.foldl freePage m).freePages = m.freePages ++ pagesToRelease := by
  induction pagesToRelease with
  | nil => simp
  | cons page rest ih =>
    intro m hfresh
    rcases nodup_cons.mp hnodup with ⟨hpage, hrest⟩
    rw [foldl_cons, freePage_of_notMem (hfresh page mem_cons_self), ih hrest]
    · simp
    · intro page' hpage' hmem
      rcases mem_append.mp hmem with hmem | hmem
      · exact hfresh page' (mem_cons_of_mem _ hpage') hmem
      · rw [mem_singleton] at hmem
        exact hpage (hmem ▸ hpage')

variable [DecidableEq Key]

theorem getPageIndices_spec (keys : List Key) : ∀ m : RankMetadata Key,
    (m.getPageIndices keys).1 = keys.map m.keyToIndex.get? ∧ (m.getPageIndices keys).2.numPages = m.numPages ∧
      (m.getPageIndices keys).2.pages.Perm m.pages := by
  induction keys with
  | nil => exact fun m => ⟨rfl, rfl, .refl _⟩
  | cons key keys ih =>
    intro m
    obtain ⟨hfound, hnum, hpages⟩ := ih { m with keyToIndex := m.keyToIndex.moveToEnd key }
    refine ⟨?_, hnum, hpages.trans ((m.keyToIndex.values_moveToEnd key).append_left _)⟩
    show m.keyToIndex.get? key :: _ = m.keyToIndex.get? key :: _
    rw [hfound]
    exact congrArg _ (map_congr_left fun k _ => get?_moveToEnd _ _ k)

theorem setKeys_fields (written : List (Key × ℕ)) : ∀ m : RankMetadata Key,
    (m.setKeys written).numPages = m.numPages ∧ (m.setKeys written).freePages = m.freePages := by
  induction written with
  | nil => exact fun m => ⟨rfl, rfl⟩
  | cons w written ih => exact fun m => ih _

/-- Keys that are new and distinct are added with their pages. -/
theorem values_setKeys {written : List (Key × ℕ)} (hnodup : (written.map Prod.fst).Nodup) :
    ∀ {m : RankMetadata Key}, (∀ w ∈ written, m.keyToIndex.get? w.1 = none) →
      (m.setKeys written).keyToIndex.values.Perm (written.map Prod.snd ++ m.keyToIndex.values) := by
  induction written with
  | nil => exact fun _ => .refl _
  | cons w written ih =>
    intro m hnew
    rw [map_cons, nodup_cons] at hnodup
    have hw := hnew w mem_cons_self
    have hrest := ih hnodup.2 (m := { m with keyToIndex := m.keyToIndex.setLast w.1 w.2 }) (by
      intro w' hw'
      have hne : w'.1 ≠ w.1 := fun h => hnodup.1 (mem_map.mpr ⟨w', hw', h⟩)
      rw [get?_setLast, if_neg hne]
      exact hnew w' (mem_cons_of_mem _ hw'))
    have hset := m.keyToIndex.values_setLast w.1 w.2
    rw [drop_of_get?_none hw] at hset
    refine hrest.trans ((hset.append_left _).trans ?_)
    exact perm_middle

/-- A key that has a page already loses it. -/
theorem length_values_setKeys (written : List (Key × ℕ)) : ∀ m : RankMetadata Key,
    (m.setKeys written).keyToIndex.values.length ≤ m.keyToIndex.values.length + written.length ∧
      ((∃ w ∈ written, m.keyToIndex.get? w.1 ≠ none) →
        (m.setKeys written).keyToIndex.values.length < m.keyToIndex.values.length + written.length) := by
  induction written with
  | nil => exact fun m => ⟨Nat.le_refl _, by simp⟩
  | cons w written ih =>
    intro m
    obtain ⟨hle, hlt⟩ := ih { m with keyToIndex := m.keyToIndex.setLast w.1 w.2 }
    have hset := (m.keyToIndex.values_setLast w.1 w.2).length_eq
    rw [length_cons] at hset
    cases hget : m.keyToIndex.get? w.1 with
    | some page =>
      have hdrop := (values_drop hget).length_eq
      rw [length_cons] at hdrop
      simp only [setKeys, foldl_cons, length_cons] at hle ⊢
      exact ⟨by omega, fun _ => by omega⟩
    | none =>
      rw [drop_of_get?_none hget] at hset
      simp only [setKeys, foldl_cons, length_cons] at hle hlt ⊢
      refine ⟨by omega, ?_⟩
      rintro ⟨w', hw', hold⟩
      rcases mem_cons.mp hw' with rfl | hmem
      · exact absurd hget hold
      · have := hlt ⟨w', hmem, by
          rw [get?_setLast]
          split
          · exact Option.some_ne_none _
          · exact hold⟩
        omega

theorem deleteKey_pages (hnodup : m.pages.Nodup) (key : Key) :
    (m.deleteKey key).numPages = m.numPages ∧ (m.deleteKey key).pages.Perm m.pages := by
  unfold deleteKey
  split
  · exact ⟨rfl, .refl _⟩
  · next page hget =>
    have hdrop := values_drop hget
    have hfresh : page ∉ m.freePages := by
      have hmem : page ∈ m.keyToIndex.values := hdrop.mem_iff.mpr mem_cons_self
      exact fun hfree => (nodup_append'.mp hnodup).2.2 hfree hmem
    rw [freePage_of_notMem (m := { m with keyToIndex := m.keyToIndex.drop key }) hfresh]
    refine ⟨rfl, ?_⟩
    show ((m.freePages ++ [page]) ++ (m.keyToIndex.drop key).values).Perm (m.freePages ++ m.keyToIndex.values)
    rw [append_assoc]
    exact hdrop.symm.append_left _

theorem deleteKeys_pages (keys : List Key) : ∀ {m : RankMetadata Key}, m.pages.Nodup →
    (m.deleteKeys keys).numPages = m.numPages ∧ (m.deleteKeys keys).pages.Perm m.pages := by
  induction keys with
  | nil => exact fun _ => ⟨rfl, .refl _⟩
  | cons key keys ih =>
    intro m hnodup
    obtain ⟨hnum, hperm⟩ := deleteKey_pages hnodup key
    obtain ⟨hnum', hperm'⟩ := ih (hperm.nodup_iff.mpr hnodup)
    exact ⟨hnum'.trans hnum, hperm'.trans hperm⟩

end RankMetadata

/-! ## Batches -/

theorem map_snd_toWrite {indices : List (Bool × ℕ)} : ∀ {keys : List Key}, indices.length = keys.length →
    (toWrite keys indices).map Prod.snd = newPages indices := by
  induction indices with
  | nil =>
    intro keys h
    rw [eq_nil_of_length_eq_zero h.symm]
    rfl
  | cons r indices ih =>
    intro keys h
    cases keys with
    | nil => cases h
    | cons key keys =>
      have hrest := ih (Nat.succ.inj h)
      obtain ⟨isWritten, page⟩ := r
      cases isWritten with
      | true => exact hrest
      | false => exact congrArg (page :: ·) hrest

theorem map_fst_toWrite_sublist (indices : List (Bool × ℕ)) : ∀ keys : List Key,
    ((toWrite keys indices).map Prod.fst).Sublist keys := by
  induction indices with
  | nil =>
    intro keys
    simp [toWrite]
  | cons r indices ih =>
    intro keys
    cases keys with
    | nil => exact .slnil
    | cons key keys =>
      obtain ⟨isWritten, page⟩ := r
      cases isWritten with
      | true => exact (ih keys).cons key
      | false => exact (ih keys).cons_cons key

/-- Every page of a batch is either confirmed or given back. -/
theorem batch_pages {writeResults : List Bool} :
    ∀ {batch : List (Key × ℕ)}, writeResults.length = batch.length →
    (batch.map Prod.snd).Perm ((writtenKeys batch writeResults).map Prod.snd ++
      failedPages batch writeResults) := by
  induction writeResults with
  | nil =>
    intro batch h
    rw [eq_nil_of_length_eq_zero h.symm]
    exact .nil
  | cons ok writeResults ih =>
    intro batch h
    cases batch with
    | nil => cases h
    | cons item batch =>
      have hrest := ih (Nat.succ.inj h)
      cases ok with
      | true => exact hrest.cons item.2
      | false => exact (hrest.cons item.2).trans perm_middle.symm

theorem writtenKeys_sublist (writeResults : List Bool) : ∀ batch : List (Key × ℕ),
    (writtenKeys batch writeResults).Sublist batch := by
  induction writeResults with
  | nil =>
    intro batch
    simp [writtenKeys]
  | cons ok writeResults ih =>
    intro batch
    cases batch with
    | nil => exact .slnil
    | cons item batch =>
      cases ok with
      | true => exact (ih batch).cons_cons item
      | false => exact (ih batch).cons item

/-! ## The system -/

namespace System

variable {s s' : System Key Client}

/-- The pages are all there, and the keys of a batch are distinct. -/
structure Inv (s : System Key Client) : Prop where
  conserved : s.Conserved
  distinct : ∀ batch ∈ s.reserved.values, (batch.map Prod.fst).Nodup

theorem conserved_iff : s.Conserved ↔
    (s.metadata.pages ++ s.reservedPages).Perm (range s.metadata.numPages) := .rfl

theorem Conserved.nodup (h : s.Conserved) : (s.metadata.pages ++ s.reservedPages).Nodup :=
  h.nodup_iff.mpr nodup_range

theorem Conserved.length (h : s.Conserved) :
    s.metadata.freePages.length + s.metadata.keyToIndex.values.length + s.reservedPages.length =
      s.metadata.numPages := by
  have hlen := h.length_eq
  rw [length_append, length_append, length_range] at hlen
  exact hlen

theorem inv_init (numPages : ℕ) : (init numPages : System Key Client).Inv := by
  refine ⟨?_, ?_⟩
  · show (range numPages ++ [] ++ []).Perm (range numPages)
    rw [append_nil, append_nil]
  · intro batch hmem
    cases hmem

/-- Only the pages of which the metadata knows were moved around. -/
theorem Inv.of_pages {m : RankMetadata Key} (h : s.Inv) (hnum : m.numPages = s.metadata.numPages)
    (hpages : m.pages.Perm s.metadata.pages) : ({ s with metadata := m } : System Key Client).Inv := by
  refine ⟨?_, h.distinct⟩
  rw [conserved_iff]
  rw [hnum]
  exact (hpages.append_right _).trans h.conserved

variable [DecidableEq Client] {batch : List (Key × ℕ)} {client : Client} {writeResults : List Bool}

theorem reservedPages_setLast {m : RankMetadata Key} (h : s.reserved.get? client = none) :
    (System.mk m (s.reserved.setLast client batch)).reservedPages.Perm (batch.map Prod.snd ++
      s.reservedPages) := by
  have hvalues := s.reserved.values_setLast client batch
  rw [drop_of_get?_none h] at hvalues
  exact hvalues.flatMap_right _

variable [DecidableEq Key]

/-- The state after the client has confirmed its batch. -/
def confirmed (s : System Key Client) (client : Client) (batch : List (Key × ℕ)) (writeResults : List Bool) :
    System Key Client :=
  ⟨s.metadata.confirmWrite (writtenKeys batch writeResults) (failedPages batch writeResults),
    s.reserved.drop client⟩

variable (writeResults) in
theorem reservedPages_confirmed (h : s.reserved.get? client = some batch) :
    s.reservedPages.Perm (batch.map Prod.snd ++ (s.confirmed client batch writeResults).reservedPages) :=
  (values_drop h).flatMap_right _

/-- A reservation within the limit raises nothing, and moves pages from the metadata to the client. -/
theorem Inv.reserve {keys : List Key} (h : s.Inv) (hallowed : s.Allowed (.reserve client keys)) :
    ∃ s', s.step (.reserve client keys) = some s' ∧ s'.Inv := by
  obtain ⟨hfree, hnodup, hroom⟩ := hallowed
  obtain ⟨hfound, hnum₁, hpages₁⟩ := s.metadata.getPageIndices_spec keys
  have henough : (s.metadata.getPageIndices keys).1.countP Option.isNone ≤
      (s.metadata.getPageIndices keys).2.pages.length := by
    have hlen := h.conserved.length
    rw [hpages₁.length_eq, hfound, countP_map]
    have hcount : keys.countP (Option.isNone ∘ s.metadata.keyToIndex.get?) =
        keys.countP (fun key => s.metadata.keyToIndex.get? key = none) := by
      refine countP_congr fun key _ => ?_
      simp
    rw [hcount, RankMetadata.pages, length_append]
    omega
  obtain ⟨indices, m, hallocate⟩ := exists_allocatePages henough
  obtain ⟨hnum₂, hlen, hpages₂⟩ := allocatePages_spec hallocate
  rw [hfound, length_map] at hlen
  have hreserve : s.metadata.reserveAndAllocatePageIndices keys = some (indices, m) := hallocate
  refine ⟨⟨m, s.reserved.setLast client (toWrite keys indices)⟩, ?_, ?_, ?_⟩
  · show (s.metadata.reserveAndAllocatePageIndices keys).bind _ = _
    rw [hreserve]
    rfl
  · rw [conserved_iff]
    rw [hnum₂.trans hnum₁]
    refine .trans ?_ h.conserved
    calc (m.pages ++ (System.mk m (s.reserved.setLast client (toWrite keys indices))).reservedPages)
        |>.Perm (m.pages ++ ((toWrite keys indices).map Prod.snd ++ s.reservedPages)) :=
          (reservedPages_setLast hfree).append_left _
      _ |>.Perm ((newPages indices ++ m.pages) ++ s.reservedPages) := by
          rw [map_snd_toWrite hlen, ← append_assoc]
          exact perm_append_comm.append_right _
      _ |>.Perm (s.metadata.pages ++ s.reservedPages) := (hpages₂.symm.trans hpages₁).append_right _
  · intro batch hmem
    have hvalues := s.reserved.values_setLast client (toWrite keys indices)
    rw [drop_of_get?_none hfree] at hvalues
    rcases mem_cons.mp (hvalues.mem_iff.mp hmem) with rfl | hmem
    · exact hnodup.sublist (map_fst_toWrite_sublist indices keys)
    · exact h.distinct batch hmem

/-- A confirmation of keys that have no page adds them, and the pages that were not written become free. -/
theorem Inv.confirm (h : s.Inv) (hbatch : s.reserved.get? client = some batch)
    (hlen : writeResults.length = batch.length)
    (hnew : ∀ w ∈ writtenKeys batch writeResults, s.metadata.keyToIndex.get? w.1 = none) :
    (s.confirmed client batch writeResults).Inv := by
  have hvalues := values_drop hbatch
  have hdistinct := h.distinct batch (hvalues.mem_iff.mpr mem_cons_self)
  have hkeys := values_setKeys (((writtenKeys_sublist writeResults batch).map Prod.fst).nodup hdistinct) hnew
  have hpages := batch_pages hlen
  have hreserved := reservedPages_confirmed writeResults hbatch
  obtain ⟨hnum₁, hfree₁⟩ := s.metadata.setKeys_fields (writtenKeys batch writeResults)
  obtain ⟨hnum₂, hkeys₂, -⟩ := foldl_freePage_fields (failedPages batch writeResults)
    (s.metadata.setKeys (writtenKeys batch writeResults))
  -- the pages that are given back are reserved, so they are distinct and none of them is free
  have hnodup := ((hreserved.trans (hpages.append_right _)).append_left s.metadata.pages).nodup_iff.mp
    h.conserved.nodup
  simp only [RankMetadata.pages, append_assoc, nodup_append', disjoint_append_right] at hnodup
  have hfailed : (failedPages batch writeResults).Nodup := by tauto
  have hfresh : ∀ page ∈ failedPages batch writeResults,
      page ∉ (s.metadata.setKeys (writtenKeys batch writeResults)).freePages := by
    intro page hpage hmem
    rw [hfree₁] at hmem
    have hdisjoint : s.metadata.freePages.Disjoint (failedPages batch writeResults) := by tauto
    exact hdisjoint hmem hpage
  have hfree₂ := foldl_freePage_freePages hfailed hfresh
  refine ⟨?_, fun b hmem => h.distinct b (hvalues.mem_iff.mpr (mem_cons_of_mem _ hmem))⟩
  unfold Conserved confirmed confirmWrite at *
  rw [hfree₂, hkeys₂, hfree₁, hnum₂, hnum₁]
  refine .trans ?_ h.conserved
  rw [perm_iff_count] at hkeys hpages hreserved ⊢
  intro page
  have h₁ := hkeys page
  have h₂ := hpages page
  have h₃ := hreserved page
  simp only [count_append] at h₁ h₂ h₃ ⊢
  omega

/-- A confirmation of a key that has a page loses that page. -/
theorem Inv.not_conserved_confirm (h : s.Inv) (hbatch : s.reserved.get? client = some batch)
    (hlen : writeResults.length = batch.length)
    (hold : ∃ w ∈ writtenKeys batch writeResults, s.metadata.keyToIndex.get? w.1 ≠ none) :
    ¬ (s.confirmed client batch writeResults).Conserved := by
  intro hcons
  have hsum := h.conserved.length
  have hsum' := hcons.length
  have hvalues := (s.metadata.length_values_setKeys (writtenKeys batch writeResults)).2 hold
  have hpages := (batch_pages hlen).length_eq
  have hreserved := (reservedPages_confirmed writeResults hbatch).length_eq
  obtain ⟨hnum₁, hfree₁⟩ := s.metadata.setKeys_fields (writtenKeys batch writeResults)
  obtain ⟨hnum₂, hkeys₂, hfree₂⟩ := foldl_freePage_fields (failedPages batch writeResults)
    (s.metadata.setKeys (writtenKeys batch writeResults))
  unfold confirmed confirmWrite at hsum' hreserved
  dsimp only at hsum' hreserved
  rw [hkeys₂, hnum₂, hnum₁] at hsum'
  rw [hfree₁] at hfree₂
  simp only [length_append, length_map] at hpages hreserved
  omega

/-- What a call does to a state with all its pages: it raises nothing, and it keeps the pages exactly if it
heeds the others. -/
theorem Inv.step (h : s.Inv) {e : Event Key Client} (hallowed : s.Allowed e) :
    ∃ s', s.step e = some s' ∧ (s.Heeds e → s'.Inv) ∧ (s'.Conserved → s.Heeds e) := by
  cases e with
  | reserve client keys =>
    obtain ⟨s', hstep, hinv⟩ := h.reserve hallowed
    exact ⟨s', hstep, fun _ => hinv, fun _ => trivial⟩
  | confirm client writeResults =>
    obtain ⟨batch, hbatch, hlen⟩ := hallowed
    refine ⟨_, by rw [System.step, hbatch]; rfl, fun hheeds => h.confirm hbatch hlen (hheeds batch hbatch), ?_⟩
    intro hcons batch' hbatch' w hw
    cases hbatch.symm.trans hbatch'
    by_contra hold
    exact h.not_conserved_confirm hbatch hlen ⟨w, hw, hold⟩ hcons
  | deleteKeys keys =>
    have hnodup := h.conserved.nodup.sublist (sublist_append_left _ _)
    obtain ⟨hnum, hpages⟩ := deleteKeys_pages keys hnodup
    exact ⟨_, rfl, fun _ => h.of_pages hnum hpages, fun _ => trivial⟩
  | clearAll =>
    refine ⟨_, rfl, fun hnone => ⟨?_, h.distinct⟩, fun hcons => ?_⟩
    · show (range s.metadata.numPages ++ [] ++ s.reservedPages).Perm (range s.metadata.numPages)
      rw [hnone, append_nil, append_nil]
    · have hlen : (range s.metadata.numPages).length + 0 + s.reservedPages.length = s.metadata.numPages :=
        hcons.length
      rw [length_range] at hlen
      exact eq_nil_of_length_eq_zero (by omega)
  | getPageIndices keys =>
    obtain ⟨-, hnum, hpages⟩ := s.metadata.getPageIndices_spec keys
    exact ⟨_, rfl, fun _ => h.of_pages hnum hpages, fun _ => trivial⟩

/-- A call that the protocol allows. -/
def Step (s s' : System Key Client) : Prop := ∃ e, s.Allowed e ∧ s.step e = some s'

/-- A call that the protocol allows and that heeds the others. -/
def HeedingStep (s s' : System Key Client) : Prop := ∃ e, s.Allowed e ∧ s.Heeds e ∧ s.step e = some s'

theorem run_inv {numPages : ℕ} (hrun : ReflTransGen HeedingStep (init numPages) s) : s.Inv := by
  induction hrun with
  | refl => exact inv_init numPages
  | tail _ hlast ih =>
    obtain ⟨e, hallowed, hheeds, hstep⟩ := hlast
    obtain ⟨s', hstep', hkeep, -⟩ := ih.step hallowed
    cases hstep.symm.trans hstep'
    exact hkeep hheeds

/-- **No page is lost and none is shared.** However many clients reserve, write and confirm, and whatever is
deleted, read and cleared in between: in a run of calls that heed each other every page is in one place, no call
raises, and the next call keeps it so if and only if it heeds the others. -/
theorem pages_conserved {numPages : ℕ} (hrun : ReflTransGen HeedingStep (init numPages) s) :
    s.Conserved ∧ ∀ e, s.Allowed e → ∃ s', s.step e = some s' ∧ (s'.Conserved ↔ s.Heeds e) := by
  have hinv := run_inv hrun
  refine ⟨hinv.conserved, fun e hallowed => ?_⟩
  obtain ⟨s', hstep, hkeep, hheeds⟩ := hinv.step hallowed
  exact ⟨s', hstep, hheeds, fun h => (hkeep h).conserved⟩

/-- Client 0 reserves two pages and writes one of them. -/
theorem pages_conserved_one_written :
    ∃ s : System ℕ ℕ, ReflTransGen HeedingStep (init 2) s ∧ s.metadata.freePages = [0] ∧
      s.metadata.keyToIndex.items = [(7, 1)] ∧ s.Conserved ∧
      ∀ e, s.Allowed e → ∃ s', s.step e = some s' ∧ (s'.Conserved ↔ s.Heeds e) := by
  have hrun : ReflTransGen HeedingStep (init 2 : System ℕ ℕ) _ :=
    .tail (.single ⟨.reserve 0 [7, 8], ⟨rfl, by decide, by decide⟩, trivial, rfl⟩)
      ⟨.confirm 0 [true, false], ⟨_, rfl, rfl⟩, by rintro _ ⟨⟩; decide, rfl⟩
  exact ⟨_, hrun, rfl, rfl, pages_conserved hrun⟩

/-- Two clients write the same key: the first one's page is lost, and later a reservation within the limit
raises. A client confirms after a clear: its page is free and in use, and soon two keys have it. -/
theorem page_lost_and_page_shared :
    (∃ s : System ℕ ℕ, ReflTransGen Step (init 2) s ∧ s.metadata.freePages = [] ∧
      s.metadata.keyToIndex.items = [(7, 0)] ∧ s.reservedPages = [] ∧ ¬ s.Conserved ∧
      s.Allowed (.reserve 0 [8, 9]) ∧ s.step (.reserve 0 [8, 9]) = none) ∧
    (∃ s : System ℕ ℕ, ReflTransGen Step (init 2) s ∧
      s.metadata.keyToIndex.items = [(7, 1), (8, 1)] ∧ ¬ s.Conserved) := by
  refine ⟨⟨_, .tail (.tail (.tail (.single ⟨.reserve 0 [7], ⟨rfl, by decide, by decide⟩, rfl⟩)
    ⟨.reserve 1 [7], ⟨rfl, by decide, by decide⟩, rfl⟩) ⟨.confirm 0 [true], ⟨_, rfl, rfl⟩, rfl⟩)
    ⟨.confirm 1 [true], ⟨_, rfl, rfl⟩, rfl⟩, rfl, rfl, rfl, ?_, ⟨rfl, by decide, by decide⟩, rfl⟩, ?_⟩
  · intro hcons
    cases hcons.length
  · refine ⟨_, .tail (.tail (.tail (.tail (.single ⟨.reserve 0 [7], ⟨rfl, by decide, by decide⟩, rfl⟩)
      ⟨.clearAll, trivial, rfl⟩) ⟨.confirm 0 [true], ⟨_, rfl, rfl⟩, rfl⟩)
      ⟨.reserve 1 [8], ⟨rfl, by decide, by decide⟩, rfl⟩) ⟨.confirm 1 [true], ⟨_, rfl, rfl⟩, rfl⟩, rfl, ?_⟩
    intro hcons
    cases hcons.length

end System

end SGLang.MemCache.HF3FS
