/-
# SGLang.MemCache.StorageKeys — the writer and the reader of the storage name a page alike.

The tree keeps the keys of its pages in the nodes: computed node by node on insertion, cut along with the
node when it splits. `_storage_hit_query` computes them anew, batch by batch, from the tokens of a prompt and
the key of the page before them. After any history of the tree both are the same list
(`storage_keys_agree`), whatever the nodes are: each is the chain of hashes of the pages of the tokens, which
forgets how they were cut.
-/
import SGLang.MemCache.RadixCacheEventBooks

namespace SGLang.MemCache

open SGLang.Lib SGLang.Lib.PageTree RadixKey EventCache List

section Chains

variable {sha256 : List UInt8 → Digest} {ps : ℕ} {prior : Option Digest}
  {us vs : List (Option String × Tok)} {P Q : List (List (Option String × Tok))}

theorem chain_pageHash_congr (h : P.map (map Prod.snd) = Q.map (map Prod.snd)) :
    chain (pageHash sha256) prior P = chain (pageHash sha256) prior Q := by
  have hhash : ∀ {prior} {us vs : List (Option String × Tok)}, us.map Prod.snd = vs.map Prod.snd →
      pageHash sha256 prior us = pageHash sha256 prior vs := by
    intro prior us vs heq
    have hflat : ∀ us : List (Option String × Tok),
        (us.flatMap fun u => tokBytes u.2) = (us.map Prod.snd).flatMap tokBytes := fun us => by
      rw [flatMap_map]
    rw [pageHash, pageHash, hflat, hflat, heq]
  induction P generalizing prior Q with
  | nil => rw [map_eq_nil_iff.mp h.symm]
  | cons page P ih =>
    obtain ⟨page', Q, rfl, hpage, hrest⟩ := map_eq_cons_iff.mp h.symm
    rw [chain, chain, hhash hpage.symm, ih hrest.symm]

theorem pages_map {α β : Type} (f : α → β) (us : List α) : pages ps (us.map f) = (pages ps us).map (map f) := by
  simp [pages, map_drop, map_take]

/-- The salt of a key does not enter the hashes. -/
theorem chain_pages_congr (h : us.map Prod.snd = vs.map Prod.snd) :
    chain (pageHash sha256) prior (pages ps us) = chain (pageHash sha256) prior (pages ps vs) := by
  apply chain_pageHash_congr
  rw [← pages_map, ← pages_map, h]

end Chains

/-- The keys under which the pages along a path are written. -/
def writtenKeys (t : EventTree) (l : List ℕ) : List Digest := t.along (PageTree.hashes EventNode.hashValue) l

variable {sha256 : List UInt8 → Digest} {cfg : EventConfig} {s : Session}

/-- **Writer and reader agree.** After any operations with hashed nodes, for every path of the tree: a query
for its tokens from page `q` on, with the key of the page before them, asks for the keys of these pages in
order, and for all of them if the backend has them. -/
theorem storage_keys_agree (hps : 0 < cfg.pageSize) (hen : cfg.enableKvCacheEvents = true)
    (h : Reachable sha256 cfg s) {n : ℕ} {l : List ℕ} (hl : s.cache.tree.Path n l) {q : ℕ} {k : RadixKey}
    (hq : q * cfg.pageSize ≤ (s.cache.tree.labels l).length)
    (hk : k.toks = ((s.cache.tree.labels l).map Prod.snd).drop (q * cfg.pageSize)) {batch : ℕ}
    (hbatch : 0 < batch) (batchExists : List Digest → Option (List Digest) → ℕ)
    (prefixKeys : Option (List Digest)) :
    let written := writtenKeys s.cache.tree l
    let r := storageHitQuery sha256 batchExists cfg.pageSize batch k (written.take q).getLast? prefixKeys
    r.asked.flatten <+: written.drop q ∧ ((∀ hs keys, hs ⊆ written.drop q → batchExists hs keys = hs.length) →
        r.asked.flatten = written.drop q ∧ r.hashValue = written.drop q ∧
        r.storageQueryCount = (written.drop q).length * cfg.pageSize) := by
  have haud : Announced sha256 cfg.pageSize _ s.cache.tree s.events := h.audited hps hen
  have hwritten : writtenKeys s.cache.tree l =
      pageHashes (pageHash sha256) cfg.pageSize (s.cache.tree.labels l) :=
    haud.chained.along_eq haud.wf hl fun x hx xd hxd => haud.hashed x xd hxd (hl.node_of_mem hx).1
  have hlast : ((writtenKeys s.cache.tree l).take q).getLast? =
      lastHash (pageHash sha256) none ((pages cfg.pageSize (s.cache.tree.labels l)).take q) := by
    rw [hwritten, pageHashes, chain_take, lastHash, Option.or_none]
  have hunits : k.units.map Prod.snd = ((s.cache.tree.labels l).drop (q * cfg.pageSize)).map Prod.snd := by
    rw [units, map_map, map_drop, ← hk]
    simp [Function.comp_def]
  have hdrop : (writtenKeys s.cache.tree l).drop q = chain (pageHash sha256)
      ((writtenKeys s.cache.tree l).take q).getLast? (pages cfg.pageSize k.units) := by
    rw [hlast, chain_pages_congr hunits, pages_drop hps hq, ← chain_drop, hwritten, pageHashes]
  dsimp only
  rw [hdrop]
  exact storageHitQuery_spec hps hbatch

/-- The node of a prompt of two pages is split by another prompt; a query for its second page finds the key
that the lower half kept. -/
theorem storage_keys_agree_second_page : ∃ s : Session, Reachable List.reverse pairEvents s ∧
    s.cache.tree.Path 1 [2, 1] ∧ (storageHitQuery List.reverse (fun hs _ => hs.length) 2 8 ⟨[3, 4], none, false⟩
      ((writtenKeys s.cache.tree [2, 1]).take 1).getLast? none).hashValue =
        (writtenKeys s.cache.tree [2, 1]).drop 1 := by
  have hstep : RadixCache.Call (recorder reverse pairEvents) RadixCache.pairConfig
      ⟨init pairEvents 0, [], []⟩ _ :=
    .insert (by decide) (rfl : RadixCache.insert _ 1 (init pairEvents 0) RadixCache.firstPrompt _ = .ok (_, _))
  have hrun := (Relation.ReflTransGen.single (.call hstep : Step reverse pairEvents ⟨_, []⟩ _)).tail
    (.call (.insert (by decide) (rfl : RadixCache.insert _ 2 _ RadixCache.secondPrompt _ = .ok (_, _))))
  have hpath : ∀ (t : EventTree) (lower upper : Node RadixKey ChildKey EventNode), t.nodes 1 = some lower →
      lower.parent = 2 → t.nodes 2 = some upper → upper.parent = t.root → t.root = 0 → t.Path 1 [2, 1] := by
    intro t lower upper hlower hlp hupper hup hroot
    have hroot' : t.Path upper.parent [] := hup ▸ .root
    have hupper' : t.Path lower.parent [2] := hlp ▸ .snoc hupper (by omega) hroot'
    exact .snoc hlower (by omega) hupper'
  refine ⟨_, ⟨0, hrun⟩, hpath _ _ _ rfl rfl rfl rfl rfl, ?_⟩
  exact ((@storage_keys_agree _ _ _ (by decide) rfl ⟨0, hrun⟩ 1 [2, 1] (hpath _ _ _ rfl rfl rfl rfl rfl) 1
    ⟨[3, 4], none, false⟩ (by decide) (by decide) 8 (by decide) _ _).2 fun _ _ _ => rfl).2.1

end SGLang.MemCache
