/-
# SGLang.Lib.HashChain — hashes of pages, each chained to the page before it.

A list of units is cut into pages, and every page is hashed together with the hash of the page before
it, so that the hash of a page stands for all units up to its end. The hash function is a parameter.
Everything rests on two facts: pages of a concatenation are the pages of its parts when the first part
ends at a page boundary, and a chain can be computed piece by piece if the last hash is handed on.
-/
import SGLang.Lib.Paging

namespace SGLang.Lib

open List

variable {υ D : Type} {ps k : ℕ} {us vs : List υ}

/-! ## Pages -/

/-- The pages of a list; the last one may be short. -/
def pages (ps : ℕ) (us : List υ) : List (List υ) :=
  (List.range (pageCount ps us.length)).map fun q => (us.drop (q * ps)).take ps

@[simp] theorem length_pages : (pages ps us).length = pageCount ps us.length := by
  simp [pages]

@[simp] theorem pages_nil (hps : 0 < ps) : pages ps ([] : List υ) = [] := by
  simp [pages, hps]

/-- Pages of a concatenation at a page boundary. -/
theorem pages_append (hps : 0 < ps) (hd : ps ∣ us.length) :
    pages ps (us ++ vs) = pages ps us ++ pages ps vs := by
  rcases hd with ⟨k, hk⟩
  have hcount : pageCount ps (us ++ vs).length = pageCount ps us.length + pageCount ps vs.length := by
    rw [length_append, hk, Nat.mul_comm ps k, pageCount_mul hps, Nat.add_comm,
      pageCount_add_mul hps, Nat.add_comm]
  have hus : pageCount ps us.length = k := by rw [hk, Nat.mul_comm ps k, pageCount_mul hps]
  unfold pages
  rw [hcount, range_add, map_append]
  congr 1
  · refine map_congr_left fun q hq => ?_
    -- a page of the first part lies within it
    have hle : (q + 1) * ps ≤ us.length := by
      rw [hk, Nat.mul_comm ps k]
      rw [hus, mem_range] at hq
      exact Nat.mul_le_mul_right ps hq
    rw [Nat.add_mul, Nat.one_mul] at hle
    rw [drop_append_of_le_length (by omega), take_append_of_le_length]
    rw [length_drop]
    omega
  · rw [map_map]
    refine map_congr_left fun q _ => ?_
    have hle : us.length ≤ (pageCount ps us.length + q) * ps := by
      rw [hus, hk, Nat.add_mul, Nat.mul_comm ps k]
      omega
    have hsub : (pageCount ps us.length + q) * ps - us.length = q * ps := by
      rw [hus, hk, Nat.add_mul, Nat.mul_comm ps k]
      omega
    rw [Function.comp_apply, drop_append, drop_of_length_le hle, nil_append, hsub]

/-- Pages are cut where the list is cut at a page boundary. -/
theorem pages_split (hps : 0 < ps) (hk : k * ps ≤ us.length) :
    pages ps us = pages ps (us.take (k * ps)) ++ pages ps (us.drop (k * ps)) ∧
      (pages ps (us.take (k * ps))).length = k := by
  have hlen : (us.take (k * ps)).length = k * ps := by
    rw [length_take]
    omega
  have hd : ps ∣ (us.take (k * ps)).length := by
    rw [hlen]
    exact Nat.dvd_mul_left ps k
  constructor
  · rw [← pages_append hps hd, take_append_drop]
  · rw [length_pages, hlen, pageCount_mul hps]

theorem pages_take (hps : 0 < ps) (hk : k * ps ≤ us.length) :
    pages ps (us.take (k * ps)) = (pages ps us).take k := by
  rcases pages_split hps hk with ⟨heq, hlen⟩
  rw [heq, take_left' hlen]

theorem pages_drop (hps : 0 < ps) (hk : k * ps ≤ us.length) :
    pages ps (us.drop (k * ps)) = (pages ps us).drop k := by
  rcases pages_split hps hk with ⟨heq, hlen⟩
  rw [heq, drop_left' hlen]

theorem pages_of_le (hpos : us ≠ []) (hle : us.length ≤ ps) : pages ps us = [us] := by
  have hlen : 0 < us.length := length_pos_of_ne_nil hpos
  have hcount : pageCount ps us.length = 1 := by
    unfold pageCount
    rw [Nat.div_eq_of_lt_le] <;> omega
  rw [pages, hcount]
  simp [take_of_length_le hle]

/-- A page of whole pages has full length, and the pages before it are those of the units before it. -/
theorem pages_middle {P Q : List (List υ)} {page : List υ} (hps : 0 < ps) (hd : ps ∣ us.length)
    (h : pages ps us = P ++ page :: Q) : ∃ before after, us = before ++ page ++ after ∧
      P = pages ps before ∧ ps ∣ before.length ∧ page.length = ps := by
  have hlen : P.length < pageCount ps us.length := by
    rw [← length_pages, h, length_append, length_cons]
    omega
  have hlt := (lt_pageCount_iff hps).mp hlen
  have hfit : P.length * ps + ps ≤ us.length := by
    have hdvd : ps ∣ us.length - P.length * ps := Nat.dvd_sub hd (Nat.dvd_mul_left _ _)
    have hle := Nat.le_of_dvd (by omega) hdvd
    omega
  have hpage : (us.drop (P.length * ps)).take ps = page := by
    have hget : (pages ps us)[P.length]? = some page := by
      rw [h, getElem?_append_right le_rfl, Nat.sub_self, getElem?_cons_zero]
    rw [pages, getElem?_map, getElem?_range hlen] at hget
    exact Option.some.inj hget
  refine ⟨us.take (P.length * ps), us.drop (P.length * ps + ps), ?_, ?_, ?_, ?_⟩
  · rw [← hpage, append_assoc, ← drop_drop, take_append_drop, take_append_drop]
  · rw [pages_take hps hlt.le, h, take_left]
  · rw [length_take, Nat.min_eq_left hlt.le]
    exact Nat.dvd_mul_left _ _
  · rw [← hpage, length_take, length_drop]
    omega

/-! ## Chains -/

/-- Hash every page after the one before it. -/
def chain (hash : Option D → List υ → D) : Option D → List (List υ) → List D
  | _, [] => []
  | prior, page :: rest => hash prior page :: chain hash (some (hash prior page)) rest

variable {hash : Option D → List υ → D} {prior : Option D} {P Q : List (List υ)}

@[simp] theorem chain_nil : chain hash prior [] = [] := rfl

@[simp] theorem length_chain : (chain hash prior P).length = P.length := by
  induction P generalizing prior with
  | nil => rfl
  | cons page P ih => rw [chain, length_cons, length_cons, ih]

/-- The hash the page after `P` is chained to. -/
def lastHash (hash : Option D → List υ → D) (prior : Option D) (P : List (List υ)) : Option D :=
  (chain hash prior P).getLast?.or prior

@[simp] theorem lastHash_nil : lastHash hash prior [] = prior := by
  simp [lastHash]

theorem lastHash_cons {page : List υ} :
    lastHash hash prior (page :: P) = lastHash hash (some (hash prior page)) P := by
  unfold lastHash
  rw [chain]
  cases hP : chain hash (some (hash prior page)) P with
  | nil => rfl
  | cons d ds => rw [getLast?_cons_cons]; simp [getLast?_cons]

/-- A chain is computed piece by piece. -/
theorem chain_append :
    chain hash prior (P ++ Q) = chain hash prior P ++ chain hash (lastHash hash prior P) Q := by
  induction P generalizing prior with
  | nil => simp
  | cons page P ih => rw [cons_append, chain, chain, ih, lastHash_cons, cons_append]

theorem lastHash_append : lastHash hash prior (P ++ Q) = lastHash hash (lastHash hash prior P) Q := by
  induction P generalizing prior with
  | nil => simp
  | cons page P ih => rw [cons_append, lastHash_cons, lastHash_cons, ih]

theorem chain_take : (chain hash prior P).take k = chain hash prior (P.take k) := by
  induction P generalizing prior k with
  | nil => rw [take_nil, chain_nil, take_nil]
  | cons page P ih =>
    cases k with
    | zero => rfl
    | succ k => rw [chain, take_succ_cons, take_succ_cons, ih, chain]

theorem chain_drop : (chain hash prior P).drop k = chain hash (lastHash hash prior (P.take k)) (P.drop k) := by
  induction P generalizing prior k with
  | nil => rw [drop_nil, chain_nil, drop_nil, chain_nil]
  | cons page P ih =>
    cases k with
    | zero => rw [take_zero, lastHash_nil, drop_zero, drop_zero]
    | succ k => rw [chain, drop_succ_cons, ih, take_succ_cons, lastHash_cons, drop_succ_cons]

/-! ## The hashes of a list of units -/

/-- The hashes of the pages of a list, chained from its start. -/
def pageHashes (hash : Option D → List υ → D) (ps : ℕ) (us : List υ) : List D :=
  chain hash none (pages ps us)

@[simp] theorem pageHashes_nil (hps : 0 < ps) : pageHashes hash ps ([] : List υ) = [] := by
  simp [pageHashes, hps]

theorem lastHash_pages : lastHash hash none (pages ps us) = (pageHashes hash ps us).getLast? := by
  simp [lastHash, pageHashes]

theorem pageHashes_append (hps : 0 < ps) (hd : ps ∣ us.length) : pageHashes hash ps (us ++ vs) =
      pageHashes hash ps us ++ chain hash (pageHashes hash ps us).getLast? (pages ps vs) := by
  rw [pageHashes, pages_append hps hd, chain_append, lastHash_pages, pageHashes]

end SGLang.Lib
