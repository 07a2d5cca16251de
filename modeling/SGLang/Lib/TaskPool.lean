/-
# SGLang.Lib.TaskPool — coroutines that share a state and sleep on conditions.

A pool is a shared state and a list of coroutines, each at some phase of its program. A scheduler picks
any coroutine that is awake and lets it run to its next await, which replaces its phase in place; new
coroutines join at the end. A coroutine may go to sleep on a condition, and a step may notify one, which
wakes every coroutine asleep on it. What a coroutine's next step depends on besides the shared state (which
part of a gather runs, what time it is) is a choice that the scheduler passes.

What is said about all coroutines is said about the multiset of their phases (`crew`): a step takes one phase
out of it and puts one in (`crew_resume`).
-/
import Mathlib.Data.Multiset.AddSub

namespace SGLang.Lib

open List

/-- A coroutine: where it is in its program and, when it is asleep, on which condition. -/
structure Task (Φ C : Type) where
  phase : Φ
  asleep : Option C
  deriving DecidableEq

/-- What running a coroutine to its next await does. -/
structure Outcome (σ Φ C : Type) where
  shared : σ
  phase : Φ
  sleepOn : Option C := none
  notify : Option C := none

structure Pool (σ Φ C : Type) where
  shared : σ
  tasks : List (Task Φ C)

namespace Pool

variable {σ Φ C : Type} {s : Pool σ Φ C} {i : ℕ} {t : Task Φ C}

/-- The phases of the coroutines, in the order in which these joined. -/
def phases (s : Pool σ Φ C) : List Φ := s.tasks.map Task.phase

/-- The phases of the coroutines, without their order. -/
def crew (s : Pool σ Φ C) : Multiset Φ := s.phases

@[simp] theorem mem_crew {φ : Φ} : φ ∈ s.crew ↔ φ ∈ s.phases := Iff.rfl

theorem mem_phases (h : s.tasks[i]? = some t) : t.phase ∈ s.phases :=
  mem_map_of_mem (mem_of_getElem? h)

/-- The pool after a coroutine joined. -/
def spawn (s : Pool σ Φ C) (φ : Φ) : Pool σ Φ C := { s with tasks := s.tasks ++ [⟨φ, none⟩] }

theorem crew_spawn (s : Pool σ Φ C) (φ : Φ) : (s.spawn φ).crew = φ ::ₘ s.crew := by
  unfold crew phases spawn
  rw [map_append, ← Multiset.coe_add, Multiset.add_comm]
  rfl

/-- Replacing one member of a list: the others are the same before and after. -/
private theorem coe_set (l : List Φ) (i : ℕ) (φ ψ : Φ) (h : l[i]? = some φ) :
    ∃ rest : Multiset Φ, (l : Multiset Φ) = φ ::ₘ rest ∧ (l.set i ψ : Multiset Φ) = ψ ::ₘ rest := by
  obtain ⟨hi, rfl⟩ := List.getElem?_eq_some_iff.mp h
  refine ⟨(l.eraseIdx i : List Φ), ?_, ?_⟩
  · rw [Multiset.cons_coe, Multiset.coe_eq_coe]
    exact (getElem_cons_eraseIdx_perm hi).symm
  · rw [Multiset.cons_coe, Multiset.coe_eq_coe]
    exact set_perm_cons_eraseIdx hi ψ

variable [DecidableEq C]

/-- A coroutine asleep on the notified condition wakes up. -/
def wake (notified : Option C) (t : Task Φ C) : Task Φ C :=
  if t.asleep.isSome ∧ t.asleep = notified then { t with asleep := none } else t

@[simp] theorem wake_phase (c : Option C) (t : Task Φ C) : (wake c t).phase = t.phase := by
  unfold wake
  split <;> rfl

/-- The pool after coroutine `i` ran with the given outcome. -/
def resume (s : Pool σ Φ C) (i : ℕ) (o : Outcome σ Φ C) : Pool σ Φ C where
  shared := o.shared
  tasks := (s.tasks.set i ⟨o.phase, o.sleepOn⟩).map (wake o.notify)

theorem phases_resume (s : Pool σ Φ C) (i : ℕ) (o : Outcome σ Φ C) :
    (s.resume i o).phases = s.phases.set i o.phase := by
  have hwake : Task.phase ∘ wake (Φ := Φ) o.notify = Task.phase := by
    funext t
    exact wake_phase _ _
  show ((s.tasks.set i ⟨o.phase, o.sleepOn⟩).map (wake o.notify)).map Task.phase = _
  rw [map_map, hwake, map_set]
  rfl

section

variable (hi : s.tasks[i]? = some t) (o : Outcome σ Φ C)
include hi o

/-- The frame rule: when a coroutine runs, the phases of the others stay as they are. -/
theorem crew_resume :
    ∃ rest : Multiset Φ, s.crew = t.phase ::ₘ rest ∧ (s.resume i o).crew = o.phase ::ₘ rest := by
  have h : s.phases[i]? = some t.phase := by
    unfold phases
    rw [List.getElem?_map, hi, Option.map_some]
  unfold crew
  rw [phases_resume]
  exact coe_set s.phases i t.phase o.phase h

theorem mem_phases_resume {φ : Φ} (hφ : φ ∈ s.phases) (hne : φ ≠ t.phase) :
    φ ∈ (s.resume i o).phases := by
  obtain ⟨rest, hcrew, hcrew'⟩ := crew_resume hi o
  rw [← mem_crew, hcrew] at hφ
  rw [← mem_crew, hcrew']
  exact Multiset.mem_cons_of_mem ((Multiset.mem_cons.mp hφ).resolve_left hne)

theorem resume_self : (s.resume i o).tasks[i]? = some (wake o.notify ⟨o.phase, o.sleepOn⟩) := by
  obtain ⟨hlt, _⟩ := List.getElem?_eq_some_iff.mp hi
  unfold resume
  rw [List.getElem?_map, List.getElem?_set_self hlt, Option.map_some]

end

/-! ## Runs -/

section Runs

variable {K : Type} (starts : Φ → Bool) (advance : σ → Φ → K → Option (Outcome σ Φ C))
  (guard : Pool σ Φ C → ℕ → K → Bool)

/-- One step of a pool: a coroutine joins at a starting phase, or one that is awake, and that the guard
lets run, runs to its next await. -/
inductive Step (s : Pool σ Φ C) : Pool σ Φ C → Prop
  | spawn (φ : Φ) (h : starts φ = true) : Step s (s.spawn φ)
  | run (i : ℕ) (choice : K) (t : Task Φ C) (o : Outcome σ Φ C) (hi : s.tasks[i]? = some t)
      (awake : t.asleep = none) (ho : advance s.shared t.phase choice = some o)
      (hg : guard s i choice = true) : Step s (s.resume i o)

/-- What a scheduler decides at one step. -/
inductive Decision (Φ K : Type)
  | spawn (φ : Φ)
  | run (i : ℕ) (choice : K)

/-- The pool after one decision, if the pool allows it. -/
def follow (s : Pool σ Φ C) : Decision Φ K → Option (Pool σ Φ C)
  | .spawn φ => if starts φ then some (s.spawn φ) else none
  | .run i choice =>
    match s.tasks[i]? with
    | none => none
    | some t =>
      if t.asleep.isNone && guard s i choice then
        (advance s.shared t.phase choice).map (s.resume i)
      else none

/-- The pool after a list of decisions. -/
def exec (s : Pool σ Φ C) : List (Decision Φ K) → Option (Pool σ Φ C)
  | [] => some s
  | d :: ds => (follow starts advance guard s d).bind fun s => exec s ds

variable {starts advance guard} {s s' : Pool σ Φ C}

theorem follow_step {d : Decision Φ K} (h : follow starts advance guard s d = some s') :
    Step starts advance guard s s' := by
  cases d with
  | spawn φ =>
    simp only [follow] at h
    split at h
    · next hφ =>
      cases h
      exact .spawn φ hφ
    · cases h
  | run i choice =>
    simp only [follow] at h
    split at h
    · cases h
    · next t hi =>
      split at h
      · next hok =>
        rw [Bool.and_eq_true, Option.isNone_iff_eq_none] at hok
        obtain ⟨o, ho, rfl⟩ := Option.map_eq_some_iff.mp h
        exact .run i choice t o hi hok.1 ho hok.2
      · cases h

theorem exec_reachable {ds : List (Decision Φ K)} (h : exec starts advance guard s ds = some s') :
    Relation.ReflTransGen (Step starts advance guard) s s' := by
  induction ds generalizing s with
  | nil =>
    cases h
    exact .refl
  | cons d ds ih =>
    obtain ⟨s₁, h₁, h⟩ := Option.bind_eq_some_iff.mp h
    exact (Relation.ReflTransGen.single (follow_step h₁)).trans (ih h)

end Runs

end Pool

end SGLang.Lib
