/-
# SGLang.Lib.Generations — handles into cells that are reused.

A cell that is freed and used again carries a generation, and whoever frees it raises the generation. A handle
is a cell with the generation that it had when the handle was made. Nothing is told to the holders of handles: a
handle is good as long as the generation in it is the one of its cell.

`Keeps` is what a step has to respect for this to work: generations do not go down, and a fact about a cell is
lost only if its generation goes up. `Stamped` says that a handle was made for a fact; it survives every such
step.
-/
import Mathlib.Order.Nat

namespace SGLang.Lib

/-- Stores `σ` of cells `κ` with generations, and facts `φ` about cells. -/
structure Generations (σ κ φ : Type) where
  generation : σ → κ → ℕ
  Fact : σ → κ → φ → Prop

namespace Generations

variable {σ κ φ : Type} {G : Generations σ κ φ} {s s' s'' : σ} {k : κ} {g : ℕ} {f : φ}

/-- A step from `s` to `s'` forgets a fact about a cell only if it raises the generation of the cell. -/
def Keeps (G : Generations σ κ φ) (s s' : σ) : Prop := ∀ k,
  G.generation s k ≤ G.generation s' k ∧
    ∀ f, G.Fact s k f → G.generation s' k = G.generation s k → G.Fact s' k f

theorem Keeps.refl (G : Generations σ κ φ) (s : σ) : G.Keeps s s := fun _ => ⟨le_rfl, fun _ h _ => h⟩

theorem Keeps.trans (h : G.Keeps s s') (h' : G.Keeps s' s'') : G.Keeps s s'' := by
  intro k
  refine ⟨(h k).1.trans (h' k).1, fun f hf heq => ?_⟩
  -- the generation is the same at both ends, so it is in the middle
  have hmid : G.generation s' k = G.generation s k := le_antisymm (heq ▸ (h' k).1) (h k).1
  exact (h' k).2 f ((h k).2 f hf hmid) (heq.trans hmid.symm)

/-- The handle `(k, g)` was made when `f` held of `k`. -/
def Stamped (G : Generations σ κ φ) (s : σ) (k : κ) (g : ℕ) (f : φ) : Prop :=
  g ≤ G.generation s k ∧ (G.generation s k = g → G.Fact s k f)

theorem Stamped.of_fact (h : G.Fact s k f) : G.Stamped s k (G.generation s k) f := ⟨le_rfl, fun _ => h⟩

theorem Stamped.keeps (h : G.Stamped s k g f) (hs : G.Keeps s s') : G.Stamped s' k g f := by
  refine ⟨h.1.trans (hs k).1, fun heq => ?_⟩
  have hold : G.generation s k = g := le_antisymm (heq ▸ (hs k).1) h.1
  exact (hs k).2 f (h.2 hold) (heq.trans hold.symm)

end Generations

end SGLang.Lib
