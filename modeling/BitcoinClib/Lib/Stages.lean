import Mathlib.Data.Finset.Card
import Mathlib.Data.List.Basic
import Mathlib.Data.List.Infix

/-!
Contract: what holds at every stage of a run, and the exact condition on its inputs.

Owns:
- the last step of a run (`foldlM_concat`), and the first item beyond a capacity
  (`full_of_card_insert`);
- `Guarded`, an invariant that lasts while a condition on the inputs does, gives a property of the
  stage, and under which the next stage has the property only within the condition;
- `Guarded.stages_iff`, the property at every stage against the condition at every stage.

Does not own: what a stage is; the run is whatever the inputs so far lead to.
-/

namespace BitcoinClib.Lib

universe u

variable {α : Type u}

/-- The last step of a run. -/
theorem foldlM_concat {m : Type u → Type u} [Monad m] [LawfulMonad m] {σ : Type u}
    (step : σ → α → m σ) (state : σ) (inputs : List α) (input : α) :
    (inputs ++ [input]).foldlM step state =
      inputs.foldlM step state >>= fun reached => step reached input := by
  rw [List.foldlM_append]
  congr 1
  funext reached
  rw [List.foldlM_cons]
  exact bind_pure _

/-- An item that is one too many is new, and the others fill the capacity. -/
theorem full_of_card_insert [DecidableEq α] {items : Finset α} {item : α} {capacity : Nat}
    (within : items.card ≤ capacity) (more : capacity < (insert item items).card) :
    item ∉ items ∧ items.card = capacity := by
  have fresh : item ∉ items := by
    intro member
    rw [Finset.insert_eq_of_mem member] at more
    exact absurd more (Nat.not_lt.2 within)
  rw [Finset.card_insert_of_notMem fresh] at more
  exact ⟨fresh, Nat.le_antisymm within (Nat.le_of_lt_succ more)⟩

/-- An invariant, a property and a condition of the inputs so far. -/
structure Guarded (invariant holds condition : List α → Prop) : Prop where
  start : invariant []
  within : condition []
  kept : ∀ {inputs : List α} {input : α}, invariant inputs → condition (inputs ++ [input]) →
    invariant (inputs ++ [input])
  enough : ∀ {inputs : List α}, invariant inputs → holds inputs
  needed : ∀ {inputs : List α} {input : α}, invariant inputs → holds (inputs ++ [input]) →
    condition (inputs ++ [input])

namespace Guarded

variable {invariant holds condition : List α → Prop}

/-- The invariant lasts as long as the condition. -/
theorem invariant_of_condition (guarded : Guarded invariant holds condition) {inputs : List α}
    (bounded : ∀ stage, stage <+: inputs → condition stage) : invariant inputs := by
  induction inputs using List.reverseRecOn with
  | nil => exact guarded.start
  | append_singleton inputs input inductionHypothesis =>
      apply guarded.kept
      · apply inductionHypothesis
        intro stage before
        exact bounded stage (before.trans (List.prefix_append inputs [input]))
      · exact bounded _ List.prefix_rfl

/-- The property holds at every stage exactly when the condition does. -/
theorem stages_iff (guarded : Guarded invariant holds condition) (inputs : List α) :
    (∀ stage, stage <+: inputs → holds stage) ↔ ∀ stage, stage <+: inputs → condition stage := by
  constructor
  · induction inputs using List.reverseRecOn with
    | nil =>
        intro _ stage before
        rw [List.prefix_nil.1 before]
        exact guarded.within
    | append_singleton inputs input inductionHypothesis =>
        intro property stage before
        have earlier := inductionHypothesis fun stage before =>
          property stage (before.trans (List.prefix_append inputs [input]))
        rcases List.prefix_concat_iff.1 before with rfl | inside
        · exact guarded.needed (guarded.invariant_of_condition earlier)
            (property _ List.prefix_rfl)
        · exact earlier stage inside
  · intro bounded stage before
    apply guarded.enough
    apply guarded.invariant_of_condition
    intro first inside
    exact bounded first (inside.trans before)

end Guarded

end BitcoinClib.Lib
