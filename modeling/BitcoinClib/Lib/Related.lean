import BitcoinClib.Lib.Exec

/-!
Contract: two runs that differ in their state and agree in how they end.

Owns:
- `Exec.Related`, that two outcomes are of one kind and that returned values are
  related;
- its rules for returning, sequencing and weakening;
- `StepRelated`, the case of a visible result together with a state.

Does not own: the relation on states, which the user chooses.
-/

namespace BitcoinClib.Lib

namespace Exec

universe u v w

section Rules

variable {α β γ δ : Type u}

/-- Both runs return related values, or both stop in the same way. -/
def Related {α : Type v} {β : Type w} (related : α → β → Prop) : Exec α → Exec β → Prop
  | .ok left, .ok right => related left right
  | .fault cause, .fault cause' => cause = cause'
  | .timeout, .timeout => True
  | _, _ => False

variable {related : α → β → Prop} {relatedResult : γ → δ → Prop}
  {left : Exec α} {right : Exec β}

theorem Related.bind {next : α → Exec γ} {next' : β → Exec δ}
    (first : Related related left right)
    (second : ∀ value value', related value value' →
      Related relatedResult (next value) (next' value')) :
    Related relatedResult (left >>= next) (right >>= next') := by
  cases left with
  | ok value =>
      cases right with
      | ok value' => exact second value value' first
      | fault cause => exact first.elim
      | timeout => exact first.elim
  | fault cause =>
      cases right with
      | ok value' => exact first.elim
      | fault cause' => exact first
      | timeout => exact first.elim
  | timeout =>
      cases right with
      | ok value' => exact first.elim
      | fault cause' => exact first.elim
      | timeout => trivial

/-- A run that reads no state is the same on both sides. -/
theorem Related.same_bind (run : Exec α) {next : α → Exec γ} {next' : α → Exec δ}
    (second : ∀ value, run = .ok value → Related relatedResult (next value) (next' value)) :
    Related relatedResult (run >>= next) (run >>= next') := by
  cases run with
  | ok value => exact second value rfl
  | fault cause => rfl
  | timeout => trivial

theorem Related.mono {weaker : α → β → Prop} (holds : Related related left right)
    (weaken : ∀ value value', related value value' → weaker value value') :
    Related weaker left right := by
  cases left with
  | ok value =>
      cases right with
      | ok value' => exact weaken value value' holds
      | fault cause => exact holds.elim
      | timeout => exact holds.elim
  | fault cause =>
      cases right with
      | ok value' => exact holds.elim
      | fault cause' => exact holds
      | timeout => exact holds.elim
  | timeout =>
      cases right with
      | ok value' => exact holds.elim
      | fault cause' => exact holds.elim
      | timeout => trivial

/-- What the left run returns, the right run returns up to the relation. -/
theorem Related.ok_left {value : α} (holds : Related related left right)
    (returns : left = .ok value) : ∃ value', right = .ok value' ∧ related value value' := by
  subst returns
  cases right with
  | ok value' => exact ⟨value', rfl, holds⟩
  | fault cause => exact holds.elim
  | timeout => exact holds.elim

theorem Related.symm (holds : Related related left right) :
    Related (fun value' value => related value value') right left := by
  cases left with
  | ok value =>
      cases right with
      | ok value' => exact holds
      | fault cause => exact holds.elim
      | timeout => exact holds.elim
  | fault cause =>
      cases right with
      | ok value' => exact holds.elim
      | fault cause' => exact Eq.symm holds
      | timeout => exact holds.elim
  | timeout =>
      cases right with
      | ok value' => exact holds.elim
      | fault cause' => exact holds.elim
      | timeout => trivial

end Rules

/-- Two steps with the same visible result and related states. -/
def StepRelated {α : Type u} {σ : Type v} (states : σ → σ → Prop) (left right : α × σ) : Prop :=
  left.1 = right.1 ∧ states left.2 right.2

/-- Related runs look the same to an observer of the visible result. -/
theorem Related.observe {α β σ : Type u} {states : σ → σ → Prop} {left right : Exec (α × σ)}
    (holds : Related (StepRelated states) left right) (observe : α → Exec β) :
    (left >>= fun result => observe result.1) = (right >>= fun result => observe result.1) := by
  cases left with
  | ok result =>
      cases right with
      | ok result' => exact congrArg observe holds.1
      | fault cause => exact holds.elim
      | timeout => exact holds.elim
  | fault cause =>
      cases right with
      | ok result' => exact holds.elim
      | fault cause' => exact congrArg Exec.fault holds
      | timeout => exact holds.elim
  | timeout =>
      cases right with
      | ok result' => exact holds.elim
      | fault cause' => exact holds.elim
      | timeout => rfl

/-- A relation that is a function on states turns one run into the other. -/
theorem Related.eq_map {α σ τ : Type u} (convert : σ → τ) {left : Exec (α × σ)}
    {right : Exec (α × τ)}
    (holds : Related (fun first second => first.1 = second.1 ∧ second.2 = convert first.2)
      left right) :
    right = (left >>= fun result => pure (result.1, convert result.2)) := by
  cases left with
  | ok result =>
      cases right with
      | ok result' => exact congrArg Exec.ok (Prod.ext holds.1.symm holds.2)
      | fault cause => exact holds.elim
      | timeout => exact holds.elim
  | fault cause =>
      cases right with
      | ok result' => exact holds.elim
      | fault cause' => exact congrArg Exec.fault (Eq.symm holds)
      | timeout => exact holds.elim
  | timeout =>
      cases right with
      | ok result' => exact holds.elim
      | fault cause' => exact holds.elim
      | timeout => rfl

/-- A relation to converted results is a relation to the results before. -/
theorem Related.of_map {α β γ : Type u} {related : α → γ → Prop} {left : Exec α}
    {right : Exec β} {convert : β → γ}
    (holds : Related related left (right >>= fun result => pure (convert result))) :
    Related (fun value result => related value (convert result) ∧ right = .ok result)
      left right := by
  cases right with
  | ok result =>
      cases left with
      | ok value => exact ⟨holds, rfl⟩
      | fault cause => exact holds.elim
      | timeout => exact holds.elim
  | fault cause =>
      cases left with
      | ok value => exact holds.elim
      | fault cause' => exact holds
      | timeout => exact holds.elim
  | timeout =>
      cases left with
      | ok value => exact holds.elim
      | fault cause' => exact holds.elim
      | timeout => trivial

end Exec

end BitcoinClib.Lib
