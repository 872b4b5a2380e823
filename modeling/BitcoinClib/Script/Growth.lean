import BitcoinClib.Script.Run

/-!
Contract: what the growth of the script stack does to a row of pushes.

Owns:
- `ScriptStack.HasRoom`, the condition under which a row of pushes adds its items and nothing
  else;
- that the items of a run of `pushAll` are as expected exactly then.

Does not own: pops.
-/

namespace BitcoinClib.Script

open BitcoinClib.Lib
open BitcoinClib.Types

namespace ScriptStack

/-- The oldest block of the array holds NULL only. -/
def Erased (stack : ScriptStack) : Prop :=
  stackAllocSize ≤ stack.count ∧
    stack.items.drop (stack.count - stackAllocSize) = List.replicate stackAllocSize none

/-- So many pushes fit into the array, or nothing is left that its growth could overwrite. -/
def HasRoom (stack : ScriptStack) (pushes : Nat) : Prop :=
  stack.count + pushes ≤ max stack.maxSize stackAllocSize ∨ stack.Erased

instance (stack : ScriptStack) (pushes : Nat) : Decidable (stack.HasRoom pushes) :=
  inferInstanceAs (Decidable (_ ∨ (_ ∧ _)))

/-- The array after a row of pushes. -/
def pushMany (stack : ScriptStack) (items : List ScriptData) : ScriptStack :=
  items.foldl stackPush stack

end ScriptStack

open ScriptStack

variable {stack : ScriptStack} {sdata : ScriptData}

theorem stackPush_count (stack : ScriptStack) (sdata : ScriptData) :
    (stackPush stack sdata).count = stack.count + 1 := by
  simp [stackPush, ScriptStack.count]

/-- The slots after a push that makes the array grow. -/
theorem stackPush_items_of_full (full : stack.count = stack.maxSize) :
    (stackPush stack sdata).items = some sdata ::
      (stack.items.take (stack.count - stackAllocSize) ++
        List.replicate (stack.count - (stack.count - stackAllocSize)) none) :=
  congrArg (some sdata :: ·) (satoshiScriptStackResize_of_full full).1

theorem stackPush_maxSize_of_full (full : stack.count = stack.maxSize) :
    (stackPush stack sdata).maxSize = stack.maxSize + stackAllocSize :=
  (satoshiScriptStackResize_of_full full).2

/-- The array has no slots, or a block at least. -/
theorem maxSize_cases (stack : ScriptStack) :
    stack.maxSize = 0 ∨ stackAllocSize ≤ stack.maxSize := by
  obtain ⟨blocks, aligned⟩ := stack.aligned
  rcases Nat.eq_zero_or_pos blocks with rfl | positive
  · exact Or.inl aligned
  · right
    rw [aligned]
    exact Nat.le_mul_of_pos_right _ positive

/-- A push onto a full block leaves its oldest block erased. -/
theorem erased_of_full (full : stack.count = stack.maxSize)
    (blocks : stackAllocSize ≤ stack.maxSize) : (stackPush stack sdata).Erased := by
  have enough : stackAllocSize ≤ stack.count := full.symm ▸ blocks
  have low : stack.count - stackAllocSize ≤ stack.items.length := Nat.sub_le _ _
  constructor
  · rw [stackPush_count]
    exact Nat.le_succ_of_le enough
  · rw [stackPush_count, stackPush_items_of_full full, Nat.sub_add_comm enough, List.drop_succ_cons,
      List.drop_left' (List.length_take_of_le low), Nat.sub_sub_self enough]

/-- An erased block stays one. -/
theorem stackPush_erased (erased : stack.Erased) : (stackPush stack sdata).Erased := by
  obtain ⟨enough, slots⟩ := erased
  by_cases room : stack.count < stack.maxSize
  · constructor
    · rw [stackPush_count]
      exact Nat.le_succ_of_le enough
    · rw [stackPush_count, stackPush_items_of_room sdata room, Nat.sub_add_comm enough,
        List.drop_succ_cons]
      exact slots
  · have full : stack.count = stack.maxSize :=
      Nat.le_antisymm stack.fits (Nat.le_of_not_lt room)
    exact erased_of_full full (full ▸ enough)

theorem pushMany_erased : ∀ (items : List ScriptData) {stack : ScriptStack}, stack.Erased →
    (stack.pushMany items).Erased
  | [], _, erased => erased
  | _ :: items, _, erased => pushMany_erased items (stackPush_erased erased)

/-- Growth does not change an erased block. -/
theorem stackPush_items_of_erased (erased : stack.Erased) :
    (stackPush stack sdata).items = some sdata :: stack.items := by
  obtain ⟨enough, slots⟩ := erased
  by_cases room : stack.count < stack.maxSize
  · exact stackPush_items_of_room sdata room
  · have full : stack.count = stack.maxSize :=
      Nat.le_antisymm stack.fits (Nat.le_of_not_lt room)
    rw [stackPush_items_of_full full, Nat.sub_sub_self enough, ← slots, List.take_append_drop]

theorem pushMany_count (items : List ScriptData) :
    (stack.pushMany items).count = stack.count + items.length := by
  induction items generalizing stack with
  | nil => rfl
  | cons sdata items inductionHypothesis =>
      show ((stackPush stack sdata).pushMany items).count = _
      rw [inductionHypothesis, stackPush_count, List.length_cons]
      omega

/-- A row of pushes after which the slots below are what they were. -/
theorem items_erased {items : List ScriptData}
    (added : (stack.pushMany items).items = (items.map some).reverse ++ stack.items)
    (erased : (stack.pushMany items).Erased) (enough : stackAllocSize ≤ stack.count) :
    stack.Erased := by
  obtain ⟨-, slots⟩ := erased
  refine ⟨enough, ?_⟩
  have length : (items.map some).reverse.length = items.length := by simp
  have shift : stack.count + items.length - stackAllocSize =
      items.length + (stack.count - stackAllocSize) := by omega
  rw [added, pushMany_count, shift, ← length, List.drop_append,
    List.drop_eq_nil_of_le (Nat.le_add_right _ _), List.nil_append,
    Nat.add_sub_cancel_left] at slots
  exact slots

/-- A row of pushes adds its items, and nothing else changes, exactly when there is room. -/
theorem pushMany_items_iff : ∀ (items : List ScriptData) (stack : ScriptStack),
    (stack.pushMany items).items = (items.map some).reverse ++ stack.items ↔
      stack.HasRoom items.length
  | [], stack => by
      have fits : stack.count ≤ max stack.maxSize stackAllocSize :=
        Nat.le_trans stack.fits (Nat.le_max_left _ _)
      exact ⟨fun _ => Or.inl fits, fun _ => rfl⟩
  | sdata :: items, stack => by
      have fits : stack.count ≤ stack.maxSize := stack.fits
      have rest := pushMany_items_iff items (stackPush stack sdata)
      have row : ((sdata :: items).map some).reverse ++ stack.items =
          (items.map some).reverse ++ some sdata :: stack.items := by simp
      rw [row]
      show ((stackPush stack sdata).pushMany items).items = _ ↔ _
      by_cases erased : stack.Erased
      · rw [← stackPush_items_of_erased erased, rest]
        exact ⟨fun _ => Or.inr erased, fun _ => Or.inr (stackPush_erased erased)⟩
      by_cases room : stack.count < stack.maxSize
      · rw [← stackPush_items_of_room sdata room, rest, HasRoom, HasRoom, stackPush_count,
          stackPush_maxSize_of_room sdata room, List.length_cons]
        constructor
        · rintro (enough | erasedAfter)
          · exact Or.inl (by omega)
          · exfalso
            obtain ⟨enough, slots⟩ := erasedAfter
            rw [stackPush_count, stackPush_items_of_room sdata room] at slots
            rw [stackPush_count] at enough
            by_cases block : stackAllocSize ≤ stack.count
            · rw [Nat.sub_add_comm block, List.drop_succ_cons] at slots
              exact erased ⟨block, slots⟩
            · have none_ : stack.count + 1 - stackAllocSize = 0 := by omega
              rw [none_, List.drop_zero] at slots
              exact absurd (congrArg List.head? slots) (by simp [stackAllocSize])
        · rintro (enough | erasedBefore)
          · exact Or.inl (by omega)
          · exact absurd erasedBefore erased
      · have full : stack.count = stack.maxSize := Nat.le_antisymm fits (Nat.le_of_not_lt room)
        rcases maxSize_cases stack with zero | blocks
        · have empty : stack.items = [] := List.length_eq_zero_iff.1 (full.trans zero)
          have pushed : (stackPush stack sdata).items = some sdata :: stack.items := by
            rw [stackPush_items_of_full full, full, zero, empty]
            rfl
          have size : (stackPush stack sdata).maxSize = stackAllocSize := by
            rw [stackPush_maxSize_of_full full, zero, Nat.zero_add]
          have notErased : ¬ (stackPush stack sdata).Erased := by
            rintro ⟨enough, -⟩
            rw [stackPush_count, full, zero] at enough
            exact absurd enough (by decide)
          rw [← pushed, rest, HasRoom, HasRoom, stackPush_count, size, full, zero, List.length_cons]
          constructor
          · rintro (enough | erasedAfter)
            · exact Or.inl (by omega)
            · exact absurd erasedAfter notErased
          · rintro (enough | erasedBefore)
            · exact Or.inl (by omega)
            · exact absurd erasedBefore erased
        · have enough : stackAllocSize ≤ stack.count := full.symm ▸ blocks
          constructor
          · intro added
            have whole : (stack.pushMany (sdata :: items)).items =
                ((sdata :: items).map some).reverse ++ stack.items := by
              rw [row]
              exact added
            have after : (stack.pushMany (sdata :: items)).Erased :=
              pushMany_erased items (erased_of_full full blocks)
            exact absurd (items_erased whole after enough) erased
          · rintro (fitting | erasedBefore)
            · rw [List.length_cons] at fitting
              omega
            · exact absurd erasedBefore erased

end BitcoinClib.Script
