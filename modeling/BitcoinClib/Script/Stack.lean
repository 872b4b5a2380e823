import BitcoinClib.Script.Data
import Mathlib.Data.List.Infix

/-!
Contract: runs of pushes and pops on one script stack.

Owns:
- `StackCall`, its effect on the array and its effect on a list of items;
- `HoldsItems`, that the array is the list;
- that the two agree after every call of a run exactly as long as the array of
  `satoshi_script_stack_init` is never outgrown.

Does not own: what a script pushes or pops.
-/

namespace BitcoinClib.Script

open BitcoinClib.Lib
open BitcoinClib.Types

/-- A call through the function pointers of `satoshi_script_stack_t`. -/
inductive StackCall where
  | push (sdata : ScriptData)
  | pop
deriving DecidableEq, Repr

/-- `satoshi_script_stack_init` on a zeroed record. -/
def satoshiScriptStackInitSize (size : Int) : ScriptStack :=
  satoshiScriptStackResize .zero size.toNat

namespace StackCall

/-- The array after a call. -/
def onArray (stack : ScriptStack) : StackCall → ScriptStack
  | push sdata => stackPush stack sdata
  | pop => (stackPop stack).2

/-- The items pushed and not yet popped after a call, the latest first. -/
def onList (held : List ScriptData) : StackCall → List ScriptData
  | push sdata => sdata :: held
  | pop => held.tail

end StackCall

/-- The array after a sequence of calls. -/
def stackAfter (stack : ScriptStack) (calls : List StackCall) : ScriptStack :=
  calls.foldl StackCall.onArray stack

/-- The items pushed and not yet popped after a sequence of calls on an empty stack. -/
def heldAfter (calls : List StackCall) : List ScriptData :=
  calls.foldl StackCall.onList []

theorem stackAfter_concat (stack : ScriptStack) (calls : List StackCall) (call : StackCall) :
    stackAfter stack (calls ++ [call]) =
      StackCall.onArray (stackAfter stack calls) call := by
  simp [stackAfter]

theorem heldAfter_concat (calls : List StackCall) (call : StackCall) :
    heldAfter (calls ++ [call]) = StackCall.onList (heldAfter calls) call := by
  simp [heldAfter]

/-- The stack is the list: its slots, its count, and what the next pop returns. -/
structure HoldsItems (stack : ScriptStack) (held : List ScriptData) : Prop where
  items : stack.items = held.map some
  count : stack.count = held.length
  nextPop : (stackPop stack).1 = held.head?

theorem HoldsItems.of_items {stack : ScriptStack} {held : List ScriptData}
    (items : stack.items = held.map some) : HoldsItems stack held := by
  refine ⟨items, ?_, ?_⟩
  · rw [ScriptStack.count, items, List.length_map]
  · rw [stackPop_fst, items]
    cases held with
    | nil => rfl
    | cons sdata held => rfl

/-! ## One call -/

/-- A push on a full array overwrites the oldest slot. -/
theorem stackPush_full {stack : ScriptStack} (sdata : ScriptData)
    (full : stack.count = stack.maxSize) (nonempty : 0 < stack.maxSize) :
    none ∈ (stackPush stack sdata).items := by
  have rounded := le_stackRoundUp (stack.count + 1)
  have items : stack.items.length = stack.maxSize := full
  apply List.mem_cons_of_mem
  unfold satoshiScriptStackResize
  rw [dif_neg (by omega)]
  apply List.mem_append_right
  rw [List.mem_replicate]
  exact ⟨by omega, rfl⟩

/-- While the array is the list, a push keeps it so exactly when a slot is free. -/
theorem stackPush_holds_iff {stack : ScriptStack} {held : List ScriptData} (sdata : ScriptData)
    (holds : HoldsItems stack held) (nonempty : 0 < stack.maxSize) :
    HoldsItems (stackPush stack sdata) (sdata :: held) ↔ held.length < stack.maxSize := by
  constructor
  · intro pushed
    by_contra noRoom
    have fits := stack.fits
    have full : stack.count = stack.maxSize := by
      rw [← holds.count] at noRoom
      exact Nat.le_antisymm fits (Nat.le_of_not_lt noRoom)
    have cleared := stackPush_full sdata full nonempty
    rw [pushed.items] at cleared
    simp at cleared
  · intro room
    rw [← holds.count] at room
    apply HoldsItems.of_items
    rw [stackPush_items_of_room sdata room, holds.items, List.map_cons]

theorem stackPop_holds {stack : ScriptStack} {held : List ScriptData}
    (holds : HoldsItems stack held) : HoldsItems (stackPop stack).2 held.tail := by
  apply HoldsItems.of_items
  rw [stackPop_items, holds.items, List.map_tail]

/-! ## Runs -/

theorem satoshiScriptStackInitSize_holds (size : Int) :
    HoldsItems (satoshiScriptStackInitSize size) [] := by
  apply HoldsItems.of_items
  apply List.eq_nil_of_length_eq_zero
  rw [satoshiScriptStackInitSize, satoshiScriptStackResize_count]
  rfl

theorem satoshiScriptStackInitSize_nonempty (size : Int) :
    0 < (satoshiScriptStackInitSize size).maxSize := by
  have rounded : 0 < stackRoundUp size.toNat := by
    unfold stackRoundUp stackAllocSize
    split_ifs <;> omega
  have more : ¬ stackRoundUp size.toNat ≤ ScriptStack.zero.maxSize := Nat.not_le_of_lt rounded
  unfold satoshiScriptStackInitSize satoshiScriptStackResize
  rw [dif_neg more]
  exact rounded

/-- The calls up to any point of a run. -/
def Throughout (calls : List StackCall) (property : List StackCall → Prop) : Prop :=
  ∀ before, before <+: calls → property before

/-- As long as the array is not outgrown it is the list, and it is not reallocated. -/
theorem holds_of_bounded {start : ScriptStack} (empty : HoldsItems start [])
    (nonempty : 0 < start.maxSize) {calls : List StackCall}
    (bounded : Throughout calls fun before => (heldAfter before).length ≤ start.maxSize) :
    HoldsItems (stackAfter start calls) (heldAfter calls) ∧
      (stackAfter start calls).maxSize = start.maxSize := by
  induction calls using List.reverseRecOn with
  | nil => exact ⟨empty, rfl⟩
  | append_singleton calls call inductionHypothesis =>
      obtain ⟨holds, size⟩ := inductionHypothesis fun before leading =>
        bounded before (leading.trans (List.prefix_append calls [call]))
      have last : (heldAfter (calls ++ [call])).length ≤ start.maxSize :=
        bounded _ (List.prefix_refl _)
      rw [heldAfter_concat] at last
      rw [stackAfter_concat, heldAfter_concat]
      cases call with
      | push sdata =>
          have room : (heldAfter calls).length < (stackAfter start calls).maxSize := by
            rw [size]
            exact last
          have free : (stackAfter start calls).count < (stackAfter start calls).maxSize := by
            rw [holds.count]
            exact room
          refine ⟨(stackPush_holds_iff sdata holds (by rw [size]; exact nonempty)).2 room, ?_⟩
          exact (stackPush_maxSize_of_room sdata free).trans size
      | pop => exact ⟨stackPop_holds holds, size⟩

/-- As long as the array is the list, it was not outgrown. -/
theorem bounded_of_holds {start : ScriptStack} (empty : HoldsItems start [])
    (nonempty : 0 < start.maxSize) {calls : List StackCall}
    (holds : Throughout calls fun before => HoldsItems (stackAfter start before) (heldAfter before)) :
    Throughout calls fun before => (heldAfter before).length ≤ start.maxSize := by
  induction calls using List.reverseRecOn with
  | nil =>
      intro before leading
      rw [List.prefix_nil.1 leading]
      exact Nat.zero_le _
  | append_singleton calls call inductionHypothesis =>
      have earlier := inductionHypothesis fun before leading =>
        holds before (leading.trans (List.prefix_append calls [call]))
      intro before leading
      rcases List.prefix_concat_iff.1 leading with rfl | inside
      · obtain ⟨sofar, size⟩ := holds_of_bounded empty nonempty earlier
        have last : HoldsItems (stackAfter start (calls ++ [call])) (heldAfter (calls ++ [call])) :=
          holds _ (List.prefix_refl _)
        rw [stackAfter_concat, heldAfter_concat] at last
        rw [heldAfter_concat]
        cases call with
        | push sdata =>
            have room := (stackPush_holds_iff sdata sofar (by rw [size]; exact nonempty)).1 last
            rw [size] at room
            exact room
        | pop =>
            have below := earlier calls (List.prefix_refl _)
            exact Nat.le_trans (by simp [StackCall.onList]) below
      · exact earlier before inside

/-- A run of pushes and pops sees a last-in first-out stack, at each of its points, exactly
when it never holds more items than the first array has slots. -/
theorem stack_lifo_iff (size : Int) (calls : List StackCall) :
    (Throughout calls fun before =>
      HoldsItems (stackAfter (satoshiScriptStackInitSize size) before) (heldAfter before)) ↔
    Throughout calls fun before =>
      (heldAfter before).length ≤ (satoshiScriptStackInitSize size).maxSize := by
  have empty := satoshiScriptStackInitSize_holds size
  have nonempty := satoshiScriptStackInitSize_nonempty size
  constructor
  · exact bounded_of_holds empty nonempty
  · intro bounded before leading
    exact (holds_of_bounded empty nonempty fun earlier shorter =>
      bounded earlier (shorter.trans leading)).1

/-- The push of a sixty-fifth item clears the slots of the other sixty-four. -/
theorem growth_not_lifo :
    (stackAfter (satoshiScriptStackInitSize 0) (List.replicate 65 (.push sdataTrue))).items =
        some sdataTrue :: List.replicate 64 none ∧
      ¬ Throughout (List.replicate 65 (.push sdataTrue)) fun before =>
        HoldsItems (stackAfter (satoshiScriptStackInitSize 0) before) (heldAfter before) := by
  have slots : (stackAfter (satoshiScriptStackInitSize 0)
      (List.replicate 65 (.push sdataTrue))).items =
        some sdataTrue :: List.replicate 64 none := by decide +kernel
  have held : heldAfter (List.replicate 65 (.push sdataTrue)) = List.replicate 65 sdataTrue := by
    decide +kernel
  refine ⟨slots, fun holds => ?_⟩
  have same := (holds _ (List.prefix_refl _)).items
  rw [slots, held] at same
  exact absurd same (by decide)

end BitcoinClib.Script
