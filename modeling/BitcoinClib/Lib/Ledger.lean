import BitcoinClib.Lib.Exec
import Mathlib.Algebra.BigOperators.Group.Multiset.Basic
import Mathlib.Tactic.Abel

/-!
Contract: which blocks of a heap are allocated, and who releases them.

Owns:
- `Ledger`, the live blocks, with `malloc` and `free`: releasing a block that is not live is a
  fault;
- `Owned`, a pointer with the contents of its block;
- `Releases`, a cleanup that releases given blocks and nothing else, with its rule for the
  slots of an array.

Does not own: addresses, sizes, or what the blocks store.
-/

namespace BitcoinClib.Lib

/-- The blocks that are allocated, and the next one to be handed out. -/
structure Ledger where
  live : Multiset Nat
  next : Nat
deriving DecidableEq

/-- A pointer to a block, with what is stored there. -/
structure Owned (α : Type) where
  block : Nat
  content : α
deriving DecidableEq

namespace Ledger

variable {α : Type}

/-- `malloc`, which succeeds. -/
def malloc (ledger : Ledger) (content : α) : Owned α × Ledger :=
  (⟨ledger.next, content⟩, ⟨ledger.next ::ₘ ledger.live, ledger.next + 1⟩)

/-- `free`; the pointer may be NULL. -/
def free (ledger : Ledger) : Option (Owned α) → Exec Ledger
  | none => .ok ledger
  | some owned =>
      if owned.block ∈ ledger.live then .ok { ledger with live := ledger.live.erase owned.block }
      else .fault .invalidFree

/-- The block behind a pointer. -/
def pointed (pointer : Option (Owned α)) : Multiset Nat := (pointer.map Owned.block).elim 0 ({·})

@[simp] theorem pointed_none : pointed (none : Option (Owned α)) = 0 := rfl

@[simp] theorem pointed_some (owned : Owned α) : pointed (some owned) = {owned.block} := rfl

/-- What a pointer points to is released once. -/
theorem free_pointed (pointer : Option (Owned α)) (others : Multiset Nat) (next : Nat) :
    free ⟨pointed pointer + others, next⟩ pointer = .ok ⟨others, next⟩ := by
  cases pointer with
  | none => rw [pointed_none, zero_add, free]
  | some owned =>
      rw [pointed_some, Multiset.singleton_add, free, if_pos (Multiset.mem_cons_self _ _),
        Multiset.erase_cons_head]

/-! ## Cleanups -/

/-- The cleanup releases the blocks, whatever else is live, and leaves `after`. -/
def Releases (cleanup : α → Ledger → Exec (α × Ledger)) (value after : α)
    (blocks : Multiset Nat) : Prop :=
  ∀ others next, cleanup value ⟨blocks + others, next⟩ = .ok (after, ⟨others, next⟩)

/-- `for(i = 0; i < count; ++i) cleanup(&slots[i])`. -/
def cleanupSlots (cleanup : α → Ledger → Exec (α × Ledger)) :
    Nat → List α → Ledger → Exec (List α × Ledger)
  | 0, slots, ledger => .ok (slots, ledger)
  | _ + 1, [], _ => .fault .bounds
  | count + 1, slot :: slots, ledger => do
      let (slot, ledger) ← cleanup slot ledger
      let (slots, ledger) ← cleanupSlots cleanup count slots ledger
      .ok (slot :: slots, ledger)

/-- All slots of an array are cleaned. -/
theorem cleanupSlots_releases {cleanup : α → Ledger → Exec (α × Ledger)} {after : α → α}
    {blocks : α → Multiset Nat} {slots : List α}
    (releases : ∀ slot ∈ slots, Releases cleanup slot (after slot) (blocks slot)) :
    Releases (cleanupSlots cleanup slots.length) slots (slots.map after)
      (slots.map blocks).sum := by
  induction slots with
  | nil =>
      intro others next
      rw [List.map_nil, List.sum_nil, zero_add]
      rfl
  | cons slot slots inductionHypothesis =>
      intro others next
      have first := releases slot List.mem_cons_self ((slots.map blocks).sum + others) next
      have rest := inductionHypothesis
        (fun slot inside => releases slot (List.mem_cons_of_mem _ inside)) others next
      rw [List.map_cons, List.sum_cons, add_assoc, List.length_cons, cleanupSlots, first,
        Exec.ok_bind]
      dsimp only
      rw [rest]
      rfl

/-- Clean the slots of an array and release it; the pointer may be NULL. -/
def freeArray (ledger : Ledger) (cleanup : α → Ledger → Exec (α × Ledger)) (count : Int)
    (array : Option (Owned (List α))) : Exec Ledger :=
  match array with
  | none => .ok ledger
  | some owned => do
      let (_, ledger) ← cleanupSlots cleanup count.toNat owned.content ledger
      ledger.free (some owned)

/-- The blocks of all slots. -/
def slotBlocks (blocks : α → Multiset Nat) (slots : List α) : Multiset Nat :=
  (slots.map blocks).sum

/-- Allocate some blocks. -/
def mallocs (ledger : Ledger) : Nat → List (Option (Owned Unit)) × Ledger
  | 0 => ([], ledger)
  | count + 1 =>
      let (owned, ledger) := ledger.malloc ()
      let (others, ledger) := ledger.mallocs count
      (some owned :: others, ledger)

/-- Release some blocks. -/
def frees (ledger : Ledger) : List (Option (Owned Unit)) → Exec Ledger
  | [] => .ok ledger
  | pointer :: others => do
      let ledger ← ledger.free pointer
      ledger.frees others

/-- The blocks of an array behind a pointer. -/
def arrayBlocks (blocks : α → Multiset Nat) : Option (Owned (List α)) → Multiset Nat
  | none => 0
  | some owned => slotBlocks blocks owned.content + {owned.block}

theorem slotBlocks_cons (blocks : α → Multiset Nat) (slot : α) (slots : List α) :
    slotBlocks blocks (slot :: slots) = blocks slot + slotBlocks blocks slots := by
  rw [slotBlocks, List.map_cons, List.sum_cons, slotBlocks]

theorem slotBlocks_append (blocks : α → Multiset Nat) (front back : List α) :
    slotBlocks blocks (front ++ back) = slotBlocks blocks front + slotBlocks blocks back := by
  rw [slotBlocks, List.map_append, List.sum_append, slotBlocks, slotBlocks]

theorem slotBlocks_replicate {blocks : α → Multiset Nat} {zero : α} (none : blocks zero = 0)
    (count : Nat) : slotBlocks blocks (List.replicate count zero) = 0 := by
  induction count with
  | zero => rfl
  | succ count inductionHypothesis =>
      rw [List.replicate_succ, slotBlocks_cons, none, inductionHypothesis, zero_add]

theorem mallocs_live (ledger : Ledger) (count : Nat) :
    (ledger.mallocs count).2.live =
      slotBlocks pointed (ledger.mallocs count).1 + ledger.live := by
  induction count generalizing ledger with
  | zero => rw [mallocs, slotBlocks, List.map_nil, List.sum_nil, zero_add]
  | succ count inductionHypothesis =>
      rw [mallocs]
      dsimp only
      rw [inductionHypothesis, slotBlocks_cons, pointed_some, malloc, ← Multiset.singleton_add]
      dsimp only
      abel

theorem frees_pointed (pointers : List (Option (Owned Unit))) (others : Multiset Nat)
    (next : Nat) :
    frees ⟨slotBlocks pointed pointers + others, next⟩ pointers = .ok ⟨others, next⟩ := by
  induction pointers with
  | nil => rw [slotBlocks, List.map_nil, List.sum_nil, zero_add, frees]
  | cons pointer pointers inductionHypothesis =>
      rw [slotBlocks_cons, add_assoc, frees, free_pointed, Exec.ok_bind, inductionHypothesis]

/-- An array whose slots are cleaned is released with their blocks. -/
theorem freeArray_releases {cleanup : α → Ledger → Exec (α × Ledger)} {after : α → α}
    {blocks : α → Multiset Nat} {count : Int} {array : Option (Owned (List α))}
    (length : ∀ owned, array = some owned → owned.content.length = count.toNat)
    (releases : ∀ owned, array = some owned →
      ∀ slot ∈ owned.content, Releases cleanup slot (after slot) (blocks slot))
    (others : Multiset Nat) (next : Nat) :
    freeArray ⟨arrayBlocks blocks array + others, next⟩ cleanup count array =
      .ok ⟨others, next⟩ := by
  cases array with
  | none => rw [arrayBlocks, zero_add, freeArray]
  | some owned =>
      have slots := cleanupSlots_releases (releases owned rfl) ({owned.block} + others) next
      rw [length owned rfl] at slots
      rw [arrayBlocks, add_assoc, freeArray, slotBlocks, slots, Exec.ok_bind]
      exact free_pointed (some owned) others next

end Ledger

end BitcoinClib.Lib
