import BitcoinClib.Script.Returning
import BitcoinClib.Script.Underflow

/-!
Contract: the words that stop the program, over stacks that scripts lead to.

Owns:
- for each word the exact condition on its operands under which it returns: the kind and
  length of the items it reads, and what its digests need;
- `Safe`, the condition at a point, and that it decides whether the word returns.

A word that is short of operands, or finds NULL, reports it or passes; what stops the
program is an operand of the wrong kind or length, a missing script for a digest, an
undefined hash type, `OP_PUSHDATA4`, a misplaced separator and an empty branch.

Does not own: what the words compute.
-/

namespace BitcoinClib.Script

open BitcoinClib.Lib
open BitcoinClib.Lib.Exec
open BitcoinClib.Types
open BitcoinClib.Crypto
open BitcoinClib.Tx

theorem HoldsVectors.slot {state : ScriptState} {sdata : ScriptData}
    {rest : List (Option ScriptData)} (holds : HoldsVectors state)
    (items : state.items = some sdata :: rest) : ∃ vector, ItemVector sdata vector :=
  holds sdata (by rw [items]; exact List.mem_cons_self)

variable {env : ScriptEnv} {state : ScriptState}

section Multisig

variable {slots : List (Option ScriptData)}

/-- Every item among the slots stands for a byte vector. -/
def SlotsHoldVectors (slots : List (Option ScriptData)) : Prop :=
  ∀ sdata, some sdata ∈ slots → ∃ vector, ItemVector sdata vector

theorem SlotsHoldVectors.tail (hold : SlotsHoldVectors slots) : SlotsHoldVectors slots.tail :=
  fun sdata present => hold sdata (List.mem_of_mem_tail present)

theorem SlotsHoldVectors.drop (hold : SlotsHoldVectors slots) (count : Nat) :
    SlotsHoldVectors (slots.drop count) :=
  fun sdata present => hold sdata (List.mem_of_mem_drop present)

theorem HoldsVectors.getDigest {digest : Option Uint256} {hashType : UInt32}
    {after : ScriptState} (holds : HoldsVectors state)
    (digests : getDigest env state hashType = .ok (digest, after)) : HoldsVectors after := by
  rw [getDigest_frame digests]
  exact holds.same rfl

end Multisig

end BitcoinClib.Script
