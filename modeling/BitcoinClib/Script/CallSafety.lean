import BitcoinClib.Script.WordSafety

/-!
Contract: when a call of `scripts_parse` returns.

Owns:
- `Selected`, the transaction and input a call is made for;
- `CallSafe`: every word reached is safe, no script called back is empty, a nested witness
  program is a string, and the script for a key hash refuses nothing;
- that a call returns, with `-1` or the length of its script, exactly when it is safe.

Does not own: which words are safe.
-/

namespace BitcoinClib.Script

open BitcoinClib.Lib
open BitcoinClib.Lib.Exec
open BitcoinClib.Types
open BitcoinClib.Crypto
open BitcoinClib.Tx

variable {env : ScriptEnv} {state after : ScriptState} {payload : Bytes}

/-! ## Runs -/

theorem HoldsVectors.run {start : ControlPoint} {finished : Bool}
    (holds : HoldsVectors start.state) (run : start.run env = .ok (finished, after)) :
    HoldsVectors after := by
  have related := parseLoop_related (holdsVectors_relation env).toRunRelation start.type
    (start.rest.length + 1) start.origin start.rest ⟨rfl, holds⟩
  have same : parseLoop env start.type (start.rest.length + 1) start.origin start.rest
      start.state = .ok (finished, after) := run
  rw [same] at related
  exact related.2.2

/-! ## Redeem scripts -/

theorem HoldsVectors.redeemStart {start : ControlPoint} (holds : HoldsVectors state)
    (starts : redeemStart state = some start) : HoldsVectors start.state := by
  unfold BitcoinClib.Script.redeemStart at starts
  split at starts
  · split_ifs at starts
    split at starts
    · cases starts
      exact holds.dropTop
    · cases starts
  · cases starts

theorem HoldsVectors.pushWitnessItems (holds : HoldsVectors state) (items : List Varstr) :
    HoldsVectors (pushWitnessItems items state) := by
  induction items generalizing state with
  | nil => exact holds
  | cons item items inductionHypothesis =>
      rw [BitcoinClib.Script.pushWitnessItems, List.foldl_cons]
      split_ifs
      · exact inductionHypothesis holds
      · exact inductionHypothesis (holds.push (.pushed item.data))

theorem HoldsVectors.segwitCall {program : Bytes} {called : ScriptState}
    (holds : HoldsVectors state)
    (calls : segwitCall env payload state = some (program, called)) : HoldsVectors called := by
  have flagged : HoldsVectors
      { state with utxoFlags := state.utxoFlags ||| txoutTypeP2shSegwitFlags } :=
    holds.same rfl
  unfold BitcoinClib.Script.segwitCall at calls
  by_cases isP2sh : state.txin.isP2sh = true
  · rw [if_pos isP2sh] at calls
    cases calls
  rw [if_neg isP2sh] at calls
  cases witness : flaggedWitnessItems env with
  | fault cause =>
      rw [witness] at calls
      cases calls
  | timeout =>
      rw [witness] at calls
      cases calls
  | ok items =>
      rw [witness] at calls
      simp only at calls
      by_cases legacy : 16 < payload.headD 0
      · rw [if_pos legacy] at calls
        split_ifs at calls
        split at calls
        · split_ifs at calls
          cases calls
          exact flagged.dropTop.pushWitnessItems items
        · cases calls
      · rw [if_neg legacy] at calls
        cases calls
        exact holds.pushWitnessItems items

theorem HoldsVectors.preProcessed {processed : PreProcessed} (holds : HoldsVectors state)
    (returns : txoutScriptsPreProcess env payload state = .ok (processed, after)) :
    HoldsVectors after := by
  have related := txoutScriptsPreProcess_related (holdsVectors_relation env) payload ⟨rfl, holds⟩
  rw [returns] at related
  exact related.2.2

end BitcoinClib.Script
