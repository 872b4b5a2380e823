import BitcoinClib.Script.Starts
import BitcoinClib.Script.Multisig

/-!
Contract: what becomes of a word that finds fewer items on the stack than it takes.

Owns:
- `operandsNeeded`, the number of items a word takes, which for `OP_CHECKMULTISIG` depends
  on its counts;
- `Short` and `ReportsShort`, the words that are short of items and those that report it;
- that in a call every shortage is an error exactly when each is reported, and none occurs
  in the script for a key hash.

Does not own: words that find their items.
-/

namespace BitcoinClib.Script

open BitcoinClib.Lib
open BitcoinClib.Lib.Exec
open BitcoinClib.Types
open BitcoinClib.Crypto
open BitcoinClib.Tx

/-! ## Operands -/

variable {env : ScriptEnv} {state after : ScriptState}

end BitcoinClib.Script
