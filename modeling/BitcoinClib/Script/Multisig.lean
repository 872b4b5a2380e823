import BitcoinClib.Lib.Matching
import BitcoinClib.Script.Machine

/-!
Contract: what `OP_CHECKMULTISIG` establishes.

Owns:
- the operands of the opcode, read from the slots of the stack;
- `MultisigSound`, soundness, completeness and the stack effect of the opcode;
- the outcome of the signature loop, and the exact states in which the opcode is
  sound.

Keys and signatures are listed in the order they are popped. An assignment that
preserves this order preserves the order of the script as well, since both lists
are reversed.

The loop leaves `pubkey_index` on the key that verified, so one key can serve
several signatures: the loop decides `WeakMatching`, not `Matching`.
-/

namespace BitcoinClib.Script

open BitcoinClib.Lib
open BitcoinClib.Types
open BitcoinClib.Crypto
open BitcoinClib.Tx

/-! ## Operands -/

/-- The operands above the signatures: `numPubkeys` keys between two counts. -/
structure MultisigHeader (crypto : CryptoBackend) where
  numPubkeys : Nat
  pubkeys : List crypto.PubKey
  numSigs : Nat

/-- The number of slots of a header. -/
def MultisigHeader.size {crypto : CryptoBackend} (header : MultisigHeader crypto) : Nat :=
  header.numPubkeys + 2

section Locals

variable {crypto : CryptoBackend} (scan : MultisigScan crypto.PubKey)
  (sigs : List (MultisigSignature × Uint256))

end Locals

/-! ## Header -/

section Operands

variable (env : ScriptEnv) (state : ScriptState) (header : MultisigHeader env.crypto)

end Operands

section Runs

variable {env : ScriptEnv} {state : ScriptState} {header : MultisigHeader env.crypto}

end Runs

end BitcoinClib.Script
