import BitcoinClib.Block.Codec
import BitcoinClib.Tx.InPlaceRuns

/-!
Contract: block objects in memory, and how `satoshi_block_parse` fills them.

Owns:
- `satoshi_block_t` with its pointer to the transactions, and `satoshi_block_cleanup`;
- the blocks of the merkle tree during a parse: the tree, its private part, its items, and one
  array for each layer that is computed;
- `satoshi_block_parse` into the caller's object.

The error path of the loop over the transactions does not release the merkle tree.
-/

namespace BitcoinClib.Block.Memory

open BitcoinClib.Lib
open BitcoinClib.Lib.Parser (remaining require take lift)
open BitcoinClib.Lib.Attempt
open BitcoinClib.Types
open BitcoinClib.Crypto
open BitcoinClib.Tx.Memory

/-- `satoshi_block_t`. -/
structure BlockRecord where
  hdr : BlockHeader
  txnCount : Int
  txns : Option (Owned (List TxRecord))
  hash : Uint256
deriving DecidableEq

def hdrZero : BlockHeader := ⟨0, uint256Zero, uint256Zero, 0, 0, 0⟩

def blockZero : BlockRecord := ⟨hdrZero, 0, none, uint256Zero⟩

def BlockRecord.setTxns (txns : Owned (List TxRecord)) (block : BlockRecord) : BlockRecord :=
  { block with txns := some txns }

/-- `satoshi_block_cleanup` -/
def satoshiBlockCleanup (block : BlockRecord) (ledger : Ledger) : Exec (BlockRecord × Ledger) := do
  let ledger ← ledger.freeArray satoshiTxCleanup block.txnCount block.txns
  .ok ({ block with
    txnCount := if block.txns.isSome then 0 else block.txnCount
    txns := none }, ledger)

/-! ## The merkle tree -/

/-- `uint256_merkle_tree_new`: the tree, its private part and its items. -/
def merkleTreeNew {T : Type} : Attempt (Workspace T) UInt8 (List (Option (Owned Unit))) :=
  fun space p =>
    let (mtree, ledger) := space.ledger.mallocs 3
    .ok (⟨space.object, ledger⟩, some (mtree, p))

/-- How many layers `merkle_tree_recalc` computes over `count` items. -/
def merkleLayersCount : Nat → Nat → Nat
  | 0, _ => 0
  | layers + 1, count =>
      if (count + 1) / 2 = 1 then 1 else merkleLayersCount layers ((count + 1) / 2) + 1

/-- `merkle_tree_recalc`: an array for each layer, if there is more than one item. -/
def merkleTreeRecalcLayers {T : Type} (count : Nat) (mtree : List (Option (Owned Unit))) :
    Attempt (Workspace T) UInt8 (List (Option (Owned Unit))) := fun space p =>
  let (layers, ledger) :=
    space.ledger.mallocs (if count ≤ 1 then 0 else merkleLayersCount merkleTreeMaxLayers count)
  .ok (⟨space.object, ledger⟩, some (layers ++ mtree, p))

/-- `uint256_merkle_tree_free` -/
def merkleTreeFree {T : Type} (mtree : List (Option (Owned Unit))) :
    Attempt (Workspace T) UInt8 Unit := fun space p => do
  let ledger ← space.ledger.frees mtree
  .ok (⟨space.object, ledger⟩, some ((), p))

/-! ## Parsing -/

/-- One turn of the loop over the transactions. -/
def parseTx (crypto : CryptoBackend) : Attempt (Workspace TxRecord) UInt8 Unit := fun space p => do
  let (space, outcome) ← satoshiTxParse crypto space p
  match outcome with
  | none => .ok (space, none)
  | some size => .ok (space, if 0 < size then some ((), p.drop size) else none)

/-- The array of transactions with its count, and the merkle tree of their ids. -/
def parseTxns (crypto : CryptoBackend) :
    Attempt (Workspace BlockRecord) UInt8 (List (Option (Owned Unit))) := do
  let txnCount ← read Tx.parseVarint
  write fun block => { block with txnCount }
  read (require (0 < txnCount))
  let txns ← calloc txZero txnCount.toNat BlockRecord.setTxns
  let mtree ← merkleTreeNew
  fill txns BlockRecord.setTxns (element (parseTx crypto))
  pure mtree

/-- The root of the merkle tree is compared after the tree was released. -/
def verifyMerkleRoot (crypto : CryptoBackend) (mtree : List (Option (Owned Unit))) :
    Attempt (Workspace BlockRecord) UInt8 Unit := do
  let space ← current
  let txids := ((space.object.txns.map Owned.content).getD []).map TxRecord.txid
  let mtree ← merkleTreeRecalcLayers txids.length mtree
  merkleTreeFree mtree
  read (require (space.object.hdr.merkleRoot = merkleTreeRecalc crypto txids))

/-- The body of `satoshi_block_parse`. -/
def blockAttempt (crypto : CryptoBackend) (stale : Uint256) :
    Attempt (Workspace BlockRecord) UInt8 Unit := do
  let payload ← read remaining
  let hdr ← read (take 80)
  write fun block => { block with hdr := headerOfBytes hdr }
  let space ← current
  let verified := satoshiBlockHeaderVerify crypto stale space.object.hdr
  write fun block => { block with hash := verified.2 }
  read (require (verified.1 = 0))
  -- a header without transactions
  if payload.length = 80 then pure ()
  else do
    let mtree ← parseTxns crypto
    verifyMerkleRoot crypto mtree

/-- `satoshi_block_parse` into an object: the number of bytes read, `none` for `-1`. -/
def satoshiBlockParse (crypto : CryptoBackend) (stale : Uint256) (space : Workspace BlockRecord)
    (payload : Bytes) : Exec (Workspace BlockRecord × Option Nat) := do
  Exec.assert (0 < payload.length)
  let space ← space.clean satoshiBlockCleanup
  let (space, outcome) ←
    cleaning (Workspace.clean satoshiBlockCleanup) (blockAttempt crypto stale) space payload
  match outcome with
  | none => .ok (space, none)
  | some (_, rest) => do
      let size := payload.length - rest.length
      Exec.assert (size ≤ Tx.maxBlockSerializedSize)
      .ok (space, some size)

end BitcoinClib.Block.Memory
