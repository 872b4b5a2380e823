import BitcoinClib.Chains.Types
import BitcoinClib.Tx.Codec

/-!
Contract: the wire format of blocks, with `satoshi-block.c`, `merkle_tree.c` and the part of
`compact_int.c` they use.

Owns:
- the 80 bytes of a block header and `satoshi_block_header_verify`;
- `merkle_tree_recalc`;
- `satoshi_block_parse` and `satoshi_block_serialize`.

`satoshi_block_header_verify` stores the hash of the header in the caller's buffer but compares
a local array that it never writes: the bytes found there are the parameter `stale`.
-/

namespace BitcoinClib.Block

open BitcoinClib.Lib
open BitcoinClib.Types
open BitcoinClib.Crypto
open BitcoinClib.Chains
open BitcoinClib.Tx

/-! ## Headers -/

abbrev BlockHeader := SatoshiBlockHeader Uint256

/-- The 80 bytes of the record in memory. -/
def headerBytes (hdr : BlockHeader) : Bytes :=
  leBytes 4 hdr.version.toUInt32.toNat ++ hdr.prevHash.val ++ hdr.merkleRoot.val ++
    leBytes 4 hdr.timestamp.toNat ++ leBytes 4 hdr.bits.toNat ++ leBytes 4 hdr.nonce.toNat

def headerOfBytes (bytes : Bytes) : BlockHeader where
  version := (uint32OfBytes (bytes.take 4)).toInt32
  prevHash := uint256OfBytes ((bytes.drop 4).take 32)
  merkleRoot := uint256OfBytes ((bytes.drop 36).take 32)
  timestamp := uint32OfBytes ((bytes.drop 68).take 4)
  bits := uint32OfBytes ((bytes.drop 72).take 4)
  nonce := uint32OfBytes (bytes.drop 76)

/-- `uint256_NaN` -/
def uint256NaN : Uint256 := ⟨List.replicate 32 0xff, List.length_replicate⟩

/-- `compact_to_uint256` -/
def compactToUint256 (bits : UInt32) : Uint256 :=
  let exp := bits.toNat / 2 ^ 24
  let mantissa := leBytes 3 (bits.toNat % 2 ^ 24)
  if 32 < exp then uint256NaN
  else
    let numZeros := 32 - exp
    let numBytes := if exp < 3 then exp else 3
    let numBytes := if 32 ≤ numZeros + numBytes then 32 - numZeros else numBytes
    uint256OfBytes (List.replicate (exp - numBytes) 0 ++ mantissa.take numBytes ++
      List.replicate numZeros 0)

/-- `uint256_compare`: four words, the most significant one first. -/
def uint256Compare (a b : Uint256) : Int :=
  let word (hash : Uint256) (index : Nat) := leValue ((hash.val.drop (8 * index)).take 8)
  let compareWords : List Nat → Int := List.foldr (fun index others =>
    if word a index = word b index then others
    else if word b index < word a index then 1 else -1) 0
  compareWords [3, 2, 1, 0]

/-- `uint256_compare_with_compact` -/
def uint256CompareWithCompact (hash : Uint256) (bits : UInt32) : Int :=
  uint256Compare hash (compactToUint256 bits)

/-- `satoshi_block_header_verify` with a buffer for the hash. -/
def satoshiBlockHeaderVerify (crypto : CryptoBackend) (stale : Uint256) (hdr : BlockHeader) :
    Int × Uint256 :=
  let hash := hash256 crypto (headerBytes hdr)
  let compareDiff := uint256CompareWithCompact stale hdr.bits
  (if 0 < compareDiff then -1 else 0, hash)

/-! ## Merkle tree -/

/-- One layer over another; the last hash of an odd layer is taken twice. -/
def merkleLayer (crypto : CryptoBackend) : List Uint256 → List Uint256
  | [] => []
  | [last] => [hash256 crypto (last.val ++ last.val)]
  | left :: right :: items => hash256 crypto (left.val ++ right.val) :: merkleLayer crypto items

/-- The loop over the layers; the root stays zero when all of them are used up. -/
def merkleLayers (crypto : CryptoBackend) : Nat → List Uint256 → Uint256
  | 0, _ => uint256Zero
  | layers + 1, items =>
      match merkleLayer crypto items with
      | [root] => root
      | layer => merkleLayers crypto layers layer

/-- `MERKLE_TREE_MAX_LAYERS` -/
def merkleTreeMaxLayers : Nat := 32

/-- `merkle_tree_recalc` over the whole tree. -/
def merkleTreeRecalc (crypto : CryptoBackend) : List Uint256 → Uint256
  | [] => uint256Zero
  | [item] => item
  | items => merkleLayers crypto merkleTreeMaxLayers items

/-! ## Blocks -/

/-- `satoshi_block_t`; the count is the length of the array. -/
structure BlockObject where
  hdr : BlockHeader
  txns : List TxObject
  hash : Uint256
deriving DecidableEq

open Parser

/-- `satoshi_tx_parse` on what is left of a block. -/
def satoshiTxReader (crypto : CryptoBackend) : Parser UInt8 TxObject := fun p => do
  let outcome ← satoshiTxParse crypto p
  match outcome with
  | none => .ok none
  | some (tx, size) => if 0 < size then .ok (some (tx, p.drop size)) else .ok none

/-- The array of transactions with its count. -/
def parseTxns (crypto : CryptoBackend) : Parser UInt8 (List TxObject) := do
  let txnCount ← parseVarint
  require (0 < txnCount)
  many (element (satoshiTxReader crypto)) txnCount.toNat

/-- The body of `satoshi_block_parse`. -/
def blockParser (crypto : CryptoBackend) (stale : Uint256) : Parser UInt8 BlockObject := do
  let payload ← remaining
  let hdr ← take 80
  let hdr := headerOfBytes hdr
  let verified := satoshiBlockHeaderVerify crypto stale hdr
  require (verified.1 = 0)
  -- a header without transactions
  if payload.length = 80 then pure ⟨hdr, [], verified.2⟩
  else do
    let txns ← parseTxns crypto
    require (hdr.merkleRoot = merkleTreeRecalc crypto (txns.map TxObject.txid))
    pure ⟨hdr, txns, verified.2⟩

/-- `satoshi_block_parse`: the object and the number of bytes read, `none` for `-1`. -/
def satoshiBlockParse (crypto : CryptoBackend) (stale : Uint256) (payload : Bytes) :
    Exec (Option (BlockObject × Nat)) := do
  Exec.assert (0 < payload.length)
  let outcome ← blockParser crypto stale payload
  match outcome with
  | none => .ok none
  | some (block, rest) => do
      let size := payload.length - rest.length
      Exec.assert (size ≤ maxBlockSerializedSize)
      .ok (some (block, size))

/-- `satoshi_block_serialize` into a buffer of its own. -/
def satoshiBlockSerialize (block : BlockObject) : Exec Bytes := do
  let txns ← serializeAll satoshiTxSerialize block.txns
  let counted := if 0 < block.txns.length then varintSetData block.txns.length ++ txns else []
  let bytes := headerBytes block.hdr ++ counted
  Exec.assert (bytes.length ≤ maxBlockSerializedSize)
  .ok bytes

end BitcoinClib.Block
