import BitcoinClib.Lib.Parser
import BitcoinClib.Crypto.Context
import BitcoinClib.Types.Transaction

/-!
Contract: the wire format of transactions, as `satoshi-tx.c` and `satoshi-types.c` read and
write it.

Owns:
- the transaction object with its `varstr_t` buffers as they are allocated;
- `satoshi_txin_parse`, `satoshi_txout_parse` and `satoshi_tx_parse`;
- `satoshi_txin_serialize`, `satoshi_txout_serialize` and `satoshi_tx_serialize`.

Reading behind the input or behind an allocated buffer is a fault. Allocations succeed. An
object is zeroed before it is parsed into.
-/

namespace BitcoinClib.Tx

open BitcoinClib.Lib
open BitcoinClib.Types
open BitcoinClib.Crypto

/-! ## Objects -/

/-- `satoshi_txin_t`; `scripts` is the whole `varstr_t` buffer. -/
structure TxinObject where
  outpoint : SatoshiOutpoint
  isCoinbase : Bool
  scripts : Bytes
  cbScripts : Nat
  sequence : UInt32
deriving DecidableEq

/-- `satoshi_txout_t`. -/
structure TxoutObject where
  value : Int64
  scripts : Bytes
  flags : UInt32
deriving DecidableEq

/-- `bitcoin_tx_witness_t`; the array of items may be NULL. -/
structure WitnessObject where
  numItems : Int
  items : Option (List Bytes)
deriving DecidableEq

/-- `satoshi_tx_t`; the counts are the lengths of the arrays. -/
structure TxObject where
  version : Int32
  hasFlag : Bool
  flag : UInt8 × UInt8
  txins : List TxinObject
  txouts : List TxoutObject
  witnesses : Option (List WitnessObject)
  cbWitnesses : Nat
  lockTime : UInt32
  txid : Uint256
  wtxid : Uint256
deriving DecidableEq

/-- `MAX_BLOCK_SERIALIZED_SIZE` -/
def maxBlockSerializedSize : Nat := 4 * 1000 * 1000

/-- Fields of a record in memory. -/
def uint256OfBytes (bytes : Bytes) : Uint256 :=
  if width : bytes.length = 32 then ⟨bytes, width⟩ else uint256Zero

def uint32OfBytes (bytes : Bytes) : UInt32 := .ofNat (leValue bytes)

def outpointOfBytes (bytes : Bytes) : SatoshiOutpoint :=
  ⟨uint256OfBytes (bytes.take 32), uint32OfBytes (bytes.drop 32)⟩

/-- `s_coinbase_outpoint` -/
def coinbaseOutpoint : SatoshiOutpoint := ⟨uint256Zero, 0xffffffff⟩

/-! ## Length prefixes in memory -/

/-- `varint_get` on a buffer. -/
def readVarint (p : Bytes) : Exec Nat :=
  if p = [] ∨ p.length < varintSize p then .fault .bounds else .ok (varintGet p)

/-- `varstr_size` on a buffer, a `size_t`. -/
def readVarstrSize (p : Bytes) : Exec Nat := do
  let length ← readVarint p
  .ok ((varintSize p + length) % 2 ^ 64)

/-- A `uint64_t` stored in an `ssize_t`. -/
def ssizeOf (value : Nat) : Int := if value < 2 ^ 63 then value else (value : Int) - 2 ^ 64

open Parser

/-- `parse_varint` -/
def parseVarint : Parser UInt8 Int := do
  let p ← remaining
  require (p ≠ [])
  let vint ← take (varintSize p)
  pure (ssizeOf (varintGet vint))

/-- `parse_varstr`; for a size from `2^63` on the sum of pointers leaves the address
space. -/
def parseVarstr : Parser UInt8 Bytes := do
  let p ← remaining
  require (p ≠ [])
  let size ← lift (readVarstrSize p)
  lift (if size < 2 ^ 63 then .ok () else .fault .bounds)
  require (size ≤ p.length)
  lift (Exec.assert (0 < size))
  take size

/-- The scripts of an input or output: a negative size passes the length check and fails the
assertion of `varstr_clone`. -/
def parseScripts : Parser UInt8 Bytes := do
  let p ← remaining
  let size ← lift (readVarstrSize p)
  lift (Exec.assert (size < 2 ^ 63))
  require (size ≤ p.length)
  lift (Exec.assert (0 < size))
  let scripts ← take size
  let cloned ← lift (readVarstrSize scripts)
  lift (Exec.assert (cloned = size))
  pure scripts

/-! ## Parsing -/

/-- `satoshi_txin_parse` -/
def satoshiTxinParse : Parser UInt8 TxinObject := do
  let outpoint ← take 36
  let outpoint := outpointOfBytes outpoint
  let scripts ← parseScripts
  let sequence ← take 4
  pure {
    outpoint
    isCoinbase := outpoint = coinbaseOutpoint
    scripts
    cbScripts := varintGet scripts
    sequence := uint32OfBytes sequence }

/-- `scripts_data[0]` -/
def firstScriptByte (scripts : Bytes) : Exec UInt8 :=
  match scripts.drop (varintSize scripts) with
  | [] => .fault .bounds
  | byte :: _ => .ok byte

/-- `satoshi_txout_parse` -/
def satoshiTxoutParse : Parser UInt8 TxoutObject := do
  let value ← take 8
  let p ← remaining
  require (p ≠ [])
  let scripts ← parseScripts
  let byte ← lift (firstScriptByte scripts)
  pure {
    value := (UInt64.ofNat (leValue value)).toInt64
    scripts
    flags := if byte ≤ 16 then txoutTypeSegwit else txoutTypeLegacy }

/-- An element of an array: the loop rejects when nothing is left. -/
def element {α : Type} (reader : Parser UInt8 α) : Parser UInt8 α := do
  let p ← remaining
  require (p ≠ [])
  reader

/-- The witness items of one input. -/
def parseWitness : Parser UInt8 WitnessObject := do
  let numItems ← parseVarint
  if 0 < numItems then do
    let items ← many parseVarstr numItems.toNat
    pure ⟨numItems, some items⟩
  else pure ⟨numItems, none⟩

/-- What was read between two positions. -/
def consumed (start now : Bytes) : Bytes := start.take (start.length - now.length)

/-- The witness marker: two bytes, when the first one is zero. -/
def parseMarker : Parser UInt8 Bool := do
  let p ← remaining
  require (2 ≤ p.length)
  if p.headD 0 = 0 then do
    require (p.getD 1 0 = 1)
    let _ ← take 2
    pure true
  else pure false

/-- The array of inputs with its count. -/
def parseTxins : Parser UInt8 (List TxinObject) := do
  let p ← remaining
  require (p ≠ [])
  let txinCount ← parseVarint
  require (0 < txinCount)
  many (element satoshiTxinParse) txinCount.toNat

/-- The array of outputs with its count. -/
def parseTxouts : Parser UInt8 (List TxoutObject) := do
  let txoutCount ← parseVarint
  require (0 < txoutCount)
  many (element satoshiTxoutParse) txoutCount.toNat

/-- The witness section, if more than a lock time is left. -/
def parseWitnesses (hasFlag : Bool) (txinCount : Nat) :
    Parser UInt8 (Option (List WitnessObject)) := do
  let p ← remaining
  if hasFlag = true ∧ 4 < p.length then do
    let witnesses ← many parseWitness txinCount
    pure (some witnesses)
  else pure none

/-- The body of `satoshi_tx_parse`. -/
def txParser (crypto : CryptoBackend) : Parser UInt8 TxObject := do
  let payload ← remaining
  let version ← take 4
  let hasFlag ← parseMarker
  let txinsData ← remaining
  let txins ← parseTxins
  let txoutsData ← remaining
  let txouts ← parseTxouts
  let witnessesData ← remaining
  let witnesses ← parseWitnesses hasFlag txins.length
  let lockTimeData ← remaining
  let lockTime ← take 4
  let rest ← remaining
  pure {
    version := (uint32OfBytes version).toInt32
    hasFlag
    flag := if hasFlag then (0, 1) else (0, 0)
    txins
    txouts
    witnesses
    cbWitnesses := witnessesData.length - lockTimeData.length
    lockTime := uint32OfBytes lockTime
    txid := hash256 crypto (version ++ consumed txinsData txoutsData ++
      consumed txoutsData witnessesData ++ lockTime)
    wtxid := if hasFlag then hash256 crypto (consumed payload rest) else uint256Zero }

/-- `satoshi_tx_parse`: the object and the number of bytes read, `none` for `-1`. -/
def satoshiTxParse (crypto : CryptoBackend) (payload : Bytes) : Exec (Option (TxObject × Nat)) := do
  Exec.assert (0 < payload.length ∧ payload.length ≤ maxBlockSerializedSize)
  let outcome ← txParser crypto payload
  .ok (outcome.map fun (tx, rest) => (tx, payload.length - rest.length))

/-! ## Serialization -/

/-- `memcpy` of the buffer of a `varstr_t`. -/
def copyVarstr (vstr : Bytes) : Exec Bytes := do
  let size ← readVarstrSize vstr
  if size ≤ vstr.length then .ok (vstr.take size) else .fault .bounds

/-- `satoshi_txin_serialize` -/
def satoshiTxinSerialize (txin : TxinObject) : Exec Bytes := do
  let size ← readVarstrSize txin.scripts
  Exec.assert (0 < size ∧ size < 2 ^ 63)
  let scripts ← copyVarstr txin.scripts
  .ok (txin.outpoint.bytes ++ scripts ++ leBytes 4 txin.sequence.toNat)

/-- `satoshi_txout_serialize` -/
def satoshiTxoutSerialize (txout : TxoutObject) : Exec Bytes := do
  let scripts ← copyVarstr txout.scripts
  Exec.assert (scripts ≠ [])
  .ok (leBytes 8 txout.value.toUInt64.toNat ++ scripts)

/-- The records of an array one after the other. -/
def serializeAll {α : Type} (serialize : α → Exec Bytes) : List α → Exec Bytes
  | [] => .ok []
  | value :: values => do
      let first ← serialize value
      let others ← serializeAll serialize values
      .ok (first ++ others)

/-- The witness items of one input; `num_items` is written as a `uint64_t`. -/
def witnessSerialize (witness : WitnessObject) : Exec Bytes := do
  let count := varintSetData (witness.numItems % 2 ^ 64).toNat
  if witness.numItems = 0 then .ok count
  else
    match witness.items with
    | none => .fault .assertion
    | some items => do
        let data ← serializeAll copyVarstr items
        .ok (count ++ data)

/-- The witness section that `satoshi_tx_serialize` writes. The buffer ends with the lock time
behind `cb_witnesses` bytes. -/
def witnessesSerialize (tx : TxObject) : Exec Bytes :=
  match tx.witnesses with
  | none => .fault .assertion
  | some witnesses => do
      Exec.assert (0 < tx.cbWitnesses)
      let entries ← (if witnesses.length < tx.txins.length then .fault .bounds
        else .ok (witnesses.take tx.txins.length) : Exec (List WitnessObject))
      let data ← serializeAll witnessSerialize entries
      if tx.cbWitnesses + 4 < data.length then .fault .bounds
      else if data.length = tx.cbWitnesses then .ok data
      else .fault .assertion

/-- `satoshi_tx_serialize` into a buffer of its own. -/
def satoshiTxSerialize (tx : TxObject) : Exec Bytes := do
  let txins ← serializeAll satoshiTxinSerialize tx.txins
  let txouts ← serializeAll satoshiTxoutSerialize tx.txouts
  let witnesses ← if tx.hasFlag then witnessesSerialize tx else .ok []
  .ok (leBytes 4 tx.version.toUInt32.toNat ++ (if tx.hasFlag then [0, 1] else []) ++
    varintSetData tx.txins.length ++ txins ++ varintSetData tx.txouts.length ++ txouts ++
    witnesses ++ leBytes 4 tx.lockTime.toNat)

end BitcoinClib.Tx
