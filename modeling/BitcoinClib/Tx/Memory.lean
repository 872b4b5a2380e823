import BitcoinClib.Lib.Attempt
import BitcoinClib.Tx.Codec

/-!
Contract: transaction objects in memory, and how `satoshi_tx_parse` fills them.

Owns:
- the records of `satoshi-types.h` with their pointers;
- `satoshi_txin_cleanup`, `satoshi_txout_cleanup`, `bitcoin_tx_witness_cleanup` and
  `satoshi_tx_cleanup`;
- `satoshi_txin_parse`, `satoshi_txout_parse` and `satoshi_tx_parse` into the caller's object,
  with the streaming hash of the txid and the cleanup behind `label_error`.

Arrays come from `calloc`, scripts and witness items from `varstr_clone`; allocations succeed.
-/

namespace BitcoinClib.Tx.Memory

open BitcoinClib.Lib
open BitcoinClib.Lib.Parser (remaining require take lift)
open BitcoinClib.Lib.Attempt
open BitcoinClib.Types
open BitcoinClib.Crypto

/-! ## Records -/

/-- `varstr_t *` -/
abbrev VarstrPtr := Option (Owned Bytes)

/-- `satoshi_txin_t`. -/
structure TxinRecord where
  outpoint : SatoshiOutpoint
  isCoinbase : Bool
  scripts : VarstrPtr
  cbScripts : Nat
  sequence : UInt32
  numSignatures : Int
  signatures : Option (Owned (List VarstrPtr))
  redeemScripts : VarstrPtr
deriving DecidableEq

/-- `satoshi_txout_t`. -/
structure TxoutRecord where
  value : Int64
  scripts : VarstrPtr
  flags : UInt32
deriving DecidableEq

/-- `bitcoin_tx_witness_t`. -/
structure WitnessRecord where
  numItems : Int
  items : Option (Owned (List VarstrPtr))
deriving DecidableEq

/-- `satoshi_tx_t`. -/
structure TxRecord where
  version : Int32
  hasFlag : Bool
  flag : UInt8 × UInt8
  txinCount : Int
  txins : Option (Owned (List TxinRecord))
  txoutCount : Int
  txouts : Option (Owned (List TxoutRecord))
  cbWitnesses : Int
  witnesses : Option (Owned (List WitnessRecord))
  lockTime : UInt32
  txid : Uint256
  wtxid : Uint256
deriving DecidableEq

/-! ### Zeroed records -/

def txinZero : TxinRecord := ⟨⟨uint256Zero, 0⟩, false, none, 0, 0, 0, none, none⟩

def txoutZero : TxoutRecord := ⟨0, none, 0⟩

def witnessZero : WitnessRecord := ⟨0, none⟩

def txZero : TxRecord := ⟨0, false, (0, 0), 0, none, 0, none, 0, none, 0, uint256Zero, uint256Zero⟩

/-! ### Pointers to arrays -/

def WitnessRecord.setItems (items : Owned (List VarstrPtr)) (witness : WitnessRecord) :
    WitnessRecord :=
  { witness with items := some items }

def TxRecord.setTxins (txins : Owned (List TxinRecord)) (tx : TxRecord) : TxRecord :=
  { tx with txins := some txins }

def TxRecord.setTxouts (txouts : Owned (List TxoutRecord)) (tx : TxRecord) : TxRecord :=
  { tx with txouts := some txouts }

def TxRecord.setWitnesses (witnesses : Owned (List WitnessRecord)) (tx : TxRecord) : TxRecord :=
  { tx with witnesses := some witnesses }

/-- `tx->has_flag = 1; tx->flag[0] = p[0]; tx->flag[1] = p[1]`, behind a marker. -/
def TxRecord.mark (marked : Bool) (tx : TxRecord) : TxRecord :=
  if marked then { tx with hasFlag := true, flag := (0, 1) } else tx

/-! ## Cleanup -/

/-- `varstr_free` of a pointer in an array that is released afterwards. -/
def varstrFree (vstr : VarstrPtr) (ledger : Ledger) : Exec (VarstrPtr × Ledger) := do
  let ledger ← ledger.free vstr
  .ok (vstr, ledger)

/-- `satoshi_txin_cleanup`; the pointer to the signatures stays. -/
def satoshiTxinCleanup (txin : TxinRecord) (ledger : Ledger) : Exec (TxinRecord × Ledger) := do
  let ledger ← ledger.free txin.scripts
  let ledger ← ledger.freeArray varstrFree txin.numSignatures txin.signatures
  let ledger ← ledger.free txin.redeemScripts
  .ok ({ txin with scripts := none, redeemScripts := none }, ledger)

/-- `satoshi_txout_cleanup` -/
def satoshiTxoutCleanup (txout : TxoutRecord) (ledger : Ledger) : Exec (TxoutRecord × Ledger) := do
  let ledger ← ledger.free txout.scripts
  .ok ({ txout with scripts := none }, ledger)

/-- `bitcoin_tx_witness_cleanup`; the loop follows `items` also when it is NULL. -/
def bitcoinTxWitnessCleanup (witness : WitnessRecord) (ledger : Ledger) :
    Exec (WitnessRecord × Ledger) :=
  if 0 < witness.numItems ∧ witness.items = none then .fault .pointer
  else do
    let ledger ← ledger.freeArray varstrFree witness.numItems witness.items
    .ok (⟨0, none⟩, ledger)

/-- `satoshi_tx_cleanup` -/
def satoshiTxCleanup (tx : TxRecord) (ledger : Ledger) : Exec (TxRecord × Ledger) := do
  let witnesses := if tx.hasFlag then tx.witnesses else none
  let ledger ← ledger.freeArray bitcoinTxWitnessCleanup tx.txinCount witnesses
  let ledger ← ledger.freeArray satoshiTxinCleanup tx.txinCount tx.txins
  let ledger ← ledger.freeArray satoshiTxoutCleanup tx.txoutCount tx.txouts
  .ok ({ tx with
    witnesses := if tx.hasFlag then none else tx.witnesses
    txinCount := if tx.txins.isSome then 0 else tx.txinCount
    txins := none
    txoutCount := if tx.txouts.isSome then 0 else tx.txoutCount
    txouts := none }, ledger)

/-! ## Parsing -/

/-- `satoshi_txin_parse` -/
def satoshiTxinParse : Attempt (Workspace TxinRecord) UInt8 Unit :=
  cleaning (Workspace.clean satoshiTxinCleanup) do
    let outpoint ← read (take 36)
    write fun txin => { txin with
      outpoint := outpointOfBytes outpoint
      isCoinbase := outpointOfBytes outpoint = coinbaseOutpoint }
    let scripts ← read parseScripts
    allocate scripts fun vstr txin => { txin with
      scripts := some vstr
      cbScripts := varintGet scripts }
    let sequence ← read (take 4)
    write fun txin => { txin with sequence := uint32OfBytes sequence }

/-- `satoshi_txout_parse` -/
def satoshiTxoutParse : Attempt (Workspace TxoutRecord) UInt8 Unit :=
  cleaning (Workspace.clean satoshiTxoutCleanup) do
    let value ← read (take 8)
    write fun txout => { txout with value := (UInt64.ofNat (leValue value)).toInt64 }
    let p ← read remaining
    read (require (p ≠ []))
    let scripts ← read parseScripts
    allocate scripts fun vstr txout => { txout with scripts := some vstr }
    let byte ← read (lift (firstScriptByte scripts))
    write fun txout => { txout with
      flags := if byte ≤ 16 then txoutTypeSegwit else txoutTypeLegacy }

/-- An element of an array: the loop rejects when nothing is left. -/
def element {S : Type} (entry : Attempt S UInt8 Unit) : Attempt S UInt8 Unit := do
  let p ← read remaining
  read (require (p ≠ []))
  entry

/-- One witness item. -/
def parseItem : Attempt (Workspace VarstrPtr) UInt8 Unit := do
  let vstr ← read parseVarstr
  allocate vstr fun item _ => some item

/-- The witness items of one input. -/
def parseWitness : Attempt (Workspace WitnessRecord) UInt8 Unit := do
  let numItems ← read parseVarint
  write fun witness => { witness with numItems }
  if 0 < numItems then do
    let items ← calloc none numItems.toNat WitnessRecord.setItems
    fill items WitnessRecord.setItems parseItem
  else pure ()

/-- An array with its count; what goes into the hash is the prefix and then the range of the
entries. -/
def parseCounted {T α : Type} (zero : α) (setCount : Int → T → T)
    (setArray : Owned (List α) → T → T) (entry : Attempt (Workspace α) UInt8 Unit) :
    Attempt (Workspace T) UInt8 Bytes := do
  let vint ← read remaining
  let count ← read parseVarint
  write (setCount count)
  read (require (0 < count))
  let array ← calloc zero count.toNat setArray
  let data ← read remaining
  fill array setArray (element entry)
  let p ← read remaining
  pure (vint.take (varintSize vint) ++ consumed data p)

/-- The array of inputs with its count. -/
def parseTxins : Attempt (Workspace TxRecord) UInt8 Bytes := do
  let p ← read remaining
  read (require (p ≠ []))
  parseCounted txinZero (fun txinCount tx => { tx with txinCount }) TxRecord.setTxins
    satoshiTxinParse

/-- The array of outputs with its count. -/
def parseTxouts : Attempt (Workspace TxRecord) UInt8 Bytes :=
  parseCounted txoutZero (fun txoutCount tx => { tx with txoutCount }) TxRecord.setTxouts
    satoshiTxoutParse

/-- The witness section, if more than a lock time is left. -/
def parseWitnesses : Attempt (Workspace TxRecord) UInt8 Unit := do
  write fun tx => { tx with cbWitnesses := 0 }
  let space ← current
  let p ← read remaining
  if space.object.hasFlag = true ∧ 4 < p.length then do
    read (lift (Exec.assert (0 < space.object.txinCount)))
    let witnesses ← calloc witnessZero space.object.txinCount.toNat TxRecord.setWitnesses
    fill witnesses TxRecord.setWitnesses parseWitness
    let now ← read remaining
    write fun tx => { tx with cbWitnesses := (p.length - now.length : Nat) }
  else pure ()

/-- The body of `satoshi_tx_parse`: the number of bytes read. -/
def txAttempt (crypto : CryptoBackend) : Attempt (Workspace TxRecord) UInt8 Nat := do
  let payload ← read remaining
  let version ← read (take 4)
  write fun tx => { tx with version := (uint32OfBytes version).toInt32 }
  let space ← current
  -- hash [nVersion]
  let sha := leBytes 4 space.object.version.toUInt32.toNat
  let marked ← read parseMarker
  write (TxRecord.mark marked)
  let txins ← parseTxins
  -- hash [txins]
  let sha := sha ++ txins
  let txouts ← parseTxouts
  -- hash [txouts]
  let sha := sha ++ txouts
  parseWitnesses
  let lockTime ← read (take 4)
  write fun tx => { tx with lockTime := uint32OfBytes lockTime }
  let space ← current
  -- hash [nLockTime]
  let sha := sha ++ leBytes 4 space.object.lockTime.toNat
  write fun tx => { tx with txid := crypto.sha256 sha }
  write fun tx => { tx with txid := crypto.sha256 tx.txid.val }
  let p ← read remaining
  write fun tx => { tx with
    wtxid := if tx.hasFlag then hash256 crypto (consumed payload p) else tx.wtxid }
  pure (payload.length - p.length)

/-- `satoshi_tx_parse` into an object: the number of bytes read, `none` for `-1`. -/
def satoshiTxParse (crypto : CryptoBackend) (space : Workspace TxRecord) (payload : Bytes) :
    Exec (Workspace TxRecord × Option Nat) := do
  Exec.assert (0 < payload.length ∧ payload.length ≤ maxBlockSerializedSize)
  let (space, outcome) ← cleaning (Workspace.clean satoshiTxCleanup) (txAttempt crypto) space payload
  .ok (space, outcome.map Prod.fst)

end BitcoinClib.Tx.Memory
