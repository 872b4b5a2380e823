import BitcoinClib.Crypto.Context
import BitcoinClib.Types.Transaction

/-!
Contract: signature digests over an attached transaction
(`satoshi-tx.c`, `segwit-tx.c`).

Owns:
- `SatoshiRawtx`, the state kept between digest calls: two running SHA
  contexts, the index of the last hashed input, and the saved hash of all
  outputs;
- `satoshiRawtxAttach` and the three digest functions.

A digest function returns `none` where the source returns `-1`, together with
the state it leaves behind. `raw_txins` is not a separate array: it holds the
outpoints and sequences of `tx->txins` with empty scripts, and the one entry
that is replaced during a call is restored before the call ends.
-/

namespace BitcoinClib.Tx

open BitcoinClib.Lib
open BitcoinClib.Types
open BitcoinClib.Crypto

/-- `satoshi_rawtx_t` -/
structure SatoshiRawtx where
  /-- `sha[0]`, the context for legacy inputs -/
  shaLegacy : Bytes
  /-- `sha[1]`, the context for witness inputs -/
  shaSegwit : Bytes
  lastHashedTxinIndex : Int
  txoutsHash : Uint256
deriving DecidableEq, Repr

/-! ## Signature hash types -/

/-- `satoshi_tx_sighash_all` -/
def sighashAll : UInt32 := 1

/-- `satoshi_tx_sighash_none` -/
def sighashNone : UInt32 := 2

/-- `satoshi_tx_sighash_single` -/
def sighashSingle : UInt32 := 3

/-- `satoshi_tx_sighash_masks` -/
def sighashMasks : UInt32 := 0x1f

/-- `satoshi_tx_sighash_anyone_can_pay` -/
def sighashAnyoneCanPay : UInt32 := 0x80

/-! ## Pieces of the preimages -/

/-- One input as it is hashed: outpoint, script with its length prefix, sequence. -/
def rawTxinBytes (txin : SatoshiTxin) (scripts : Bytes) : Bytes :=
  txin.outpoint.bytes ++ scripts ++ txin.sequenceBytes

/-- Inputs hashed with `varstr_empty` in place of their scripts. -/
def emptyTxinsBytes (txins : List SatoshiTxin) : Bytes :=
  txins.flatMap fun txin => rawTxinBytes txin varstrEmpty

/-- One output as it is hashed: value, script with its length prefix. -/
def txoutBytes (txout : SatoshiTxout) : Bytes :=
  txout.valueBytes ++ txout.scripts.vch

/-- `prehash_prevouts`: what is appended to the running context. -/
def prehashPrevouts (crypto : CryptoBackend) (txins : List SatoshiTxin) : Bytes :=
  if txins.isEmpty then uint256Zero.val
  else (hash256 crypto (txins.flatMap fun txin => txin.outpoint.bytes)).val

/-- `prehash_sequences`: what is appended to the running context. -/
def prehashSequences (crypto : CryptoBackend) (txins : List SatoshiTxin) : Bytes :=
  if txins.isEmpty then uint256Zero.val
  else (hash256 crypto (txins.flatMap fun txin => txin.sequenceBytes)).val

/-- `prehash_outputs` for a non-empty list: the hash that is saved or appended. -/
def prehashOutputs (crypto : CryptoBackend) (txouts : List SatoshiTxout) : Uint256 :=
  hash256 crypto (txouts.flatMap txoutBytes)

/-! ## Attaching a transaction -/

/-- `satoshi_rawtx_attach_segwit_tx`: the context and the outputs hash it prepares. -/
def satoshiRawtxAttachSegwitTx (crypto : CryptoBackend) (tx : SatoshiTx) :
    Exec (Bytes × Uint256) := do
  Exec.assert (tx.flag = (0, 1))
  Exec.assert (0 < tx.txins.length)
  Exec.assert (0 < tx.txouts.length)
  let sha := tx.versionBytes ++ prehashPrevouts crypto tx.txins
    ++ prehashSequences crypto tx.txins
  return (sha, prehashOutputs crypto tx.txouts)

/-- `satoshi_rawtx_attach`. The record is zeroed by its owner beforehand. -/
def satoshiRawtxAttach (crypto : CryptoBackend) (tx : SatoshiTx) : Exec SatoshiRawtx := do
  Exec.assert (0 < tx.txins.length)
  let (shaSegwit, txoutsHash) ←
    if tx.hasFlag then satoshiRawtxAttachSegwitTx crypto tx else .ok ([], uint256Zero)
  return {
    shaLegacy := tx.versionBytes ++ varintSetData tx.txins.length
    shaSegwit := shaSegwit
    lastHashedTxinIndex := 0
    txoutsHash := txoutsHash }

/-! ## Legacy digest -/

/-- The part of the legacy preimage after the inputs, for a hash type without its
ANYONECANPAY bit: the outputs. `none` where the source returns `-1`. -/
def legacyOutputsBytes (tx : SatoshiTx) (curIndex : Nat) (hashType : UInt32) : Option Bytes :=
  if hashType = sighashAll then
    some (varintSetData tx.txouts.length ++ tx.txouts.flatMap txoutBytes)
  else if hashType = sighashSingle then
    match tx.txouts[curIndex]? with
    | none => none
    | some txout => some (txoutBytes txout)
  else
    some []

/-- `satoshi_utxo_get_digest` -/
def satoshiUtxoGetDigest (crypto : CryptoBackend) (tx : SatoshiTx) (txin : TxinState)
    (rawtx : SatoshiRawtx) (curIndex : Nat) (hashType : UInt32) :
    Exec (Option Uint256 × SatoshiRawtx) := do
  let curTxin ←
    match tx.txins[curIndex]? with
    | none => Exec.fault .assertion
    | some curTxin => .ok curTxin
  Exec.assert (rawtx.lastHashedTxinIndex < tx.txins.length)
  let anyoneCanpay := hashType &&& sighashAnyoneCanPay
  let hashType := hashType &&& ~~~sighashAnyoneCanPay
  let lastHashed := rawtx.lastHashedTxinIndex.toNat
  Exec.assert (lastHashed ≤ curIndex)
  -- a NULL `redeem_scripts` is asserted against or dereferenced on every path below
  let redeemScripts ← Exec.deref (satoshiTxinGetRedeemScripts txin)
  let (sha, rawtx) :=
    if anyoneCanpay ≠ 0 then
      (tx.versionBytes ++ rawTxinBytes curTxin redeemScripts,
        { rawtx with lastHashedTxinIndex := lastHashed })
    else
      let absorbed := rawtx.shaLegacy
        ++ emptyTxinsBytes ((tx.txins.take curIndex).drop lastHashed)
      (absorbed ++ rawTxinBytes curTxin redeemScripts
          ++ emptyTxinsBytes (tx.txins.drop (curIndex + 1)),
        { rawtx with
          shaLegacy := absorbed
          lastHashedTxinIndex := (curIndex : Int) - 1 })
  match legacyOutputsBytes tx curIndex hashType with
  | none => return (none, rawtx)
  | some outputs =>
      let sha := sha ++ outputs ++ tx.lockTimeBytes
        ++ leBytes 4 (hashType ||| anyoneCanpay).toNat
      return (some (hash256 crypto sha), rawtx)

/-! ## Witness digest -/

/-- Step 8 of the witness preimage. An unknown hash type runs into `abort()`. -/
def segwitOutputsBytes (crypto : CryptoBackend) (tx : SatoshiTx) (rawtx : SatoshiRawtx)
    (curIndex : Nat) (hashType : UInt32) : Exec Bytes :=
  if hashType = sighashAll then .ok rawtx.txoutsHash.val
  else if hashType = sighashNone then .ok uint256Zero.val
  else if hashType = sighashSingle then
    match tx.txouts[curIndex]? with
    | none => .ok uint256Zero.val
    | some txout => .ok (prehashOutputs crypto [txout]).val
  else .fault .assertion

/-- Steps 1 to 3 of the witness preimage. -/
def segwitCommonBytes (crypto : CryptoBackend) (tx : SatoshiTx) (rawtx : SatoshiRawtx)
    (hashType anyoneCanpay : UInt32) : Bytes :=
  if anyoneCanpay ≠ 0 then
    tx.versionBytes ++ uint256Zero.val ++ uint256Zero.val
  else if hashType = sighashAll then
    rawtx.shaSegwit
  else
    tx.versionBytes ++ prehashPrevouts crypto tx.txins
      ++ (if hashType = sighashNone ∨ hashType = sighashSingle then uint256Zero.val
          else prehashSequences crypto tx.txins)

/-- `segwit_utxo_get_digest` -/
def segwitUtxoGetDigest (crypto : CryptoBackend) (tx : SatoshiTx) (txin : TxinState)
    (rawtx : SatoshiRawtx) (curIndex : Nat) (hashType : UInt32) (utxo : SatoshiTxout) :
    Exec (Option Uint256 × SatoshiRawtx) := do
  let curTxin ←
    match tx.txins[curIndex]? with
    | none => Exec.fault .assertion
    | some curTxin => .ok curTxin
  let anyoneCanpay := hashType &&& 0x80
  let hashType := hashType &&& sighashMasks
  let common := segwitCommonBytes crypto tx rawtx hashType anyoneCanpay
  let redeemScripts ←
    match satoshiTxinGetRedeemScripts txin with
    | none => Exec.fault .assertion
    | some redeemScripts => .ok redeemScripts
  let outputs ← segwitOutputsBytes crypto tx rawtx curIndex hashType
  let sha := common ++ curTxin.outpoint.bytes ++ redeemScripts ++ utxo.valueBytes
    ++ curTxin.sequenceBytes ++ outputs ++ tx.lockTimeBytes
    ++ leBytes 4 (hashType ||| anyoneCanpay).toNat
  return (some (hash256 crypto sha), rawtx)

/-! ## Dispatch -/

/-- `satoshi_rawtx_get_digest`: `flags` are the current `utxo->flags`. -/
def satoshiRawtxGetDigest (crypto : CryptoBackend) (tx : SatoshiTx) (txin : TxinState)
    (rawtx : SatoshiRawtx) (curIndex : Nat) (hashType : UInt32) (utxo : SatoshiTxout)
    (flags : UInt32) : Exec (Option Uint256 × SatoshiRawtx) :=
  let kind := flags &&& txoutTypeMasks
  if flags &&& txoutTypeP2shSegwitFlags ≠ 0 ∨ kind = txoutTypeSegwit then
    segwitUtxoGetDigest crypto tx txin rawtx curIndex hashType utxo
  else if kind = txoutTypeLegacy then
    satoshiUtxoGetDigest crypto tx txin rawtx curIndex hashType
  else .ok (none, rawtx)

end BitcoinClib.Tx
