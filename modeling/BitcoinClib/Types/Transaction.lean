import BitcoinClib.Types.Bytes

/-!
Contract: the transaction records of `satoshi-types.h`.

Owns:
- the parsed, immutable part of a transaction (`SatoshiTx` and its parts);
- `TxinState`, the fields of `satoshi_txin_t` that are set while scripts are
  parsed, with `satoshi_txin_get_redeem_scripts` and
  `satoshi_txin_set_redeem_scripts`;
- the `utxo->flags` bits.

Does not own: wire parsing and serialization of whole transactions, or the
fields no modelled function reads (`signatures`, `txid`, `wtxid`).
-/

namespace BitcoinClib.Types

/-- `satoshi_outpoint_t` -/
structure SatoshiOutpoint where
  prevHash : Uint256
  index : UInt32
deriving DecidableEq, Repr

/-- The 36 bytes of the record in memory. -/
def SatoshiOutpoint.bytes (outpoint : SatoshiOutpoint) : Bytes :=
  outpoint.prevHash.val ++ leBytes 4 outpoint.index.toNat

/-- The fields of `satoshi_txin_t` read from the wire. -/
structure SatoshiTxin where
  outpoint : SatoshiOutpoint
  scripts : Varstr
  sequence : UInt32
deriving DecidableEq, Repr

/-- `satoshi_txout_t`; `flags` is a set of `satoshi_txout_type` bits. -/
structure SatoshiTxout where
  value : Int64
  scripts : Varstr
  flags : UInt32
deriving DecidableEq, Repr

/-- `satoshi_tx_t`. `witnesses` is the NULL-able array with one item list per input. -/
structure SatoshiTx where
  version : Int32
  hasFlag : Bool
  flag : UInt8 × UInt8
  txins : List SatoshiTxin
  txouts : List SatoshiTxout
  witnesses : Option (List (List Varstr))
  lockTime : UInt32
deriving DecidableEq, Repr

/-- Memory image of `tx->version`. -/
def SatoshiTx.versionBytes (tx : SatoshiTx) : Bytes := leBytes 4 tx.version.toUInt32.toNat

/-- Memory image of `tx->lock_time`. -/
def SatoshiTx.lockTimeBytes (tx : SatoshiTx) : Bytes := leBytes 4 tx.lockTime.toNat

/-- Memory image of `txin->sequence`. -/
def SatoshiTxin.sequenceBytes (txin : SatoshiTxin) : Bytes := leBytes 4 txin.sequence.toNat

/-- Memory image of `txout->value`. -/
def SatoshiTxout.valueBytes (txout : SatoshiTxout) : Bytes := leBytes 8 txout.value.toUInt64.toNat

/-! ## utxo flags -/

/-- `satoshi_txout_type_legacy` -/
def txoutTypeLegacy : UInt32 := 1

/-- `satoshi_txout_type_segwit` -/
def txoutTypeSegwit : UInt32 := 2

/-- `satoshi_txout_type_masks` -/
def txoutTypeMasks : UInt32 := 0x7FFF

/-- `satoshi_txout_type_p2sh_segwit_flags` -/
def txoutTypeP2shSegwitFlags : UInt32 := 0x8000

/-! ## Input state set during script parsing -/

/-- The fields of `satoshi_txin_t` that `satoshi_script->parse()` writes.
`redeemScripts` holds the data of the `varstr_t` that `varstr_new` allocates. -/
structure TxinState where
  isP2sh : Bool := false
  redeemScripts : Option Bytes := none
  redeemScriptsStartPos : Nat := 0
deriving DecidableEq, Repr

/-- `satoshi_txin_get_redeem_scripts`: a fresh `varstr` of the redeem scripts
from the start position on, NULL when nothing is left. -/
def satoshiTxinGetRedeemScripts (txin : TxinState) : Option Bytes :=
  match txin.redeemScripts with
  | none => none
  | some scripts =>
      if scripts.length ≤ txin.redeemScriptsStartPos then none
      else some (varstrNew (scripts.drop txin.redeemScriptsStartPos))

/-- `satoshi_txin_set_redeem_scripts` -/
def satoshiTxinSetRedeemScripts (txin : TxinState) (data : Bytes) : TxinState :=
  { txin with redeemScripts := some data, redeemScriptsStartPos := 0 }

end BitcoinClib.Types
