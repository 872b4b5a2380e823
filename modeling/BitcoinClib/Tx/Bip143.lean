import BitcoinClib.Tx.LegacyDigest

/-!
Contract: witness digests against the BIP143 message.

Owns:
- `bip143Preimage`, the ten fields in their order, from the transaction alone;
- `digestRun`, the state after a sequence of digest calls of any kind;
- agreement of `segwit_utxo_get_digest` with that message on every such state.

Three routes of the source lead to the message: the context saved by attaching
(ALL), a prefix that is hashed again (NONE, SINGLE) and the zero prefix
(ANYONECANPAY).
-/

namespace BitcoinClib.Tx

open BitcoinClib.Lib
open BitcoinClib.Types
open BitcoinClib.Crypto

/-! ## The message -/

/-- The hash types BIP143 distinguishes, without the ANYONECANPAY modifier. -/
inductive SighashBase where
  | all
  | none
  | single
deriving DecidableEq, Repr

def SighashBase.code : SighashBase → UInt32
  | .all => sighashAll
  | .none => sighashNone
  | .single => sighashSingle

/-- A hash type as the source receives it. -/
def sighashCode (base : SighashBase) (anyoneCanPay : Bool) : UInt32 :=
  base.code ||| (if anyoneCanPay then sighashAnyoneCanPay else 0)

/-- Field 2. -/
def hashPrevouts (crypto : CryptoBackend) (tx : SatoshiTx) (anyoneCanPay : Bool) : Uint256 :=
  if anyoneCanPay then uint256Zero
  else hash256 crypto (tx.txins.flatMap fun txin => txin.outpoint.bytes)

/-- Field 3. -/
def hashSequence (crypto : CryptoBackend) (tx : SatoshiTx) (base : SighashBase)
    (anyoneCanPay : Bool) : Uint256 :=
  if anyoneCanPay ∨ base ≠ .all then uint256Zero
  else hash256 crypto (tx.txins.flatMap fun txin => txin.sequenceBytes)

/-- Field 8. -/
def hashOutputs (crypto : CryptoBackend) (tx : SatoshiTx) (base : SighashBase)
    (curIndex : Nat) : Uint256 :=
  match base with
  | .all => hash256 crypto (tx.txouts.flatMap txoutBytes)
  | .none => uint256Zero
  | .single =>
      match tx.txouts[curIndex]? with
      | some txout => hash256 crypto (txoutBytes txout)
      | none => uint256Zero

/-- The ten fields. -/
def bip143Preimage (crypto : CryptoBackend) (tx : SatoshiTx) (curTxin : SatoshiTxin)
    (curIndex : Nat) (script : Bytes) (utxo : SatoshiTxout) (base : SighashBase)
    (anyoneCanPay : Bool) : Bytes :=
  tx.versionBytes ++
  (hashPrevouts crypto tx anyoneCanPay).val ++
  (hashSequence crypto tx base anyoneCanPay).val ++
  curTxin.outpoint.bytes ++
  varstrNew script ++
  utxo.valueBytes ++
  curTxin.sequenceBytes ++
  (hashOutputs crypto tx base curIndex).val ++
  tx.lockTimeBytes ++
  leBytes 4 (sighashCode base anyoneCanPay).toNat

/-! ## Earlier calls -/

/-- A call of `rawtx->get_digest` with its input state and the current utxo flags. -/
structure RawtxCall where
  index : Nat
  txin : TxinState
  hashType : UInt32
  utxo : SatoshiTxout
  flags : UInt32
deriving DecidableEq, Repr

/-- The record after a sequence of calls. -/
def digestRun (crypto : CryptoBackend) (tx : SatoshiTx) :
    SatoshiRawtx → List RawtxCall → Exec SatoshiRawtx
  | rawtx, [] => .ok rawtx
  | rawtx, call :: calls => do
      let (_, rawtx) ← satoshiRawtxGetDigest crypto tx call.txin rawtx call.index call.hashType
        call.utxo call.flags
      digestRun crypto tx rawtx calls

/-- What attaching prepared for witness inputs. -/
structure SegwitPrepared (crypto : CryptoBackend) (tx : SatoshiTx) (rawtx : SatoshiRawtx) :
    Prop where
  sha : rawtx.shaSegwit = tx.versionBytes ++ prehashPrevouts crypto tx.txins ++
    prehashSequences crypto tx.txins
  txoutsHash : rawtx.txoutsHash = prehashOutputs crypto tx.txouts

variable {crypto : CryptoBackend} {tx : SatoshiTx} {txin : TxinState}
  {rawtx after : SatoshiRawtx} {curIndex : Nat} {hashType : UInt32} {utxo : SatoshiTxout}
  {digest : Option Uint256}

theorem attach_prepared (segwit : tx.hasFlag = true)
    (attached : satoshiRawtxAttach crypto tx = .ok rawtx) : SegwitPrepared crypto tx rawtx := by
  unfold satoshiRawtxAttach satoshiRawtxAttachSegwitTx at attached
  simp only [segwit, if_true, Exec.bind_eq_ok, Exec.assert_eq_ok, Exec.pure_eq,
    Exec.ok.injEq, exists_and_left] at attached
  obtain ⟨-, -, parts, ⟨-, -, -, -, -, -, prepared⟩, rfl⟩ := attached
  rw [← prepared]
  exact ⟨rfl, rfl⟩

/-- A legacy call leaves the part for witness inputs as it is. -/
theorem legacyDigest_prepared (prepared : SegwitPrepared crypto tx rawtx)
    (returns : satoshiUtxoGetDigest crypto tx txin rawtx curIndex hashType =
      .ok (digest, after)) : SegwitPrepared crypto tx after := by
  unfold satoshiUtxoGetDigest at returns
  cases current : tx.txins[curIndex]? with
  | none =>
      rw [current] at returns
      cases returns
  | some curTxin =>
      simp only [current, Exec.ok_bind, Exec.bind_eq_ok] at returns
      obtain ⟨-, -, -, -, redeemScripts, -, returns⟩ := returns
      by_cases modifier : hashType &&& sighashAnyoneCanPay ≠ 0
      · simp only [if_pos modifier] at returns
        split at returns
        · cases returns
          exact ⟨prepared.sha, prepared.txoutsHash⟩
        · cases returns
          exact ⟨prepared.sha, prepared.txoutsHash⟩
      · simp only [if_neg modifier] at returns
        split at returns
        · cases returns
          exact ⟨prepared.sha, prepared.txoutsHash⟩
        · cases returns
          exact ⟨prepared.sha, prepared.txoutsHash⟩

/-- A witness call leaves the record as it is. -/
theorem segwitDigest_frame
    (returns : segwitUtxoGetDigest crypto tx txin rawtx curIndex hashType utxo =
      .ok (digest, after)) : after = rawtx := by
  unfold segwitUtxoGetDigest at returns
  cases current : tx.txins[curIndex]? with
  | none =>
      rw [current] at returns
      cases returns
  | some curTxin =>
      cases scripts : satoshiTxinGetRedeemScripts txin with
      | none =>
          simp only [current, scripts] at returns
          cases returns
      | some redeemScripts =>
          simp only [current, scripts, Exec.ok_bind, Exec.bind_eq_ok] at returns
          obtain ⟨outputs, -, returns⟩ := returns
          cases returns
          rfl

theorem getDigest_prepared {flags : UInt32} (prepared : SegwitPrepared crypto tx rawtx)
    (returns : satoshiRawtxGetDigest crypto tx txin rawtx curIndex hashType utxo flags =
      .ok (digest, after)) : SegwitPrepared crypto tx after := by
  simp only [satoshiRawtxGetDigest] at returns
  split at returns
  · exact segwitDigest_frame returns ▸ prepared
  split at returns
  · exact legacyDigest_prepared prepared returns
  · cases returns
    exact prepared

theorem digestRun_prepared (calls : List RawtxCall) (prepared : SegwitPrepared crypto tx rawtx)
    (returns : digestRun crypto tx rawtx calls = .ok after) :
    SegwitPrepared crypto tx after := by
  induction calls generalizing rawtx with
  | nil =>
      cases returns
      exact prepared
  | cons call calls inductionHypothesis =>
      rw [digestRun, Exec.bind_eq_ok] at returns
      obtain ⟨⟨digest, next⟩, called, rest⟩ := returns
      exact inductionHypothesis (getDigest_prepared prepared called) rest

/-! ## The three routes -/

theorem sighashCode_base (base : SighashBase) (anyoneCanPay : Bool) :
    sighashCode base anyoneCanPay &&& sighashMasks = base.code := by
  cases base <;> cases anyoneCanPay <;> decide

theorem sighashCode_modifier (base : SighashBase) (anyoneCanPay : Bool) :
    sighashCode base anyoneCanPay &&& 0x80 = if anyoneCanPay then 0x80 else 0 := by
  cases base <;> cases anyoneCanPay <;> decide

/-- The hash type that is hashed is the one that was given. -/
theorem sighashCode_join (base : SighashBase) (anyoneCanPay : Bool) :
    base.code ||| (if anyoneCanPay then 0x80 else 0) = sighashCode base anyoneCanPay := by
  cases base <;> cases anyoneCanPay <;> decide

theorem txins_nonempty {curTxin : SatoshiTxin} (current : tx.txins[curIndex]? = some curTxin) :
    tx.txins.isEmpty = false := by
  cases inputs : tx.txins with
  | nil =>
      rw [inputs] at current
      cases current
  | cons head tail => rfl

/-- Fields 1 to 3 on every route. -/
theorem segwitCommonBytes_eq {curTxin : SatoshiTxin} (prepared : SegwitPrepared crypto tx rawtx)
    (current : tx.txins[curIndex]? = some curTxin) (base : SighashBase)
    (anyoneCanPay : Bool) :
    segwitCommonBytes crypto tx rawtx base.code (if anyoneCanPay then 0x80 else 0) =
      tx.versionBytes ++ (hashPrevouts crypto tx anyoneCanPay).val ++
        (hashSequence crypto tx base anyoneCanPay).val := by
  have inputs := txins_nonempty current
  have prevouts : prehashPrevouts crypto tx.txins = (hashPrevouts crypto tx false).val := by
    unfold prehashPrevouts
    rw [inputs]
    rfl
  have sequences : prehashSequences crypto tx.txins =
      (hashSequence crypto tx .all false).val := by
    unfold prehashSequences
    rw [inputs]
    rfl
  unfold segwitCommonBytes
  cases anyoneCanPay with
  | true => rfl
  | false =>
      cases base with
      | all =>
          rw [if_neg (by decide), SighashBase.code, if_pos rfl, prepared.sha, prevouts,
            sequences]
      | none =>
          rw [if_neg (by decide), SighashBase.code, if_neg (by decide), if_pos (.inl rfl),
            prevouts]
          rfl
      | single =>
          rw [if_neg (by decide), SighashBase.code, if_neg (by decide), if_pos (.inr rfl),
            prevouts]
          rfl

/-- Field 8 on every route. -/
theorem segwitOutputsBytes_eq (prepared : SegwitPrepared crypto tx rawtx) (base : SighashBase)
    (curIndex : Nat) :
    segwitOutputsBytes crypto tx rawtx curIndex base.code =
      .ok (hashOutputs crypto tx base curIndex).val := by
  unfold segwitOutputsBytes hashOutputs
  cases base with
  | all =>
      rw [SighashBase.code, if_pos rfl, prepared.txoutsHash]
      rfl
  | none =>
      rw [SighashBase.code, if_neg (by decide), if_pos rfl]
  | single =>
      rw [SighashBase.code, if_neg (by decide), if_neg (by decide), if_pos rfl]
      cases tx.txouts[curIndex]? with
      | none => rfl
      | some txout => simp [prehashOutputs]

theorem segwitDigest_eq {curTxin : SatoshiTxin} (prepared : SegwitPrepared crypto tx rawtx)
    (current : tx.txins[curIndex]? = some curTxin) (codeLeft : scriptCode txin ≠ [])
    (base : SighashBase) (anyoneCanPay : Bool) :
    segwitUtxoGetDigest crypto tx txin rawtx curIndex (sighashCode base anyoneCanPay) utxo =
      .ok (some (hash256 crypto
        (bip143Preimage crypto tx curTxin curIndex (scriptCode txin) utxo base anyoneCanPay)),
        rawtx) := by
  unfold segwitUtxoGetDigest
  simp only [current, satoshiTxinGetRedeemScripts_eq, if_neg codeLeft, Exec.ok_bind,
    sighashCode_base, sighashCode_modifier, segwitOutputsBytes_eq prepared,
    segwitCommonBytes_eq prepared current, sighashCode_join, Exec.pure_eq]
  rfl

theorem attach_returns (crypto : CryptoBackend) (segwit : tx.hasFlag = true)
    (marker : tx.flag = (0, 1)) (inputs : 0 < tx.txins.length) (outputs : 0 < tx.txouts.length) :
    ∃ attached, satoshiRawtxAttach crypto tx = .ok attached := by
  unfold satoshiRawtxAttach satoshiRawtxAttachSegwitTx
  rw [Exec.assert_of inputs, segwit, if_pos rfl, Exec.assert_of marker, Exec.assert_of outputs]
  exact ⟨_, rfl⟩

/-- A segwit transaction attaches, and on every record that attaching it and any completed
digest calls leave, a witness digest is the hash of the BIP143 message. -/
theorem segwitDigest_bip143 (crypto : CryptoBackend) (tx : SatoshiTx)
    (segwit : tx.hasFlag = true) (marker : tx.flag = (0, 1)) (inputs : 0 < tx.txins.length)
    (outputs : 0 < tx.txouts.length) :
    ∃ attached, satoshiRawtxAttach crypto tx = .ok attached ∧
      ∀ (calls : List RawtxCall) (rawtx : SatoshiRawtx) (curIndex : Nat)
        (curTxin : SatoshiTxin) (txin : TxinState) (utxo : SatoshiTxout) (flags : UInt32)
        (base : SighashBase) (anyoneCanPay : Bool),
        digestRun crypto tx attached calls = .ok rawtx →
        tx.txins[curIndex]? = some curTxin → scriptCode txin ≠ [] →
        (flags &&& txoutTypeP2shSegwitFlags ≠ 0 ∨
          flags &&& txoutTypeMasks = txoutTypeSegwit) →
        satoshiRawtxGetDigest crypto tx txin rawtx curIndex (sighashCode base anyoneCanPay) utxo
            flags =
          segwitUtxoGetDigest crypto tx txin rawtx curIndex (sighashCode base anyoneCanPay)
            utxo ∧
        segwitUtxoGetDigest crypto tx txin rawtx curIndex (sighashCode base anyoneCanPay) utxo =
          .ok (some (hash256 crypto
            (bip143Preimage crypto tx curTxin curIndex (scriptCode txin) utxo base
              anyoneCanPay)), rawtx) := by
  obtain ⟨attached, attach⟩ := attach_returns crypto segwit marker inputs outputs
  refine ⟨attached, attach, ?_⟩
  intro calls rawtx curIndex curTxin txin utxo flags base anyoneCanPay earlier current codeLeft
    witness
  constructor
  · unfold satoshiRawtxGetDigest
    exact if_pos witness
  · exact segwitDigest_eq (digestRun_prepared calls (attach_prepared segwit attach) earlier)
      current codeLeft base anyoneCanPay

/-! ## A run on fixed inputs -/

/-- `twoInputTx` with the marker of witness data. -/
def flaggedTx : SatoshiTx := { twoInputTx with hasFlag := true, flag := (0, 1) }

/-- A legacy call for the second input, then a witness call for the first one. -/
def earlierCalls : List RawtxCall :=
  [⟨1, { redeemScripts := some [0xac] }, sighashAll, ⟨5, .ofData [] Varstr.nil_small, 1⟩,
      txoutTypeLegacy⟩,
    ⟨0, { redeemScripts := some [0xac] }, sighashCode .none true,
      ⟨5, .ofData [] Varstr.nil_small, 2⟩, txoutTypeSegwit⟩]

theorem segwitDigest_bip143_flaggedTx :
    ∃ attached rawtx,
      satoshiRawtxAttach sampleCrypto flaggedTx = .ok attached ∧
      digestRun sampleCrypto flaggedTx attached earlierCalls = .ok rawtx ∧
      segwitUtxoGetDigest sampleCrypto flaggedTx { redeemScripts := some [0xac] } rawtx 1
          (sighashCode .single false) ⟨5, .ofData [] (by decide), 2⟩ =
        .ok (some (hash256 sampleCrypto
          (bip143Preimage sampleCrypto flaggedTx
            ⟨⟨uint256Zero, 1⟩, .ofData [] (by decide), 0xffffffff⟩ 1 [0xac]
            ⟨5, .ofData [] (by decide), 2⟩ .single false)), rawtx) := by
  obtain ⟨attached, attach, digests⟩ :=
    segwitDigest_bip143 sampleCrypto flaggedTx rfl rfl (by decide) (by decide)
  obtain rfl : _ = attached := Exec.ok.inj attach
  refine ⟨_, _, rfl, rfl, ?_⟩
  exact (digests earlierCalls _ 1 _ _ _ txoutTypeSegwit .single false rfl rfl (by decide)
    (by decide)).2

end BitcoinClib.Tx
