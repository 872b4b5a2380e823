import BitcoinClib.Tx.Bip143

/-!
Contract: legacy digests against Bitcoin's SignatureHash, for every hash type.

Owns:
- `signatureHash`, the digest each hash type stands for, from the transaction alone;
- `hashedMessage`, the bytes `satoshi_utxo_get_digest` hashes on its first call;
- the exact hash types for which the two digests are the same.

The message of the source is shorter wherever a count or a blanked output belongs:
ANYONECANPAY leaves out the input count, NONE the output count, SINGLE the output
count and the blanks before the signed output.
-/

namespace BitcoinClib.Tx

open BitcoinClib.Lib
open BitcoinClib.Types
open BitcoinClib.Crypto

/-! ## SignatureHash -/

/-- The conventional digest one, its least significant byte first. -/
def uint256One : Uint256 := ⟨1 :: List.replicate 31 0, rfl⟩

/-- An output that SIGHASH_SINGLE blanks: value `-1`, empty script. -/
def blankTxout : SatoshiTxout := ⟨-1, .ofData [] Varstr.nil_small, 0⟩

/-- The sequence signed for an input other than the current one. -/
def foreignSequence (base : SighashBase) (txin : SatoshiTxin) : UInt32 :=
  if base = .all then txin.sequence else 0

/-- The input vector, its count first. -/
def signedTxinsBytes (tx : SatoshiTx) (curTxin : SatoshiTxin) (curIndex : Nat) (script : Bytes)
    (base : SighashBase) (anyoneCanPay : Bool) : Bytes :=
  if anyoneCanPay then varintSetData 1 ++ rawTxinBytes curTxin (varstrNew script)
  else varintSetData tx.txins.length ++ tx.txins.zipIdx.flatMap fun (txin, index) =>
    if index = curIndex then rawTxinBytes txin (varstrNew script)
    else rawTxinBytes { txin with sequence := foreignSequence base txin } varstrEmpty

/-- The output vector, its count first. -/
def signedTxoutsBytes (tx : SatoshiTx) (curIndex : Nat) : SighashBase → Bytes
  | .all => varintSetData tx.txouts.length ++ tx.txouts.flatMap txoutBytes
  | .none => varintSetData 0
  | .single => varintSetData (curIndex + 1) ++
      (List.replicate curIndex blankTxout ++ (tx.txouts.drop curIndex).take 1).flatMap txoutBytes

/-- The message that is signed. -/
def signedMessage (tx : SatoshiTx) (curTxin : SatoshiTxin) (curIndex : Nat) (script : Bytes)
    (base : SighashBase) (anyoneCanPay : Bool) : Bytes :=
  tx.versionBytes ++ signedTxinsBytes tx curTxin curIndex script base anyoneCanPay ++
    signedTxoutsBytes tx curIndex base ++ tx.lockTimeBytes ++
    leBytes 4 (sighashCode base anyoneCanPay).toNat

/-- The digest that is signed. -/
def signatureHash (crypto : CryptoBackend) (tx : SatoshiTx) (curTxin : SatoshiTxin)
    (curIndex : Nat) (script : Bytes) (base : SighashBase) (anyoneCanPay : Bool) : Uint256 :=
  if base = .single ∧ tx.txouts.length ≤ curIndex then uint256One
  else hash256 crypto (signedMessage tx curTxin curIndex script base anyoneCanPay)

/-! ## First call -/

/-- What the first call hashes before the outputs. -/
def hashedTxins (tx : SatoshiTx) (curTxin : SatoshiTxin) (curIndex : Nat) (script : Bytes)
    (anyoneCanPay : Bool) : Bytes :=
  if anyoneCanPay then tx.versionBytes ++ rawTxinBytes curTxin (varstrNew script)
  else legacyHeaderBytes tx ++ legacyTxinsBytes tx curIndex script

/-- What the first call hashes. -/
def hashedMessage (tx : SatoshiTx) (curTxin : SatoshiTxin) (curIndex : Nat) (script : Bytes)
    (base : SighashBase) (anyoneCanPay : Bool) (outputs : Bytes) : Bytes :=
  hashedTxins tx curTxin curIndex script anyoneCanPay ++ outputs ++ tx.lockTimeBytes ++
    leBytes 4 (sighashCode base anyoneCanPay).toNat

variable {crypto : CryptoBackend} {tx : SatoshiTx} {txin : TxinState} {rawtx : SatoshiRawtx}
  {curIndex : Nat} {curTxin : SatoshiTxin} {script : Bytes}

theorem sighashCode_withoutModifier (base : SighashBase) (anyoneCanPay : Bool) :
    sighashCode base anyoneCanPay &&& ~~~sighashAnyoneCanPay = base.code := by
  cases base <;> cases anyoneCanPay <;> decide

/-- On an unadvanced context a call hashes its message, or reports that there is none. -/
theorem Unadvanced.getDigest (crypto : CryptoBackend) (fresh : Unadvanced tx rawtx)
    (current : tx.txins[curIndex]? = some curTxin) (codeLeft : scriptCode txin ≠ [])
    (base : SighashBase) (anyoneCanPay : Bool) :
    ∃ after, satoshiUtxoGetDigest crypto tx txin rawtx curIndex
        (sighashCode base anyoneCanPay) =
      .ok ((legacyOutputsBytes tx curIndex base.code).map fun outputs => hash256 crypto
        (hashedMessage tx curTxin curIndex (scriptCode txin) base anyoneCanPay outputs),
        after) := by
  obtain ⟨inRange, -⟩ := List.getElem?_eq_some_iff.1 current
  have last := fresh.last
  have lastInRange : rawtx.lastHashedTxinIndex < tx.txins.length := by omega
  have start : rawtx.lastHashedTxinIndex.toNat = 0 := Int.toNat_of_nonpos last
  have modifier := sighashCode_modifier base anyoneCanPay
  rw [show (0x80 : UInt32) = sighashAnyoneCanPay from rfl] at modifier
  have joined := sighashCode_join base anyoneCanPay
  rw [show (0x80 : UInt32) = sighashAnyoneCanPay from rfl] at joined
  unfold satoshiUtxoGetDigest
  simp only [current, Exec.ok_bind, Exec.assert_of lastInRange, start,
    Exec.assert_of (Nat.zero_le curIndex), satoshiTxinGetRedeemScripts_eq, if_neg codeLeft,
    Exec.deref_some, modifier, joined, sighashCode_withoutModifier, List.drop_zero, fresh.sha]
  cases legacyOutputsBytes tx curIndex base.code with
  | none => exact ⟨_, rfl⟩
  | some outputs =>
      cases anyoneCanPay with
      | true => exact ⟨_, rfl⟩
      | false =>
          refine ⟨_, congrArg (fun message => Exec.ok (some (hash256 crypto message), _)) ?_⟩
          simp only [hashedMessage, hashedTxins, legacyTxinsBytes_eq current, Bool.false_eq_true,
            if_false, ne_eq, not_true_eq_false, List.append_assoc]

/-! ## Lengths -/

theorem rawTxinBytes_length (txin : SatoshiTxin) (scripts : Bytes) :
    (rawTxinBytes txin scripts).length = 40 + scripts.length := by
  simp only [rawTxinBytes, SatoshiOutpoint.bytes, SatoshiTxin.sequenceBytes, List.length_append,
    leBytes_length, txin.outpoint.prevHash.property]
  omega

/-- A changed sequence changes no length. -/
theorem signedTxinsBytes_length (curTxin : SatoshiTxin) (curIndex : Nat) (script : Bytes)
    (base : SighashBase) :
    (signedTxinsBytes tx curTxin curIndex script base false).length =
      (varintSetData tx.txins.length ++ legacyTxinsBytes tx curIndex script).length := by
  have lengths : ∀ inputs : List (SatoshiTxin × Nat),
      (inputs.flatMap fun (txin, index) =>
        if index = curIndex then rawTxinBytes txin (varstrNew script)
        else rawTxinBytes { txin with sequence := foreignSequence base txin } varstrEmpty).length =
      (inputs.flatMap fun (txin, index) =>
        rawTxinBytes txin (if index = curIndex then varstrNew script else varstrEmpty)).length := by
    intro inputs
    induction inputs with
    | nil => rfl
    | cons input inputs inductionHypothesis =>
        obtain ⟨txin, index⟩ := input
        rw [List.flatMap_cons, List.flatMap_cons, List.length_append, List.length_append,
          inductionHypothesis]
        by_cases same : index = curIndex
        · simp only [if_pos same]
        · simp only [if_neg same, rawTxinBytes_length]
  simp only [signedTxinsBytes, Bool.false_eq_true, if_false, List.length_append, lengths]
  rfl

/-- What is hashed before the outputs is never longer than what is signed before them. -/
theorem hashedTxins_length (tx : SatoshiTx) (curTxin : SatoshiTxin) (curIndex : Nat)
    (script : Bytes) (base : SighashBase) (anyoneCanPay : Bool) :
    (hashedTxins tx curTxin curIndex script anyoneCanPay).length +
        (if anyoneCanPay then 1 else 0) =
      (tx.versionBytes ++ signedTxinsBytes tx curTxin curIndex script base anyoneCanPay).length := by
  cases anyoneCanPay with
  | true =>
      have count : (varintSetData 1).length = 1 := rfl
      simp only [hashedTxins, signedTxinsBytes, if_true, List.length_append, count]
      omega
  | false =>
      rw [List.length_append, signedTxinsBytes_length]
      simp only [hashedTxins, legacyHeaderBytes, Bool.false_eq_true, if_false, List.length_append]
      omega

/-- Without a count, NONE and SINGLE hash less than the output vector. -/
theorem legacyOutputsBytes_length {base : SighashBase} {outputs : Bytes}
    (hashed : legacyOutputsBytes tx curIndex base.code = some outputs) (other : base ≠ .all) :
    outputs.length < (signedTxoutsBytes tx curIndex base).length := by
  cases base with
  | all => exact absurd rfl other
  | none =>
      cases hashed
      exact Nat.zero_lt_one
  | single =>
      unfold legacyOutputsBytes at hashed
      rw [SighashBase.code, if_neg (by decide), if_pos rfl] at hashed
      cases signed : tx.txouts[curIndex]? with
      | none =>
          rw [signed] at hashed
          cases hashed
      | some txout =>
          rw [signed] at hashed
          cases hashed
          obtain ⟨inRange, value⟩ := List.getElem?_eq_some_iff.1 signed
          have count := List.length_pos_iff.2 (varintSetData_ne_nil (curIndex + 1))
          rw [signedTxoutsBytes, List.drop_eq_getElem_cons inRange, value, List.take_succ_cons,
            List.take_zero, List.flatMap_append, List.flatMap_singleton, List.length_append,
            List.length_append]
          omega

theorem legacyOutputsBytes_all (tx : SatoshiTx) (curIndex : Nat) :
    legacyOutputsBytes tx curIndex SighashBase.all.code =
      some (signedTxoutsBytes tx curIndex .all) := by
  unfold legacyOutputsBytes
  exact if_pos rfl

/-- Every other hash type leaves something out. -/
theorem hashedMessage_length (curTxin : SatoshiTxin) (script : Bytes) {base : SighashBase}
    {anyoneCanPay : Bool} {outputs : Bytes}
    (hashed : legacyOutputsBytes tx curIndex base.code = some outputs)
    (other : ¬ (base = .all ∧ anyoneCanPay = false)) :
    (hashedMessage tx curTxin curIndex script base anyoneCanPay outputs).length <
      (signedMessage tx curTxin curIndex script base anyoneCanPay).length := by
  have inputs := hashedTxins_length tx curTxin curIndex script base anyoneCanPay
  have shorter : outputs.length < (signedTxoutsBytes tx curIndex base).length ∨
      anyoneCanPay = true ∧ outputs.length = (signedTxoutsBytes tx curIndex base).length := by
    by_cases all : base = .all
    · subst all
      rw [legacyOutputsBytes_all] at hashed
      cases hashed
      exact .inr ⟨by simpa using other, rfl⟩
    · exact .inl (legacyOutputsBytes_length hashed all)
  rw [hashedMessage, signedMessage]
  simp only [List.length_append] at inputs ⊢
  rcases shorter with shorter | ⟨modifier, equal⟩
  · omega
  · subst modifier
    rw [if_pos rfl] at inputs
    omega

/-- Under SIGHASH_ALL nothing is left out. -/
theorem hashedMessage_all (tx : SatoshiTx) (curTxin : SatoshiTxin) (curIndex : Nat)
    (script : Bytes) :
    hashedMessage tx curTxin curIndex script .all false (signedTxoutsBytes tx curIndex .all) =
      signedMessage tx curTxin curIndex script .all false := by
  have inputs : (tx.txins.zipIdx.flatMap fun (txin, index) =>
      if index = curIndex then rawTxinBytes txin (varstrNew script)
      else rawTxinBytes { txin with sequence := foreignSequence .all txin } varstrEmpty) =
      legacyTxinsBytes tx curIndex script := by
    rw [legacyTxinsBytes]
    congr 1
    funext ⟨txin, index⟩
    by_cases same : index = curIndex
    · simp only [if_pos same]
    · simp only [if_neg same]
      rfl
  simp only [hashedMessage, signedMessage, hashedTxins, signedTxinsBytes, Bool.false_eq_true,
    if_false, inputs, legacyHeaderBytes, List.append_assoc]

/-! ## Agreement -/

/-- The call returns the digest its hash type stands for. -/
def DigestSignatureHash (crypto : CryptoBackend) (tx : SatoshiTx) (txin : TxinState)
    (rawtx : SatoshiRawtx) (curTxin : SatoshiTxin) (curIndex : Nat) (base : SighashBase)
    (anyoneCanPay : Bool) : Prop :=
  ∃ after, satoshiUtxoGetDigest crypto tx txin rawtx curIndex (sighashCode base anyoneCanPay) =
    .ok (some (signatureHash crypto tx curTxin curIndex (scriptCode txin) base anyoneCanPay),
      after)

/-- Double SHA-256 does not collide on what is hashed and what is signed. -/
def SignatureHashCollisionFree (crypto : CryptoBackend) (tx : SatoshiTx) (curTxin : SatoshiTxin)
    (curIndex : Nat) (script : Bytes) (base : SighashBase) (anyoneCanPay : Bool) : Prop :=
  ∀ outputs ∈ legacyOutputsBytes tx curIndex base.code,
    hash256 crypto (hashedMessage tx curTxin curIndex script base anyoneCanPay outputs) =
        hash256 crypto (signedMessage tx curTxin curIndex script base anyoneCanPay) →
      hashedMessage tx curTxin curIndex script base anyoneCanPay outputs =
        signedMessage tx curTxin curIndex script base anyoneCanPay

/-- SIGHASH_SINGLE has a digest only for an input with an output of its index. -/
theorem legacyOutputsBytes_single_eq_none :
    legacyOutputsBytes tx curIndex SighashBase.single.code = none ↔
      tx.txouts.length ≤ curIndex := by
  unfold legacyOutputsBytes
  rw [SighashBase.code, if_neg (by decide), if_pos rfl, ← List.getElem?_eq_none_iff]
  cases tx.txouts[curIndex]? with
  | none => simp
  | some txout => simp

/-- The first digest call after attach returns the digest of its hash type exactly for
SIGHASH_ALL without ANYONECANPAY. -/
theorem satoshiUtxoGetDigest_signatureHash_iff
    (attached : satoshiRawtxAttach crypto tx = .ok rawtx)
    (current : tx.txins[curIndex]? = some curTxin) (codeLeft : scriptCode txin ≠ [])
    (base : SighashBase) (anyoneCanPay : Bool)
    (collisionFree : SignatureHashCollisionFree crypto tx curTxin curIndex (scriptCode txin)
      base anyoneCanPay) :
    DigestSignatureHash crypto tx txin rawtx curTxin curIndex base anyoneCanPay ↔
      base = .all ∧ anyoneCanPay = false := by
  obtain ⟨after, returns⟩ :=
    (Unadvanced.of_attach attached).getDigest crypto current codeLeft base anyoneCanPay
  constructor
  · rintro ⟨_, expected⟩
    by_contra other
    rw [returns] at expected
    cases hashed : legacyOutputsBytes tx curIndex base.code with
    | none =>
        rw [hashed] at expected
        cases expected
    | some outputs =>
        have signed : ¬ (base = .single ∧ tx.txouts.length ≤ curIndex) := by
          rintro ⟨rfl, beyond⟩
          rw [legacyOutputsBytes_single_eq_none.2 beyond] at hashed
          cases hashed
        rw [hashed, Option.map_some, signatureHash, if_neg signed] at expected
        have equal := collisionFree outputs hashed (Option.some.inj (congrArg Prod.fst
          (Exec.ok.inj expected)))
        have shorter := hashedMessage_length curTxin (scriptCode txin) hashed other
        exact absurd (congrArg List.length equal) shorter.ne
  · rintro ⟨rfl, rfl⟩
    refine ⟨after, ?_⟩
    rw [returns, legacyOutputsBytes_all, Option.map_some, hashedMessage_all, signatureHash,
      if_neg (by simp)]

/-- The second input of `twoInputTx`. -/
def secondTxin : SatoshiTxin := ⟨⟨uint256Zero, 1⟩, .ofData [] Varstr.nil_small, 0xffffffff⟩

theorem satoshiUtxoGetDigest_signatureHash_iff_twoInputTx :
    DigestSignatureHash sampleCrypto twoInputTx { redeemScripts := some [0xac] } twoInputRawtx
        secondTxin 1 .all false ↔
      SighashBase.all = .all ∧ false = false :=
  satoshiUtxoGetDigest_signatureHash_iff (by decide) (by decide) (by decide) .all false
    (by unfold SignatureHashCollisionFree; decide +kernel)

/-- Under ANYONECANPAY the first call hashes no input count. -/
theorem anyoneCanPay_not_signatureHash :
    satoshiRawtxAttach sampleCrypto twoInputTx = .ok twoInputRawtx ∧
      ¬ DigestSignatureHash sampleCrypto twoInputTx { redeemScripts := some [0xac] }
        twoInputRawtx secondTxin 1 .all true := by
  have attached : satoshiRawtxAttach sampleCrypto twoInputTx = .ok twoInputRawtx := by decide
  refine ⟨attached, ?_⟩
  rintro ⟨after, expected⟩
  have current : twoInputTx.txins[1]? = some secondTxin := by decide
  have codeLeft : scriptCode { redeemScripts := some [0xac] } ≠ [] := by decide
  obtain ⟨_, returns⟩ :=
    (Unadvanced.of_attach attached).getDigest sampleCrypto current codeLeft .all true
  rw [returns, legacyOutputsBytes_all] at expected
  have digest := Option.some.inj (congrArg Prod.fst (Exec.ok.inj expected))
  revert digest
  decide +kernel

end BitcoinClib.Tx
