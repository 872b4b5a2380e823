import BitcoinClib.Script.Machine

/-!
Contract: what `OP_CHECKSIG` and `OP_CHECKSIGVERIFY` establish.

Owns:
- `ChecksigValid`, the meaning of a successful check: both operands import, the
  digest is computed and the signature is accepted;
- `ChecksigSound`, that the opcodes succeed on valid operands only and fail on all
  others;
- the exact operands on which they do.

`parse_op_checksigverify` initializes `rc` to `0` and reaches its cleanup label
from six places before `crypto->verify` runs. Each jump out of the operand part
carries that `0`.
-/

namespace BitcoinClib.Script

open BitcoinClib.Lib
open BitcoinClib.Types
open BitcoinClib.Crypto
open BitcoinClib.Tx

/-! ## Operands -/

/-- The item imports as a public key. -/
def ImportsPubkey (crypto : CryptoBackend) (sdata : ScriptData) (pubkey : crypto.PubKey) :
    Prop :=
  ∃ data, sdata.value = .data data ∧ cryptoPubkeyImport crypto data sdata.size = .ok (some pubkey)

/-- The item minus its last byte imports as a signature, and the last byte is the
hash type. -/
def ImportsSignature (crypto : CryptoBackend) (sdata : ScriptData) (sig : crypto.Signature)
    (hashType : UInt8) : Prop :=
  ∃ data, sdata.value = .data (some data) ∧ 1 < sdata.size ∧
    cryptoSignatureImport crypto (some data) (sdata.size - 1) = .ok (some sig) ∧
    data[sdata.size - 1]? = some hashType

/-- The two topmost items are a public key and a signature with its hash type. -/
structure ChecksigOperands (env : ScriptEnv) (state : ScriptState) (pubkey : env.crypto.PubKey)
    (sig : env.crypto.Signature) (hashType : UInt8) : Prop where
  items : ∃ sdataPubkey sdataSig rest,
    state.items = some sdataPubkey :: some sdataSig :: rest ∧
    ImportsPubkey env.crypto sdataPubkey pubkey ∧
    ImportsSignature env.crypto sdataSig sig hashType

/-- The operands import, the digest for their hash type is computed, and
`crypto->verify` accepts the signature for that digest and key. -/
def ChecksigValid (env : ScriptEnv) (state : ScriptState) : Prop :=
  ∃ pubkey sig hashType digest after sigDer,
    ChecksigOperands env state pubkey sig hashType ∧
    checksigDigest env state.dropTop.dropTop hashType.toUInt32 = .ok (some digest, after) ∧
    cryptoSignatureExport env.crypto sig = .ok (some sigDer) ∧
    cryptoVerify env.crypto digest pubkey sigDer = 0

/-- Success means validity, and on invalid operands the first opcode fails and the
second pushes false. -/
structure ChecksigSound (env : ScriptEnv) (state : ScriptState) : Prop where
  verifySound : ∀ after, parseOpChecksigverify env state = .ok (0, after) →
    ChecksigValid env state
  checksigSound : ∀ rc after, parseOpChecksig env state = .ok (rc, after) →
    after.items.head? = some (some sdataTrue) → ChecksigValid env state
  verifyFails : ¬ ChecksigValid env state →
    ∃ rc after, parseOpChecksigverify env state = .ok (rc, after) ∧ rc ≠ 0
  checksigFails : ¬ ChecksigValid env state →
    ∃ after, parseOpChecksig env state = .ok (0, after) ∧
      after.items.head? = some (some sdataFalse)

/-- The operands import, and the digest call returns; if it returns a digest, the
signature exports. -/
def ChecksigReachesVerify (env : ScriptEnv) (state : ScriptState) : Prop :=
  ∃ pubkey sig hashType digest after,
    ChecksigOperands env state pubkey sig hashType ∧
    checksigDigest env state.dropTop.dropTop hashType.toUInt32 = .ok (digest, after) ∧
    (digest ≠ none → ∃ sigDer, cryptoSignatureExport env.crypto sig = .ok (some sigDer))

/-! ## Runs -/

/-- With importing operands the opcode comes down to its second half. -/
theorem parseOpChecksigverify_of_operands {env : ScriptEnv} {state : ScriptState}
    {pubkey : env.crypto.PubKey} {sig : env.crypto.Signature} {hashType : UInt8}
    (operands : ChecksigOperands env state pubkey sig hashType) :
    parseOpChecksigverify env state =
      checksigVerifyImported env state.dropTop.dropTop hashType.toUInt32 pubkey sig := by
  obtain ⟨sdataPubkey, sdataSig, rest, items, importsPubkey, importsSig⟩ := operands.items
  obtain ⟨keyData, keyStored, keyImported⟩ := importsPubkey
  obtain ⟨sigData, sigStored, sigLong, sigImported, lastByte⟩ := importsSig
  have enough : ¬ state.mainStack.count < 2 := by
    rw [ScriptState.mainStack_count, items]
    simp
  have popKey : state.pop = (some sdataPubkey, state.dropTop) := ScriptState.pop_cons items
  have popSig : state.dropTop.pop = (some sdataSig, state.dropTop.dropTop) :=
    ScriptState.pop_cons (by rw [ScriptState.dropTop_items, items]; rfl)
  have keyPtr := ScriptData.dataPtr_eq_ok.2 keyStored
  have sigPtr := ScriptData.dataPtr_eq_ok.2 sigStored
  have byte : byteAt sigData (sdataSig.size - 1) = .ok hashType := by rw [byteAt, lastByte]
  rw [parseOpChecksigverify, if_neg enough]
  simp [popKey, popSig, keyPtr, keyImported, sigPtr, sigImported, byte, Exec.assert_of, sigLong]

/-- Without importing operands every return carries the initial value of `rc`. -/
theorem parseOpChecksigverify_of_no_operands {env : ScriptEnv} {state after : ScriptState}
    {rc : Int} (missing : ∀ pubkey sig hashType, ¬ ChecksigOperands env state pubkey sig hashType)
    (returns : parseOpChecksigverify env state = .ok (rc, after)) : rc = 0 := by
  rw [parseOpChecksigverify] at returns
  split at returns
  · simp at returns
    exact returns.1.symm
  · rename_i enough
    rw [ScriptState.mainStack_count] at enough
    obtain ⟨keySlot, sigSlot, rest, items⟩ :
        ∃ keySlot sigSlot rest, state.items = keySlot :: sigSlot :: rest := by
      match slots : state.items with
      | [] => simp [slots] at enough
      | [_] => simp [slots] at enough
      | keySlot :: sigSlot :: rest => exact ⟨keySlot, sigSlot, rest, rfl⟩
    rw [ScriptState.pop_cons items] at returns
    cases keySlot with
    | none =>
        simp at returns
        exact returns.1.symm
    | some sdataPubkey =>
        simp only [Exec.bind_eq_ok] at returns
        obtain ⟨keyData, keyPtr, imported, keyImport, returns⟩ := returns
        cases imported with
        | none =>
            simp at returns
            exact returns.1.symm
        | some pubkey =>
            have popSig : state.dropTop.pop = (sigSlot, state.dropTop.dropTop) :=
              ScriptState.pop_cons (by rw [ScriptState.dropTop_items, items]; rfl)
            rw [popSig] at returns
            cases sigSlot with
            | none =>
                simp at returns
                exact returns.1.symm
            | some sdataSig =>
                simp only [Exec.bind_eq_ok, Exec.assert_eq_ok] at returns
                obtain ⟨sigData, sigPtr, _, ⟨present, long⟩, sig, sigImport, hashType, lastByte,
                  returns⟩ := returns
                cases sig with
                | none =>
                    simp at returns
                    exact returns.1.symm
                | some sig =>
                    obtain ⟨sigBytes, rfl⟩ := Option.ne_none_iff_exists'.1 present
                    refine absurd ⟨?_⟩ (missing pubkey sig hashType)
                    refine ⟨sdataPubkey, sdataSig, rest, items,
                      ⟨keyData, ScriptData.dataPtr_eq_ok.1 keyPtr, keyImport⟩,
                      ⟨sigBytes, ScriptData.dataPtr_eq_ok.1 sigPtr, long, sigImport, ?_⟩⟩
                    exact byteAt_eq_ok.1 lastByte

/-- The second half after a digest and an export. -/
theorem checksigVerifyImported_of_digest {env : ScriptEnv} {state after : ScriptState}
    {hashType : UInt32} {pubkey : env.crypto.PubKey} {sig : env.crypto.Signature}
    {digest : Uint256} {sigDer : Bytes}
    (digests : checksigDigest env state hashType = .ok (some digest, after))
    (exports : cryptoSignatureExport env.crypto sig = .ok (some sigDer)) :
    checksigVerifyImported env state hashType pubkey sig =
      .ok (cryptoVerify env.crypto digest pubkey sigDer, after) := by
  rw [checksigVerifyImported, digests, Exec.ok_bind]
  simp only
  rw [exports]
  rfl

/-- The second half after a failed digest. -/
theorem checksigVerifyImported_of_no_digest {env : ScriptEnv} {state after : ScriptState}
    {hashType : UInt32} {pubkey : env.crypto.PubKey} {sig : env.crypto.Signature}
    (digests : checksigDigest env state hashType = .ok (none, after)) :
    checksigVerifyImported env state hashType pubkey sig = .ok (-1, after) := by
  rw [checksigVerifyImported, digests]
  rfl

/-- A failure of the second half comes from a digest call that returned, and from a
verdict when there is a digest. -/
theorem checksigVerifyImported_eq_ok {env : ScriptEnv} {state after : ScriptState}
    {hashType : UInt32} {pubkey : env.crypto.PubKey} {sig : env.crypto.Signature} {rc : Int}
    (returns : checksigVerifyImported env state hashType pubkey sig = .ok (rc, after))
    (nonzero : rc ≠ 0) :
    ∃ digest between, checksigDigest env state hashType = .ok (digest, between) ∧
      (digest ≠ none → ∃ sigDer, cryptoSignatureExport env.crypto sig = .ok (some sigDer)) := by
  rw [checksigVerifyImported, Exec.bind_eq_ok] at returns
  obtain ⟨⟨digest, between⟩, digests, returns⟩ := returns
  refine ⟨digest, between, digests, fun computed => ?_⟩
  obtain ⟨value, rfl⟩ := Option.ne_none_iff_exists'.1 computed
  simp only [Exec.bind_eq_ok] at returns
  obtain ⟨exported, exports, returns⟩ := returns
  cases exported with
  | none =>
      simp at returns
      exact absurd returns.1.symm nonzero
  | some sigDer => exact ⟨sigDer, exports⟩

theorem parseOpChecksig_of_return {env : ScriptEnv} {state after : ScriptState} {rc : Int}
    (returns : parseOpChecksigverify env state = .ok (rc, after)) :
    parseOpChecksig env state =
      .ok (0, after.push (satoshiScriptDataNewBoolean (rc = 0))) := by
  rw [parseOpChecksig, returns]
  rfl

/-! ## Soundness -/

theorem ChecksigValid.reachesVerify {env : ScriptEnv} {state : ScriptState}
    (valid : ChecksigValid env state) : ChecksigReachesVerify env state := by
  obtain ⟨pubkey, sig, hashType, digest, after, sigDer, operands, digests, exports, -⟩ := valid
  exact ⟨pubkey, sig, hashType, some digest, after, operands, digests, fun _ => ⟨sigDer, exports⟩⟩

/-- A return code that is `0` on valid operands only makes both opcodes sound. -/
theorem ChecksigSound.of_return {env : ScriptEnv} {state after : ScriptState} {rc : Int}
    (returns : parseOpChecksigverify env state = .ok (rc, after))
    (valid : rc = 0 → ChecksigValid env state) : ChecksigSound env state where
  verifySound other same := by
    rw [returns] at same
    cases same
    exact valid rfl
  checksigSound pushed other same top := by
    rw [parseOpChecksig_of_return returns] at same
    cases same
    rw [ScriptState.push_head] at top
    by_cases zero : rc = 0
    · exact valid zero
    · simp [satoshiScriptDataNewBoolean, zero, sdataTrue, sdataFalse] at top
  verifyFails invalid := ⟨rc, after, returns, fun zero => invalid (valid zero)⟩
  checksigFails invalid := by
    have nonzero : rc ≠ 0 := fun zero => invalid (valid zero)
    refine ⟨_, parseOpChecksig_of_return returns, ?_⟩
    rw [ScriptState.push_head]
    simp [satoshiScriptDataNewBoolean, nonzero]

/-- The opcodes check what they should exactly when both operands import, the digest
call returns, and a signature with a digest exports. -/
theorem checksigSound_iff (env : ScriptEnv) (state : ScriptState) :
    ChecksigSound env state ↔ ChecksigReachesVerify env state := by
  constructor
  · intro sound
    by_contra stops
    have invalid : ¬ ChecksigValid env state := fun valid => stops valid.reachesVerify
    obtain ⟨rc, after, returns, nonzero⟩ := sound.verifyFails invalid
    refine nonzero (parseOpChecksigverify_of_no_operands (fun pubkey sig hashType operands => ?_)
      returns)
    rw [parseOpChecksigverify_of_operands operands] at returns
    obtain ⟨digest, between, digests, exports⟩ := checksigVerifyImported_eq_ok returns nonzero
    exact stops ⟨pubkey, sig, hashType, digest, between, operands, digests, exports⟩
  · rintro ⟨pubkey, sig, hashType, digest, after, operands, digests, exports⟩
    have run := parseOpChecksigverify_of_operands operands
    cases digest with
    | none =>
        rw [checksigVerifyImported_of_no_digest digests] at run
        exact .of_return run fun failed => absurd failed (by decide)
    | some digest =>
        obtain ⟨sigDer, exported⟩ := exports (Option.some_ne_none digest)
        rw [checksigVerifyImported_of_digest digests exported] at run
        exact .of_return run fun accepted =>
          ⟨pubkey, sig, hashType, digest, after, sigDer, operands, digests, exported, accepted⟩

/-- A stack with a compressed key on top of two bytes that are no signature. -/
def unsignedStack : ScriptState where
  mainStack := {
    items := [some (satoshiScriptDataNewPtr (sampleKey 7)),
      some (satoshiScriptDataNewPtr [0, 1])]
    maxSize := 64
    fits := by decide
    aligned := Nat.dvd_refl stackAllocSize }
  ifStatementDepth := 0
  txin := {}
  utxoFlags := txoutTypeLegacy
  rawtx := ⟨[], [], 0, uint256Zero⟩

/-- A signature that does not parse is accepted. -/
theorem unsignedStack_not_checksigSound :
    parseOpChecksigverify sampleEnv unsignedStack =
      .ok (0, unsignedStack.dropTop.dropTop) ∧
    ¬ ChecksigSound sampleEnv unsignedStack := by
  have accepted : parseOpChecksigverify sampleEnv unsignedStack =
      .ok (0, unsignedStack.dropTop.dropTop) := by decide +kernel
  refine ⟨accepted, fun sound => ?_⟩
  obtain ⟨pubkey, sig, hashType, _, _, _, operands, -⟩ := sound.verifySound _ accepted
  obtain ⟨sdataPubkey, sdataSig, rest, items, -, data, stored, -, imported, -⟩ := operands.items
  have sameSig : sdataSig = satoshiScriptDataNewPtr [0, 1] := by
    simp only [ScriptState.items, unsignedStack, List.cons.injEq, Option.some.injEq] at items
    exact items.2.1.symm
  subst sameSig
  cases stored
  cases imported

end BitcoinClib.Script
