import BitcoinClib.Script.Data
import BitcoinClib.Tx.RawTx

/-!
Contract: the state of a script run and the opcodes that do not call back into
the parser.

Owns:
- `ScriptEnv` and `ScriptState`, what a run reads and what it changes;
- `scripts_verify`, the hash, duplicate and compare opcodes;
- `OP_CHECKSIG(VERIFY)` and `OP_CHECKMULTISIG`.

`ScriptState` holds the fields of the one input and the one utxo that
`set_txin_info` selected; no modelled function touches another input.
A C return code is an `Int`; a pointer result or offset that is NULL or
negative on failure is an `Option`.
-/

namespace BitcoinClib.Script

open BitcoinClib.Lib
open BitcoinClib.Types
open BitcoinClib.Crypto
open BitcoinClib.Tx

/-- What a run reads and never changes. -/
structure ScriptEnv where
  crypto : CryptoBackend
  tx : SatoshiTx
  txinIndex : Nat
  utxo : SatoshiTxout
  /-- `scripts->digest`, a preset digest -/
  digest : Option Uint256

/-- What a run changes. -/
structure ScriptState where
  mainStack : ScriptStack
  /-- `priv->if_statement_depth` -/
  ifStatementDepth : Int
  /-- the fields of `tx->txins[txin_index]` set during parsing -/
  txin : TxinState
  /-- `utxo->flags` -/
  utxoFlags : UInt32
  /-- `priv->rawtx` -/
  rawtx : SatoshiRawtx
deriving DecidableEq, Repr

/-- A transaction with one input and one output, for runs on fixed inputs. -/
def sampleTx : SatoshiTx where
  version := 1
  hasFlag := false
  flag := (0, 0)
  txins := [⟨⟨uint256Zero, 0⟩, .ofData [] Varstr.nil_small, 0xffffffff⟩]
  txouts := [⟨1, .ofData [] Varstr.nil_small, 0⟩]
  witnesses := none
  lockTime := 0

/-- Its only input, spending a legacy output. -/
def sampleEnv : ScriptEnv where
  crypto := sampleCrypto
  tx := sampleTx
  txinIndex := 0
  utxo := ⟨1, .ofData [] Varstr.nil_small, txoutTypeLegacy⟩
  digest := none

namespace ScriptState

/-- `main_stack->push` -/
def push (state : ScriptState) (sdata : ScriptData) : ScriptState :=
  { state with mainStack := stackPush state.mainStack sdata }

/-- `main_stack->pop` -/
def pop (state : ScriptState) : Option ScriptData × ScriptState :=
  let (sdata, stack) := stackPop state.mainStack
  (sdata, { state with mainStack := stack })

/-- The slots of the main stack, the top first. -/
def items (state : ScriptState) : List (Option ScriptData) := state.mainStack.items

theorem mainStack_count (state : ScriptState) : state.mainStack.count = state.items.length := rfl

/-- The state after a pop. -/
def dropTop (state : ScriptState) : ScriptState := state.pop.2

theorem pop_eq (state : ScriptState) :
    state.pop = (state.items.head?.join, state.dropTop) := rfl

theorem pop_cons {state : ScriptState} {slot : Option ScriptData}
    {rest : List (Option ScriptData)} (top : state.items = slot :: rest) :
    state.pop = (slot, state.dropTop) := by
  rw [pop_eq, top]
  rfl

theorem pop_nil {state : ScriptState} (empty : state.items = []) :
    state.pop = (none, state.dropTop) := by
  rw [pop_eq, empty]
  rfl

@[simp] theorem dropTop_items (state : ScriptState) :
    state.dropTop.items = state.items.tail := rfl

/-- After a pop there is room for a push. -/
theorem push_items_of_room {state : ScriptState} (sdata : ScriptData)
    (room : state.mainStack.count < state.mainStack.maxSize) :
    (state.push sdata).items = some sdata :: state.items :=
  stackPush_items_of_room sdata room

/-- Replacing the top moves nothing. -/
theorem dropTop_push {state : ScriptState} {slot : Option ScriptData}
    {rest : List (Option ScriptData)} (items : state.items = slot :: rest)
    (sdata : ScriptData) :
    (state.dropTop.push sdata).items = some sdata :: rest ∧
      (state.dropTop.push sdata).mainStack.maxSize = state.mainStack.maxSize := by
  have fits : state.items.length ≤ state.mainStack.maxSize := state.mainStack.fits
  have room : state.dropTop.mainStack.count < state.dropTop.mainStack.maxSize := by
    rw [mainStack_count, dropTop_items, items]
    rw [items] at fits
    exact fits
  refine ⟨?_, stackPush_maxSize_of_room sdata room⟩
  rw [push_items_of_room sdata room, dropTop_items, items]
  rfl

/-- Only the oldest slots move when the array grows; the pushed item is on top. -/
theorem push_head (state : ScriptState) (sdata : ScriptData) :
    (state.push sdata).items.head? = some (some sdata) := rfl

end ScriptState

/-- `rawtx->get_digest` for the selected input. -/
def getDigest (env : ScriptEnv) (state : ScriptState) (hashType : UInt32) :
    Exec (Option Uint256 × ScriptState) := do
  let (digest, rawtx) ← satoshiRawtxGetDigest env.crypto env.tx state.txin state.rawtx
    env.txinIndex hashType env.utxo state.utxoFlags
  return (digest, { state with rawtx := rawtx })

/-- `data[index]` -/
def byteAt (data : Bytes) (index : Nat) : Exec UInt8 :=
  match data[index]? with
  | some byte => .ok byte
  | none => .fault .bounds

theorem byteAt_eq_ok {data : Bytes} {index : Nat} {byte : UInt8} :
    byteAt data index = .ok byte ↔ data[index]? = some byte := by
  unfold byteAt
  split <;> simp [*]

theorem getDigest_frame {env : ScriptEnv} {state after : ScriptState} {hashType : UInt32}
    {digest : Option Uint256} (digests : getDigest env state hashType = .ok (digest, after)) :
    after = { state with rawtx := after.rawtx } := by
  rw [getDigest, Exec.bind_eq_ok] at digests
  obtain ⟨⟨_, rawtx⟩, -, returns⟩ := digests
  cases returns
  rfl

/-- The value test of `scripts_verify` on a popped item. -/
def isTrueItem (sdata : ScriptData) : Exec Bool :=
  match sdata.type with
  | .bool | .uint8 | .opCode => do
      let b ← sdata.b
      return b ≠ 0
  | _ => .ok false

/-- `scripts_verify` -/
def scriptsVerify (state : ScriptState) : Exec (Int × ScriptState) :=
  match state.pop with
  | (none, state) => .ok (-1, state)
  | (some sdata, state) => do
      let isTrue ← isTrueItem sdata
      return (if isTrue then 0 else -1, state)

theorem isTrueItem_boolean (verdict : Bool) :
    isTrueItem (satoshiScriptDataNewBoolean verdict) = .ok verdict := by
  cases verdict <;> rfl

/-- The verification pops one slot, whatever it finds. -/
theorem scriptsVerify_frame {state after : ScriptState} {rc : Int}
    (returns : scriptsVerify state = .ok (rc, after)) : after = state.dropTop := by
  rw [scriptsVerify, ScriptState.pop_eq] at returns
  cases top : state.items.head?.join with
  | none =>
      rw [top] at returns
      cases returns
      rfl
  | some sdata =>
      rw [top] at returns
      obtain ⟨_, -, returns⟩ := Exec.bind_eq_ok.1 returns
      cases returns
      rfl

/-- The verification pops a boolean and returns it. -/
theorem scriptsVerify_boolean {state : ScriptState} {verdict : Bool}
    (top : state.items.head? = some (some (satoshiScriptDataNewBoolean verdict))) :
    scriptsVerify state = .ok (if verdict then 0 else -1, state.dropTop) := by
  rw [scriptsVerify, ScriptState.pop_eq, top]
  simp only [Option.join_some, isTrueItem_boolean, Exec.ok_bind, Exec.pure_eq]

/-! ## Opcodes of the switch in `scripts_parse` -/

/-- The words `scripts_parse` tells apart once pushes and small integers are dealt
with. `reserved` stands for every byte without a case of its own. -/
inductive ScriptOpcode where
  | ripemd160 | sha256 | hash160 | hash256
  | dup | equalverify | equal
  | checksig | checksigverify | checkmultisig
  | nop | if | notif | else | endif | verify | return | codeseparator
  | reserved
deriving DecidableEq, Repr

/-- `enum satoshi_script_opcode`, for the words with a case in `scripts_parse`. -/
def ScriptOpcode.ofByte (byte : UInt8) : ScriptOpcode :=
  if byte = 0xa6 then .ripemd160
  else if byte = 0xa8 then .sha256
  else if byte = 0xa9 then .hash160
  else if byte = 0xaa then .hash256
  else if byte = 0x76 then .dup
  else if byte = 0x88 then .equalverify
  else if byte = 0x87 then .equal
  else if byte = 0xac then .checksig
  else if byte = 0xad then .checksigverify
  else if byte = 0xae then .checkmultisig
  else if byte = 0x61 then .nop
  else if byte = 0x63 then .if
  else if byte = 0x64 then .notif
  else if byte = 0x67 then .else
  else if byte = 0x68 then .endif
  else if byte = 0x69 then .verify
  else if byte = 0x6a then .return
  else if byte = 0xab then .codeseparator
  -- OP_NOP1 and OP_NOP4 to OP_NOP10
  else if byte = 0xb0 then .nop
  else if 0xb3 ≤ byte ∧ byte ≤ 0xb9 then .nop
  else .reserved

/-- The result `parse_op_hash` pushes; `none` for a word that is no hash. -/
def hashItem (crypto : CryptoBackend) (opcode : ScriptOpcode) (data : Bytes) :
    Option ScriptData :=
  match opcode with
  | .ripemd160 => some (satoshiScriptDataNewHash160 (crypto.ripemd160 data))
  | .sha256 => some (satoshiScriptDataNewHash256 (crypto.sha256 data))
  | .hash160 => some (satoshiScriptDataNewHash160 (hash160 crypto data))
  | .hash256 => some (satoshiScriptDataNewHash256 (hash256 crypto data))
  | _ => none

/-- `parse_op_hash` -/
def parseOpHash (env : ScriptEnv) (opcode : ScriptOpcode) (state : ScriptState) :
    Exec (Int × ScriptState) :=
  match state.pop with
  | (none, state) => .ok (-1, state)
  | (some sdata, state) => do
      let data ← satoshiScriptDataGet sdata
      match hashItem env.crypto opcode (data.getD []) with
      | none => return (-1, state)
      | some hash => return (0, state.push hash)

/-- `parse_op_dup` -/
def parseOpDup (state : ScriptState) : Exec (Int × ScriptState) :=
  match state.mainStack.items with
  | [] => .ok (-1, state)
  | none :: _ => .fault .assertion
  | some sdata :: _ => do
      let copy ← satoshiScriptDataClone sdata
      return (0, state.push copy)

/-- `parse_op_equalverify` -/
def parseOpEqualverify (state : ScriptState) : Exec (Int × ScriptState) :=
  if state.mainStack.count < 2 then .ok (-1, state)
  else
    let (sdata1, state) := state.pop
    let (sdata2, state) := state.pop
    do
      let rc ← satoshiScriptDataCompare sdata1 sdata2
      freeItem (← Exec.deref sdata1)
      freeItem (← Exec.deref sdata2)
      return (rc, state)

/-- `parse_op_equal` -/
def parseOpEqual (state : ScriptState) : Exec (Int × ScriptState) := do
  let (rc, state) ← parseOpEqualverify state
  return (0, state.push (satoshiScriptDataNewBoolean (rc = 0)))

/-! ## OP_CHECKSIG -/

/-- The digest `parse_op_checksigverify` signs: the preset one, or the computed one.
`none` is a non-zero return code of `rawtx->get_digest`. -/
def checksigDigest (env : ScriptEnv) (state : ScriptState) (hashType : UInt32) :
    Exec (Option Uint256 × ScriptState) :=
  match env.digest with
  | some digest => .ok (some digest, state)
  | none => getDigest env state hashType

/-- The second half of `parse_op_checksigverify`: key and signature are imported. -/
def checksigVerifyImported (env : ScriptEnv) (state : ScriptState) (hashType : UInt32)
    (pubkey : env.crypto.PubKey) (sig : env.crypto.Signature) : Exec (Int × ScriptState) := do
  let (digest, state) ← checksigDigest env state hashType
  match digest with
  | none => return (-1, state)
  | some digest =>
    match ← cryptoSignatureExport env.crypto sig with
    -- `rc` still holds the result of the digest call, which was 0
    | none => return (0, state)
    | some sigDer => return (cryptoVerify env.crypto digest pubkey sigDer, state)

/-- `parse_op_checksigverify`. `rc` is `0` from its declaration until the digest is
computed, and every jump to the cleanup label returns its current value. -/
def parseOpChecksigverify (env : ScriptEnv) (state : ScriptState) :
    Exec (Int × ScriptState) :=
  if state.mainStack.count < 2 then .ok (0, state)
  else
    match state.pop with
    | (none, state) => .ok (0, state)
    | (some sdataPubkey, state) => do
      match ← cryptoPubkeyImport env.crypto (← sdataPubkey.dataPtr) sdataPubkey.size with
      | none => return (0, state)
      | some pubkey =>
        match state.pop with
        | (none, state) => return (0, state)
        | (some sdataSig, state) => do
          let data ← sdataSig.dataPtr
          Exec.assert (data ≠ none ∧ 1 < sdataSig.size)
          let cbSig := sdataSig.size - 1
          let sig ← cryptoSignatureImport env.crypto data cbSig
          let hashType ← byteAt (data.getD []) cbSig
          match sig with
          | none => return (0, state)
          | some sig => checksigVerifyImported env state hashType.toUInt32 pubkey sig

/-- `parse_op_checksig` -/
def parseOpChecksig (env : ScriptEnv) (state : ScriptState) : Exec (Int × ScriptState) := do
  let (rc, state) ← parseOpChecksigverify env state
  return (0, state.push (satoshiScriptDataNewBoolean (rc = 0)))

/-! ## OP_CHECKMULTISIG -/

/-- `sdata->b` of a popped item; NULL is an error. -/
def importCount (sdata : Option ScriptData) : Exec (Option Int) :=
  match sdata with
  | none => .ok none
  | some sdata => do return some (← sdata.b)

/-- The body of the key loop: NULL, a size other than 33 or 65, and an unparsable key
are errors. -/
def importPubkey (crypto : CryptoBackend) (sdata : Option ScriptData) :
    Exec (Option crypto.PubKey) :=
  match sdata with
  | none => .ok none
  | some sdata =>
      if sdata.size ≠ 33 ∧ sdata.size ≠ 65 then .ok none
      else do cryptoPubkeyImport crypto (← sdata.dataPtr) sdata.size

/-- The key loop: `pubkeys[0]` is the item popped first. -/
def popPubkeys (crypto : CryptoBackend) :
    Nat → ScriptState → Exec (Option (List crypto.PubKey) × ScriptState)
  | 0, state => .ok (some [], state)
  | count + 1, state => do
      let (sdata, state) := state.pop
      match ← importPubkey crypto sdata with
      | none => return (none, state)
      | some pubkey =>
        let (rest, state) ← popPubkeys crypto count state
        return (rest.map (pubkey :: ·), state)

/-- An imported signature: its hash type and its DER export. -/
structure MultisigSignature where
  sighashType : UInt32
  sigDer : Bytes
deriving DecidableEq, Repr

/-- The first part of the signature loop: NULL, an empty item and an unparsable
signature are errors, a failing export fails an assertion. -/
def importSignature (crypto : CryptoBackend) (sdata : Option ScriptData) :
    Exec (Option MultisigSignature) :=
  match sdata with
  | none => .ok none
  | some sdata =>
      if sdata.size < 1 then .ok none
      else do
        let data ← Exec.deref (← sdata.dataPtr)
        let sighashType ← byteAt data (sdata.size - 1)
        match ← cryptoSignatureImport crypto (some data) (sdata.size - 1) with
        | none => return none
        | some sig => do
          match ← cryptoSignatureExport crypto sig with
          | none => Exec.fault .assertion
          | some sigDer => return some ⟨sighashType.toUInt32, sigDer⟩

/-- The locals of the signature loop. `pubkeys` lists the keys from `pubkey_index` on. -/
structure MultisigScan (PubKey : Type) where
  rc : Int
  prevSighashType : UInt32
  digest : Option Uint256
  numVerified : Nat
  pubkeys : List PubKey

/-- The inner loop: `pubkey_index` stops at the key that verifies, and is not moved
past it. -/
def scanPubkeys (crypto : CryptoBackend) (digest : Uint256) (sigDer : Bytes) :
    List crypto.PubKey → List crypto.PubKey
  | [] => []
  | pubkey :: rest =>
      if cryptoVerify crypto digest pubkey sigDer = 0 then pubkey :: rest
      else scanPubkeys crypto digest sigDer rest

/-- The last part of the signature loop, after the digest is current. -/
def scanSignature (crypto : CryptoBackend) (sigDer : Bytes)
    (scan : MultisigScan crypto.PubKey) : Exec (MultisigScan crypto.PubKey) :=
  match scan.pubkeys, scan.digest with
  | [], _ => .ok { scan with rc := -1 }
  -- the first signature carries hash type 0, so no digest was ever computed
  | _ :: _, none => .fault .uninitialised
  | _ :: _, some digest =>
      match scanPubkeys crypto digest sigDer scan.pubkeys with
      | [] => .ok { scan with rc := -1, pubkeys := [] }
      | pubkey :: rest =>
          .ok { scan with
            rc := 0, numVerified := scan.numVerified + 1, pubkeys := pubkey :: rest }

/-- The middle part of the signature loop: the digest is computed again when the hash
type changes. `none` is a failed digest. -/
def refreshDigest (env : ScriptEnv) (sighashType : UInt32)
    (scan : MultisigScan env.crypto.PubKey) (state : ScriptState) :
    Exec (Option (MultisigScan env.crypto.PubKey) × ScriptState) :=
  if sighashType = scan.prevSighashType then .ok (some scan, state)
  else do
    let (digest, state) ← getDigest env state sighashType
    return (digest.map fun digest =>
      { scan with rc := 0, prevSighashType := sighashType, digest := some digest }, state)

/-- The signature loop. The result is the return code at its end, and the number of
verified signatures, or `none` where the source jumps to the cleanup label. -/
def verifySigs (env : ScriptEnv) :
    Nat → MultisigScan env.crypto.PubKey → ScriptState →
      Exec ((Int × Option Nat) × ScriptState)
  | 0, scan, state => .ok ((scan.rc, some scan.numVerified), state)
  | remaining + 1, scan, state => do
      let (sdata, state) := state.pop
      match ← importSignature env.crypto sdata with
      | none => return ((scan.rc, none), state)
      | some sig =>
        let (refreshed, state) ← refreshDigest env sig.sighashType scan state
        match refreshed with
        | none => return ((-1, none), state)
        | some scan => do
          let scan ← scanSignature env.crypto sig.sigDer scan
          verifySigs env remaining scan state

/-- The end of `parse_op_checkmultisig`, from the result of the signature loop. -/
def finishMultisig (numSigs : Int) (result : (Int × Option Nat) × ScriptState) :
    Int × ScriptState :=
  match result with
  | ((rc, none), state) => (rc, state)
  | ((_, some numVerified), state) =>
      (0, state.push (satoshiScriptDataNewBoolean ((numVerified : Int) = numSigs)))

/-- `parse_op_checkmultisig` -/
def parseOpCheckmultisig (env : ScriptEnv) (state : ScriptState) :
    Exec (Int × ScriptState) := do
  let (sdata, state) := state.pop
  match ← importCount sdata with
  | none => return (-1, state)
  | some numPubkeys =>
    if numPubkeys < 1 ∨ 16 < numPubkeys then return (-1, state)
    else do
      let (pubkeys, state) ← popPubkeys env.crypto numPubkeys.toNat state
      match pubkeys with
      | none => return (-1, state)
      | some pubkeys => do
        let (sdata, state) := state.pop
        match ← importCount sdata with
        | none => return (-1, state)
        | some numSigs =>
          if numSigs < 0 ∨ numPubkeys < numSigs then return (-1, state)
          else do
            let result ← verifySigs env numSigs.toNat ⟨-1, 0, none, 0, pubkeys⟩ state
            return finishMultisig numSigs result

end BitcoinClib.Script
