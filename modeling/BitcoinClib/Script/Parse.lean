import BitcoinClib.Script.Machine

/-!
Contract: `scripts_parse` and the functions it calls back from.

Owns:
- the opcode loop, with `OP_IF` / `OP_NOTIF` calling the parser on the selected
  branch;
- `OP_CODESEPARATOR`;
- the pre- and post-processing of output and input scripts (P2SH, witness
  programs).

A payload is the list of bytes from `p` to `p_end`. Its `origin` is the offset
of `p` inside the redeem script buffer of the selected input, or `none` when the
payload lies in another buffer; only `OP_CODESEPARATOR` looks at it.

The loop is fuelled by the number of bytes it was given. Every opcode consumes a
byte and a branch of a conditional is shorter than the conditional, so
`scriptsParse` always passes enough.
-/

namespace BitcoinClib.Script

open BitcoinClib.Lib
open BitcoinClib.Types
open BitcoinClib.Crypto
open BitcoinClib.Tx

/-- `enum satoshi_tx_script_type` -/
inductive TxScriptType where
  | unknown | txin | txout
deriving DecidableEq, Repr

/-- The recursive call `scripts->parse(scripts, satoshi_tx_script_type_unknown, …)`. -/
abbrev ParseCall := Option Nat → Bytes → ScriptState → Exec (Int × ScriptState)

/-! ## Push data -/

/-- The announced length of a push and the size of the length field, `none` where the
length field does not fit in the payload. -/
def pushDataSize (opcode : UInt8) (p : Bytes) : Option (Nat × Nat) :=
  if opcode = 0x4c then
    if p.length < 1 then none else some (leValue (p.take 1), 1)
  else if opcode = 0x4d then
    if p.length < 2 then none else some (leValue (p.take 2), 2)
  else if opcode = 0x4e then
    if p.length < 4 then none else some (leValue (p.take 4), 4)
  else some (opcode.toNat, 0)

/-- `parse_op_push_data`: the number of bytes consumed, `none` for `-1`. -/
def parseOpPushData (opcode : UInt8) (p : Bytes) (state : ScriptState) :
    Option Nat × ScriptState :=
  match pushDataSize opcode p with
  | none => (none, state)
  | some (dataSize, offset) =>
      if p.length < offset + dataSize then (none, state)
      else
        (some (offset + dataSize),
          state.push (satoshiScriptDataNewPtr ((p.drop offset).take dataSize)))

/-! ## Conditionals -/

/-- `MAX_IF_STATEMENT_DEPTH` -/
def maxIfStatementDepth : Int := 256

/-- The scan of `parse_op_if_notif` for the `OP_ELSE` and `OP_ENDIF` of the current
level: the offset after the last `OP_ELSE`, and the offset after `OP_ENDIF`.
`position` is the offset of `rest`, `level` the number of conditionals opened since
the scan began. -/
def scanConditional : Nat → Bytes → Nat → Nat → Option Nat → Option (Option Nat × Nat)
  | 0, _, _, _, _ => none
  | _ + 1, [], _, _, _ => none
  | fuel + 1, op :: p, position, level, pElse =>
      if op = 0x63 ∨ op = 0x64 then
        scanConditional fuel p (position + 1) (level + 1) pElse
      else if op = 0x67 then
        scanConditional fuel p (position + 1) level
          (if level = 0 then some (position + 1) else pElse)
      else if op = 0x68 then
        if level = 0 then some (pElse, position + 1)
        else scanConditional fuel p (position + 1) (level - 1) pElse
      else if op ≤ 0x4e then
        match pushDataSize op p with
        | none => none
        | some (dataSize, offset) =>
            scanConditional fuel (p.drop (offset + dataSize))
              (position + 1 + offset + dataSize) level pElse
      else scanConditional fuel p (position + 1) level pElse

/-- The branch of a conditional that is run: its offset and its length; `none` for an
absent `OP_ELSE`. -/
def selectBranch (conditionMatched : Bool) (pElse : Option Nat) (pEndif : Nat) :
    Option (Nat × Nat) :=
  if conditionMatched then
    match pElse with
    | some pElse => some (0, pElse - 1)
    | none => some (0, pEndif - 1)
  else
    match pElse with
    | some pElse => some (pElse, pEndif - 1 - pElse)
    | none => none

/-- `parse_op_if_notif`, entered after `++priv->if_statement_depth`: the number of
bytes consumed, `none` for `-1`. -/
def parseOpIfNotif (parse : ParseCall) (isNotif : Bool) (origin : Option Nat)
    (payload : Bytes) (state : ScriptState) : Exec (Option Nat × ScriptState) :=
  if maxIfStatementDepth < state.ifStatementDepth ∨ state.ifStatementDepth < 1 then
    .ok (none, state)
  else do
    let (rc, state) ← scriptsVerify state
    let conditionMatched := isNotif != decide (rc = 0)
    match scanConditional (payload.length + 1) payload 0 0 none with
    | none => return (none, state)
    | some (pElse, pEndif) =>
      let close (state : ScriptState) : Exec (Option Nat × ScriptState) := do
        let depth := state.ifStatementDepth - 1
        Exec.assert (0 ≤ depth)
        return (some pEndif, { state with ifStatementDepth := depth })
      match selectBranch conditionMatched pElse pEndif with
      | none => close state
      | some (start, length) =>
        let (cb, state) ← parse (origin.map (· + start)) ((payload.drop start).take length) state
        if cb ≠ length then return (none, state)
        else close state

/-! ## OP_CODESEPARATOR -/

/-- `parse_op_codeseparator`: `origin` is the offset of `p`, after the opcode. -/
def parseOpCodeseparator (env : ScriptEnv) (origin : Option Nat) (state : ScriptState) :
    Exec (Int × ScriptState) :=
  if env.tx.txins.length ≤ env.txinIndex then .ok (-1, state)
  else
    match state.txin.redeemScripts with
    | none => .ok (-1, state)
    | some redeemScripts =>
      match origin with
      | none => .fault .assertion
      | some position => do
        Exec.assert (position < redeemScripts.length)
        return (0, { state with
          txin := { state.txin with redeemScriptsStartPos := position } })

/-! ## The opcode loop -/

/-- The result of an opcode function with a return code: go on after the opcode, or
jump to the error label. -/
def ofReturnCode (run : Exec (Int × ScriptState)) : Exec (Option Nat × ScriptState) := do
  let (rc, state) ← run
  return (if rc = 0 then some 0 else none, state)

/-- The `switch` of `scripts_parse`: the number of bytes consumed after the opcode, or
`none` for the error label. -/
def parseOpcode (parse : ParseCall) (env : ScriptEnv) (opcode : ScriptOpcode)
    (origin : Option Nat) (p : Bytes) (state : ScriptState) :
    Exec (Option Nat × ScriptState) :=
  match opcode with
  | .ripemd160 | .sha256 | .hash160 | .hash256 => ofReturnCode (parseOpHash env opcode state)
  | .dup => ofReturnCode (parseOpDup state)
  | .equalverify => ofReturnCode (parseOpEqualverify state)
  | .equal => ofReturnCode (parseOpEqual state)
  | .checksig => ofReturnCode (parseOpChecksig env state)
  | .checksigverify => ofReturnCode (parseOpChecksigverify env state)
  | .checkmultisig => ofReturnCode (parseOpCheckmultisig env state)
  | .nop => .ok (some 0, state)
  | .if =>
      parseOpIfNotif parse false origin p
        { state with ifStatementDepth := state.ifStatementDepth + 1 }
  | .notif =>
      parseOpIfNotif parse true origin p
        { state with ifStatementDepth := state.ifStatementDepth + 1 }
  | .else | .endif => .ok (none, state)
  | .verify => ofReturnCode (scriptsVerify state)
  -- left as a "todo" in the source: the word is skipped
  | .return => .ok (some 0, state)
  | .codeseparator => ofReturnCode (parseOpCodeseparator env origin state)
  | .reserved => .ok (none, state)

/-- One pass of the loop in `scripts_parse`, from the byte `op` read at `p`. -/
def parseByte (parse : ParseCall) (env : ScriptEnv) (type : TxScriptType) (op : UInt8)
    (origin : Option Nat) (p : Bytes) (state : ScriptState) :
    Exec (Option Nat × ScriptState) :=
  if op = 0 then .ok (some 0, state.push sdataFalse)
  else if op ≤ 0x4e then
    -- scripts are limited to 65535 bytes, so OP_PUSHDATA4 fails an assertion
    if op = 0x4e then .fault .assertion
    else .ok (parseOpPushData op p state)
  else if type = .txin then .ok (none, state)
  else if 0x51 ≤ op ∧ op ≤ 0x60 then
    .ok (some 0, state.push (satoshiScriptDataNewUint8 (op - 0x50)))
  else parseOpcode parse env (.ofByte op) origin p state

/-- The return value of `scripts_parse` from the loop result. -/
def parsedLength (payload : Bytes) (finished : Bool) : Int :=
  if finished then payload.length else -1

/-- The loop of `scripts_parse`; `false` stands for the error label. -/
def parseLoop (env : ScriptEnv) (type : TxScriptType) :
    Nat → Option Nat → Bytes → ScriptState → Exec (Bool × ScriptState)
  | 0, _, _, _ => .timeout
  | _ + 1, _, [], state => .ok (true, state)
  | fuel + 1, origin, op :: p, state => do
      let parse : ParseCall := fun origin payload state => do
        Exec.assert (payload ≠ [])
        let (finished, state) ← parseLoop env .unknown fuel origin payload state
        return (parsedLength payload finished, state)
      let (consumed, state) ←
        parseByte parse env type op (origin.map (· + 1)) p state
      match consumed with
      | none => return (false, state)
      | some consumed =>
          parseLoop env type fuel (origin.map (· + 1 + consumed)) (p.drop consumed) state

/-- `scripts->parse(scripts, satoshi_tx_script_type_unknown, …)` -/
def scriptsParseUnknown (env : ScriptEnv) (origin : Option Nat) (payload : Bytes)
    (state : ScriptState) : Exec (Int × ScriptState) := do
  Exec.assert (payload ≠ [])
  let (finished, state) ← parseLoop env .unknown (payload.length + 1) origin payload state
  return (parsedLength payload finished, state)

/-! ## Redeem scripts and witness programs -/

/-- `txin_p2sh_scripts_post_process` -/
def txinP2shScriptsPostProcess (env : ScriptEnv) (state : ScriptState) :
    Exec (Int × ScriptState) := do
  Exec.assert (env.txinIndex < env.tx.txins.length)
  let state := { state with txin := { state.txin with isP2sh := true } }
  match state.pop with
  | (none, state) => return (-1, state)
  | (some sdata, state) =>
    if sdata.type.value < ScriptDataType.varstr.value then return (-1, state)
    else do
      let buffer ← sdata.dataPtr
      let redeemScripts := (buffer.getD []).take sdata.size
      let state := { state with txin := satoshiTxinSetRedeemScripts state.txin redeemScripts }
      let (cb, state) ← scriptsParseUnknown env (some 0) redeemScripts state
      if cb ≠ sdata.size then return (-1, state)
      else do
        let (rc, state) ← scriptsVerify state
        if rc = 0 then return (0, state.push sdata)
        else return (rc, state)

/-- The data of the `varstr` that `satoshi_script_generate_p2pkh_script` returns. -/
def generateP2pkhScript (h160 : Bytes) : Bytes :=
  [0x76, 0xa9, 20] ++ h160 ++ [0x88, 0xac]

/-- The witness program branch of `parse_segwit_script` for 20 bytes. -/
def parseP2wpkhProgram (env : ScriptEnv) (program : Bytes) (state : ScriptState) :
    Exec (Int × ScriptState) := do
  let redeemScripts := state.txin.redeemScripts.getD (generateP2pkhScript program)
  let state := { state with
    txin := { state.txin with redeemScripts := some redeemScripts } }
  let (cb, state) ← scriptsParseUnknown env (some 0) redeemScripts state
  Exec.assert (cb = redeemScripts.length)
  return (0, state)

/-- The witness program branch of `parse_segwit_script` for 32 bytes. -/
def parseP2wshProgram (env : ScriptEnv) (program : Bytes) (state : ScriptState) :
    Exec (Int × ScriptState) := do
  let (rc, state) ← txinP2shScriptsPostProcess env state
  if rc ≠ 0 then return (-1, state)
  else
    match state.pop with
    | (none, _) => Exec.fault .assertion
    | (some sdata, state) => do
      let buffer ← sdata.dataPtr
      let hash := env.crypto.sha256 ((buffer.getD []).take sdata.size)
      return (0, state.push (satoshiScriptDataNewBoolean (hash.val = program)))

/-- `parse_segwit_script` -/
def parseSegwitScript (env : ScriptEnv) (payload : Bytes) (state : ScriptState) :
    Exec (Int × ScriptState) :=
  match payload with
  | versionByte :: programLength :: p =>
      if versionByte ≠ 0 then .ok (-1, state)
      else if p.length < programLength.toNat then .ok (-1, state)
      else if programLength = 20 then parseP2wpkhProgram env (p.take 20) state
      else if programLength = 32 then parseP2wshProgram env (p.take 32) state
      else .ok (-1, state)
  | _ => .ok (-1, state)

/-- What `txout_scripts_pre_process` returns: NULL, the start of the script, or its end. -/
inductive PreProcessed where
  | reject | execute | done
deriving DecidableEq, Repr

/-- `tx->witnesses[txin_index]`, read only when the transaction is flagged. -/
def witnessItems (env : ScriptEnv) : Exec (List Varstr) := do
  let witnesses ← Exec.deref env.tx.witnesses
  match witnesses[env.txinIndex]? with
  | some items => .ok items
  | none => .fault .bounds

/-- The witness items of the selected input, none for a transaction without a flag. -/
def flaggedWitnessItems (env : ScriptEnv) : Exec (List Varstr) :=
  if env.tx.hasFlag then witnessItems env else .ok []

/-- Push the witness items; empty items are bypassed. -/
def pushWitnessItems (items : List Varstr) (state : ScriptState) : ScriptState :=
  items.foldl (fun state item =>
    if item.data.length = 0 then state
    else state.push (satoshiScriptDataNewPtr item.data)) state

/-- The P2SH-nested part of `txout_scripts_pre_process`, from the pop of the witness
program pushed by the input script. -/
def preProcessNested (env : ScriptEnv) (items : List Varstr) (state : ScriptState) :
    Exec (PreProcessed × ScriptState) :=
  let state := { state with utxoFlags := state.utxoFlags ||| txoutTypeP2shSegwitFlags }
  if state.mainStack.count = 0 then .ok (.reject, state)
  else
    match state.pop with
    | (none, _) => .fault .assertion
    | (some sdata, state) => do
      let buffer ← sdata.dataPtr
      Exec.assert (buffer ≠ none ∧ 0 < sdata.size)
      let segwitScripts := (buffer.getD []).take sdata.size
      let state := pushWitnessItems items state
      if segwitScripts.length ≤ 2 then return (.reject, state)
      else do
        let (rc, state) ← parseSegwitScript env segwitScripts state
        if rc ≠ 0 then return (.reject, state)
        else if state.mainStack.count = 0 then return (.reject, state)
        else
          -- the item left on top by the witness program is released unread
          let (_, state) := state.pop
          return (.execute, state.push sdata)

/-- `txout_scripts_pre_process` -/
def txoutScriptsPreProcess (env : ScriptEnv) (payload : Bytes) (state : ScriptState) :
    Exec (PreProcessed × ScriptState) := do
  Exec.assert (env.txinIndex < env.tx.txins.length)
  if state.txin.isP2sh then return (.execute, state)
  else do
    let items ← flaggedWitnessItems env
    if 16 < payload.headD 0 then
      if items = [] then
        let redeemScripts := state.txin.redeemScripts.getD payload
        return (.execute, { state with
          txin := { state.txin with redeemScripts := some redeemScripts } })
      else preProcessNested env items state
    else do
      let state := pushWitnessItems items state
      let (rc, state) ← parseSegwitScript env payload state
      if rc ≠ 0 then return (.reject, state)
      else return (.done, state)

/-! ## scripts_parse -/

/-- `scripts_parse` for an input script: pushes only, and the redeem script is run
when the script starts with `OP_0`. -/
def scriptsParseTxin (env : ScriptEnv) (payload : Bytes) (state : ScriptState) :
    Exec (Int × ScriptState) := do
  Exec.assert (payload ≠ [])
  let isP2sh : Bool := payload.headD 0 = 0
  let p := if isP2sh then payload.drop 1 else payload
  let (finished, state) ← parseLoop env .txin (payload.length + 1) none p state
  if finished = false then return (-1, state)
  else if isP2sh then do
    let (rc, state) ← txinP2shScriptsPostProcess env state
    if rc ≠ 0 then return (-1, state)
    else return (payload.length, state)
  else return (payload.length, state)

/-- `scripts_parse` for an output script. -/
def scriptsParseTxout (env : ScriptEnv) (payload : Bytes) (state : ScriptState) :
    Exec (Int × ScriptState) := do
  Exec.assert (payload ≠ [])
  let (start, state) ← txoutScriptsPreProcess env payload state
  match start with
  | .reject => return (-1, state)
  | .done => return (payload.length, state)
  | .execute => do
      let (finished, state) ← parseLoop env .txout (payload.length + 1) none payload state
      return (parsedLength payload finished, state)

/-- `scripts_parse` -/
def scriptsParse (env : ScriptEnv) (type : TxScriptType) (payload : Bytes)
    (state : ScriptState) : Exec (Int × ScriptState) :=
  match type with
  | .unknown => scriptsParseUnknown env none payload state
  | .txin => scriptsParseTxin env payload state
  | .txout => scriptsParseTxout env payload state

end BitcoinClib.Script
