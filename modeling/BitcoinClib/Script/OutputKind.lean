import BitcoinClib.Script.P2sh
import BitcoinClib.Tx.CodecRules

/-!
Contract: which outputs are taken for witness programs.

Owns:
- witness programs as a form of scripts;
- what `scripts_parse` does to an output script it takes for one, and to any other;
- when `satoshi_txout_parse`, `satoshi_rawtx_get_digest` and `scripts_parse` agree
  with the form of the script.

Does not own: what a witness program accepts.
-/

namespace BitcoinClib.Script

open BitcoinClib.Lib
open BitcoinClib.Types
open BitcoinClib.Crypto
open BitcoinClib.Tx

/-! ## Witness programs -/

/-- The version opcode and one direct push of 2 to 40 bytes, with nothing after it. -/
def IsProgramOf (version : UInt8) (script : Bytes) : Prop :=
  ∃ push data, script = version :: push :: data ∧
    push.toNat = data.length ∧ 2 ≤ data.length ∧ data.length ≤ 40

/-- A witness program of some version: `OP_0` or `OP_1` to `OP_16`. -/
def IsWitnessProgram (script : Bytes) : Prop :=
  ∃ version : UInt8, (version = 0 ∨ 0x51 ≤ version ∧ version ≤ 0x60) ∧ IsProgramOf version script

/-- No version opcode lies between `OP_0` and `OP_1`. -/
theorem IsWitnessProgram.version_zero {version : UInt8} {data : Bytes}
    (program : IsWitnessProgram (version :: data)) (small : version ≤ 16) :
    IsProgramOf 0 (version :: data) := by
  obtain ⟨opcode, versions, push, pushed, form, sizes⟩ := program
  obtain ⟨rfl, rfl⟩ := List.cons.inj form
  rcases versions with rfl | ⟨least, -⟩
  · exact ⟨push, pushed, rfl, sizes⟩
  · exact absurd (UInt8.le_trans least small) (by decide)

/-! ## The two treatments of an output script -/

/-- An output script that is taken for a witness program. -/
def runWitnessProgram (env : ScriptEnv) (payload : Bytes) (state : ScriptState) :
    Exec (PreProcessed × ScriptState) := do
  let items ← flaggedWitnessItems env
  let (rc, state) ← parseSegwitScript env payload (pushWitnessItems items state)
  if rc ≠ 0 then return (.reject, state)
  else return (.done, state)

/-- An output script whose words are executed, after those of a nested program if there are
witness items. -/
def runOutputScript (env : ScriptEnv) (payload : Bytes) (state : ScriptState) :
    Exec (PreProcessed × ScriptState) :=
  if state.txin.isP2sh then .ok (.execute, state)
  else do
    let items ← flaggedWitnessItems env
    if items = [] then
      return (.execute, { state with
        txin := { state.txin with
          redeemScripts := some (state.txin.redeemScripts.getD payload) } })
    else preProcessNested env items state

/-- A script above `OP_16` is executed; so is every script of an input marked as P2SH. -/
theorem txoutScriptsPreProcess_eq {env : ScriptEnv} (selected : env.txinIndex < env.tx.txins.length)
    (payload : Bytes) (state : ScriptState) :
    txoutScriptsPreProcess env payload state =
      if state.txin.isP2sh = false ∧ payload.headD 0 ≤ 16 then
        runWitnessProgram env payload state
      else runOutputScript env payload state := by
  unfold txoutScriptsPreProcess runOutputScript runWitnessProgram
  rw [Exec.assert_of selected, Exec.ok_bind]
  by_cases marked : state.txin.isP2sh = true
  · have notBoth : ¬ (state.txin.isP2sh = false ∧ payload.headD 0 ≤ 16) := by
      rw [marked]
      exact fun both => nomatch both.1
    rw [if_neg notBoth, if_pos marked, if_pos marked]
    rfl
  · have unmarked := Bool.eq_false_iff.2 marked
    rw [if_neg marked, if_neg marked]
    by_cases small : payload.headD 0 ≤ 16
    · rw [if_pos ⟨unmarked, small⟩]
      simp only [UInt8.not_lt.2 small, ↓reduceIte]
    · rw [if_neg fun both => small both.2]
      simp only [UInt8.not_le.1 small, ↓reduceIte]

/-- The words of a witness program are never executed. -/
theorem runWitnessProgram_ne_execute {env : ScriptEnv} {payload : Bytes}
    {state after : ScriptState} : runWitnessProgram env payload state ≠ .ok (.execute, after) := by
  intro returns
  obtain ⟨items, -, processed⟩ := Exec.bind_eq_ok.1 returns
  obtain ⟨⟨rc, reached⟩, -, result⟩ := Exec.bind_eq_ok.1 processed
  dsimp only at result
  split at result <;> cases result

/-! ## Parsing an output -/

/-- The bytes behind the length prefix. -/
def scriptOf (scripts : Bytes) : Bytes := scripts.drop (varintSize scripts)

/-- An output is read back with the fields on the wire; its type is read off the first byte of
the script, which must be there. -/
theorem satoshiTxoutParse_wire {value : Int64} {scripts rest : Bytes} {txout : TxoutObject}
    (isVarstr : IsVarstr scripts) :
    satoshiTxoutParse (leBytes 8 value.toUInt64.toNat ++ scripts ++ rest) =
        .ok (some (txout, rest)) ↔
      ∃ opcode words, scriptOf scripts = opcode :: words ∧ txout = ⟨value, scripts,
        if opcode ≤ 16 then txoutTypeSegwit else txoutTypeLegacy⟩ := by
  show Parser.Parses satoshiTxoutParse _ txout rest ↔ _
  rw [satoshiTxoutParse_codes]
  constructor
  · rintro ⟨⟨-, opcode, first, flags⟩, wire⟩
    have fields := List.append_cancel_right wire
    obtain ⟨sameValue, sameScripts⟩ := List.append_inj fields (by simp only [leBytes_length])
    have valueEq : value = txout.value := by
      rw [← txoutValue_leBytes value, sameValue, txoutValue_leBytes]
    rw [← sameScripts] at first
    unfold firstScriptByte at first
    unfold scriptOf
    split at first
    · cases first
    next head words script =>
      cases first
      refine ⟨opcode, words, script, ?_⟩
      rw [valueEq, sameScripts, ← flags]
  · rintro ⟨opcode, words, script, rfl⟩
    refine ⟨⟨isVarstr, opcode, ?_, rfl⟩, rfl⟩
    show firstScriptByte scripts = .ok opcode
    unfold firstScriptByte
    unfold scriptOf at script
    rw [script]

/-! ## Agreement -/

/-- The output is marked by the form of its script, its digest is chosen by that form, and
`scripts_parse` takes it for a witness program when it is marked as one. -/
structure ClassifiedAs (env : ScriptEnv) (state : ScriptState) (value : Int64)
    (scripts : Bytes) (txout : TxoutObject) : Prop where
  fields : txout.value = value ∧ txout.scripts = scripts
  segwit : txout.flags = txoutTypeSegwit ↔ IsWitnessProgram (scriptOf scripts)
  legacy : txout.flags = txoutTypeLegacy ↔ ¬ IsWitnessProgram (scriptOf scripts)
  bip143 : IsWitnessProgram (scriptOf scripts) → ∀ crypto tx txin rawtx curIndex hashType utxo,
    satoshiRawtxGetDigest crypto tx txin rawtx curIndex hashType utxo txout.flags =
      segwitUtxoGetDigest crypto tx txin rawtx curIndex hashType utxo
  plain : ¬ IsWitnessProgram (scriptOf scripts) → ∀ crypto tx txin rawtx curIndex hashType utxo,
    satoshiRawtxGetDigest crypto tx txin rawtx curIndex hashType utxo txout.flags =
      satoshiUtxoGetDigest crypto tx txin rawtx curIndex hashType
  preProcess : txoutScriptsPreProcess env (scriptOf scripts) state =
    if txout.flags = txoutTypeSegwit then runWitnessProgram env (scriptOf scripts) state
    else runOutputScript env (scriptOf scripts) state

/-- The output is accepted and classified by the form of its script. -/
def OutputClassified (env : ScriptEnv) (state : ScriptState) (value : Int64)
    (scripts rest : Bytes) : Prop :=
  ∃ txout, satoshiTxoutParse (leBytes 8 value.toUInt64.toNat ++ scripts ++ rest) =
      .ok (some (txout, rest)) ∧ ClassifiedAs env state value scripts txout

/-- The scripts on which the three tests agree with the form: programs of version 0 of an input
without a mark, and scripts above `OP_16` that are no program of a later version. -/
def FirstByteDecides (state : ScriptState) (script : Bytes) : Prop :=
  (IsProgramOf 0 script ∧ state.txin.isP2sh = false) ∨
    ∃ opcode words, script = opcode :: words ∧ 16 < opcode ∧ ¬ IsWitnessProgram script

theorem txoutTypeSegwit_ne_legacy : txoutTypeSegwit ≠ txoutTypeLegacy := by decide

/-- The digest of a mark without the bit of nested programs. -/
theorem satoshiRawtxGetDigest_segwit (crypto : CryptoBackend) (tx : SatoshiTx) (txin : TxinState)
    (rawtx : SatoshiRawtx) (curIndex : Nat) (hashType : UInt32) (utxo : SatoshiTxout) :
    satoshiRawtxGetDigest crypto tx txin rawtx curIndex hashType utxo txoutTypeSegwit =
      segwitUtxoGetDigest crypto tx txin rawtx curIndex hashType utxo := rfl

theorem satoshiRawtxGetDigest_legacy (crypto : CryptoBackend) (tx : SatoshiTx) (txin : TxinState)
    (rawtx : SatoshiRawtx) (curIndex : Nat) (hashType : UInt32) (utxo : SatoshiTxout) :
    satoshiRawtxGetDigest crypto tx txin rawtx curIndex hashType utxo txoutTypeLegacy =
      satoshiUtxoGetDigest crypto tx txin rawtx curIndex hashType := rfl

variable {env : ScriptEnv} {state : ScriptState} {value : Int64} {scripts : Bytes}
  {opcode : UInt8} {words : Bytes}

theorem classifiedAs_program (selected : env.txinIndex < env.tx.txins.length)
    (script : scriptOf scripts = opcode :: words) (small : opcode ≤ 16) :
    ClassifiedAs env state value scripts ⟨value, scripts, txoutTypeSegwit⟩ ↔
      IsWitnessProgram (scriptOf scripts) ∧ state.txin.isP2sh = false := by
  constructor
  · intro classified
    refine ⟨classified.segwit.1 rfl, ?_⟩
    by_contra marked
    have executed := classified.preProcess
    rw [if_pos rfl, txoutScriptsPreProcess_eq selected, if_neg fun both => marked both.1,
      runOutputScript, if_pos (Bool.not_eq_false _ ▸ marked)] at executed
    exact runWitnessProgram_ne_execute executed.symm
  · rintro ⟨program, unmarked⟩
    refine ⟨⟨rfl, rfl⟩, iff_of_true rfl program,
      iff_of_false txoutTypeSegwit_ne_legacy (not_not.2 program), ?_,
      fun other => absurd program other, ?_⟩
    · intro _ crypto tx txin rawtx curIndex hashType utxo
      exact satoshiRawtxGetDigest_segwit crypto tx txin rawtx curIndex hashType utxo
    · rw [txoutScriptsPreProcess_eq selected, if_pos, if_pos rfl]
      rw [script]
      exact ⟨unmarked, small⟩

theorem classifiedAs_words (selected : env.txinIndex < env.tx.txins.length)
    (script : scriptOf scripts = opcode :: words) (large : 16 < opcode) :
    ClassifiedAs env state value scripts ⟨value, scripts, txoutTypeLegacy⟩ ↔
      ¬ IsWitnessProgram (scriptOf scripts) := by
  constructor
  · intro classified
    exact classified.legacy.1 rfl
  · intro other
    refine ⟨⟨rfl, rfl⟩, iff_of_false txoutTypeSegwit_ne_legacy.symm other, iff_of_true rfl other,
      fun program => absurd program other, ?_, ?_⟩
    · intro _ crypto tx txin rawtx curIndex hashType utxo
      exact satoshiRawtxGetDigest_legacy crypto tx txin rawtx curIndex hashType utxo
    · have above : ¬ (scriptOf scripts).headD 0 ≤ 16 := by
        rw [script]
        exact UInt8.not_le.2 large
      rw [txoutScriptsPreProcess_eq selected, if_neg fun both => above both.2]
      exact (if_neg txoutTypeSegwit_ne_legacy.symm).symm

/-- Output parser, digest choice and script parser agree with the form of a script exactly where
its first byte decides that form. -/
theorem outputClassified_iff (selected : env.txinIndex < env.tx.txins.length)
    (isVarstr : IsVarstr scripts) (rest : Bytes) :
    OutputClassified env state value scripts rest ↔ FirstByteDecides state (scriptOf scripts) := by
  constructor
  · rintro ⟨txout, parses, classified⟩
    obtain ⟨opcode, words, script, rfl⟩ := (satoshiTxoutParse_wire isVarstr).1 parses
    by_cases small : opcode ≤ 16
    · rw [if_pos small] at classified
      obtain ⟨program, unmarked⟩ := (classifiedAs_program selected script small).1 classified
      rw [script] at program ⊢
      exact Or.inl ⟨program.version_zero small, unmarked⟩
    · rw [if_neg small] at classified
      have large := UInt8.not_le.1 small
      have other := (classifiedAs_words selected script large).1 classified
      exact Or.inr ⟨opcode, words, script, large, other⟩
  · rintro (⟨program, unmarked⟩ | ⟨opcode, words, script, large, other⟩)
    · obtain ⟨push, data, script, -⟩ := id program
      refine ⟨_, (satoshiTxoutParse_wire isVarstr).2 ⟨0, push :: data, script, rfl⟩, ?_⟩
      rw [if_pos (by decide)]
      apply (classifiedAs_program selected script (by decide)).2
      exact ⟨⟨0, Or.inl rfl, program⟩, unmarked⟩
    · refine ⟨_, (satoshiTxoutParse_wire isVarstr).2 ⟨opcode, words, script, rfl⟩, ?_⟩
      rw [if_neg (UInt8.not_le.2 large)]
      exact (classifiedAs_words selected script large).2 other

/-- A program of version 0 with 20 bytes. -/
theorem outputClassified_iff_p2wpkh :
    OutputClassified sampleEnv sampleState 1 (22 :: 0 :: 20 :: List.replicate 20 7) [] ↔
      FirstByteDecides sampleState (scriptOf (22 :: 0 :: 20 :: List.replicate 20 7)) :=
  outputClassified_iff (by decide) (by decide) []

/-- A program of version 1 is marked as legacy, and the type of an empty script is read behind its
end. -/
theorem laterVersion_not_classified :
    ¬ OutputClassified sampleEnv sampleState 1 (34 :: 0x51 :: 32 :: List.replicate 32 7) [] ∧
      ¬ OutputClassified sampleEnv sampleState 1 [0] [] := by
  constructor
  · rintro ⟨txout, parses, classified⟩
    have program : IsWitnessProgram (0x51 :: 32 :: List.replicate 32 7) :=
      ⟨0x51, by decide, 32, List.replicate 32 7, rfl, by decide⟩
    obtain ⟨opcode, words, script, rfl⟩ := (satoshiTxoutParse_wire (by decide)).1 parses
    obtain ⟨rfl, -⟩ := List.cons.inj script
    exact absurd (classified.segwit.2 program) txoutTypeSegwit_ne_legacy.symm
  · rintro ⟨txout, parses, -⟩
    obtain ⟨opcode, words, script, -⟩ := (satoshiTxoutParse_wire (by decide)).1 parses
    exact nomatch script

end BitcoinClib.Script
