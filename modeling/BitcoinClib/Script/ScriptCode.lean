import BitcoinClib.Script.Starts
import BitcoinClib.Tx.LegacyDigest

/-!
Contract: `OP_CODESEPARATOR` and the script code of signature checks.

Owns:
- `Cursor` and `Executes`, the words a run executes in order, with their offsets and the
  separator executed last;
- `ScriptCodeExact`, that every check of a run sees the script behind that separator;
- the exact runs for which this holds.

Does not own: what a signature check does with the script code.

The source keeps the script code as a start position in the copy of the redeem script that
is recorded for the input. A script that is run from another buffer has no position there.
-/

namespace BitcoinClib.Script

open BitcoinClib.Lib
open BitcoinClib.Lib.Exec
open BitcoinClib.Types
open BitcoinClib.Crypto
open BitcoinClib.Tx

variable {env : ScriptEnv} {type : TxScriptType} {origin : Option Nat} {op : UInt8} {p : Bytes}
  {state after : ScriptState}

/-! ## Words and the recorded script -/

/-- `satoshi_script_opcode_op_codeseparator` -/
def opCodeseparator : UInt8 := 0xab

/-- `OP_CHECKSIG`, `OP_CHECKSIGVERIFY` and `OP_CHECKMULTISIG`. -/
def ChecksSignatures (op : UInt8) : Prop := op = 0xac ∨ op = 0xad ∨ op = 0xae

theorem ofByte_codeseparator_iff (op : UInt8) :
    ScriptOpcode.ofByte op = .codeseparator ↔ op = opCodeseparator := by
  revert op
  exact forall_byte (by decide +kernel)

theorem sameTxin_relation (env : ScriptEnv) (txin : TxinState) :
    StackRelation env fun left right => left = right ∧ left.txin = txin where
  mainStack := fun related => congrArg _ related.1
  txin := fun related => congrArg _ related.1
  dropTop := fun related => ⟨congrArg _ related.1, related.2⟩
  push := fun related _ => ⟨by rw [related.1], related.2⟩
  digest := by
    rintro left right ⟨rfl, same⟩ hashType
    cases digests : getDigest env left hashType with
    | ok result =>
        refine ⟨rfl, rfl, ?_⟩
        rw [getDigest_frame digests]
        exact same
    | fault cause => rfl
    | timeout => trivial

/-- A word outside conditionals, other than `OP_CODESEPARATOR`, leaves the fields of the input
alone. -/
theorem parseByte_txin {parse : ParseCall} {result : Option Nat × ScriptState}
    (word : type = .txin ∨ conditionalOf op = none) (plain : op ≠ opCodeseparator)
    (returns : parseByte parse env type op origin p state = .ok result) :
    result.2.txin = state.txin := by
  have start : state = state ∧ state.txin = state.txin := ⟨rfl, rfl⟩
  have relation := sameTxin_relation env state.txin
  rw [parseByte] at returns
  split_ifs at returns with zero push last txin small
  · cases returns
    rfl
  · have pushed := parseOpPushData_related relation op p start
    rw [Exec.ok.inj returns] at pushed
    exact pushed.2.2
  · cases returns
    rfl
  · cases returns
    rfl
  · have notConditional : (ScriptOpcode.ofByte op).isConditional = false := by
      rw [isConditional_ofByte, word.resolve_left txin]
      rfl
    have notSeparator := mt (ofByte_codeseparator_iff op).1 plain
    have run := parseOpcode_plain_related relation notConditional notSeparator parse parse origin p
      start
    rw [returns] at run
    exact run.2.2

theorem parseByte_codeseparator (notTxin : type ≠ .txin) (parse : ParseCall) :
    parseByte parse env type opCodeseparator origin p state =
      ofReturnCode (parseOpCodeseparator env origin state) := by
  simp only [parseByte, if_neg notTxin]
  rfl

/-- The start position after a separator. -/
def ScriptState.withStartPos (state : ScriptState) (position : Nat) : ScriptState :=
  { state with txin := { state.txin with redeemScriptsStartPos := position } }

/-- A separator is executed when it lies in the recorded script, and is not its last byte. -/
theorem parseOpCodeseparator_eq_zero :
    parseOpCodeseparator env origin state = .ok (0, after) ↔
      env.txinIndex < env.tx.txins.length ∧ ∃ script position,
        state.txin.redeemScripts = some script ∧ origin = some position ∧
        position < script.length ∧ after = state.withStartPos position := by
  unfold parseOpCodeseparator
  by_cases outside : env.tx.txins.length ≤ env.txinIndex
  · rw [if_pos outside]
    exact iff_of_false (by simp) (fun inside => absurd inside.1 (Nat.not_lt_of_le outside))
  rw [if_neg outside]
  cases recorded : state.txin.redeemScripts with
  | none => simp
  | some script =>
      cases origin with
      | none => simp
      | some position =>
          simp only [Exec.bind_eq_ok, Exec.assert_eq_ok, Exec.pure_eq, Exec.ok.injEq,
            Prod.mk.injEq, true_and, Option.some.injEq, exists_and_left, exists_eq_left']
          constructor
          · rintro ⟨inside, -, same⟩
            exact ⟨Nat.lt_of_not_le outside, inside, same.symm⟩
          · rintro ⟨-, inside, same⟩
            exact ⟨inside, (), same.symm⟩

/-- A separator that is passed has moved the start position behind it. -/
theorem parseByte_codeseparator_passes {parse : ParseCall} {consumed : Nat}
    (passes : parseByte parse env type opCodeseparator origin p state =
      .ok (some consumed, after)) :
    consumed = 0 ∧ parseOpCodeseparator env origin state = .ok (0, after) := by
  by_cases txin : type = .txin
  · subst txin
    cases passes
  rw [parseByte_codeseparator txin, ofReturnCode] at passes
  obtain ⟨⟨rc, moved⟩, separates, passes⟩ := bind_eq_ok.1 passes
  simp only [Exec.pure_eq, Exec.ok.injEq, Prod.mk.injEq] at passes
  obtain ⟨zero, rfl⟩ := passes
  split_ifs at zero with succeeds
  subst succeeds
  exact ⟨(Option.some.inj zero).symm, separates⟩

/-! ## Execution in order -/

/-- A word about to be executed, its offset in the script that is run, and the offset behind
the separator executed last. -/
structure Cursor where
  point : ControlPoint
  offset : Nat
  separator : Option Nat

/-- A word at an offset is executed. -/
def separatorAfter (op : UInt8) (offset : Nat) (separator : Option Nat) : Option Nat :=
  if op = opCodeseparator then some (offset + 1) else separator

/-- The words executed from one point on, a conditional as its test and the words of the branch
it runs. -/
inductive Executes (env : ScriptEnv) : Cursor → Cursor → Prop
  | here (cursor : Cursor) : Executes env cursor cursor
  | word {type : TxScriptType} {origin : Option Nat} {op : UInt8} {p : Bytes}
      {state after : ScriptState} {consumed offset : Nat} {separator : Option Nat}
      {there : Cursor} (word : type = .txin ∨ conditionalOf op = none)
      (passes : parseByte (scriptsParseUnknown env) env type op (origin.map (· + 1)) p state =
        .ok (some consumed, after))
      (later : Executes env ⟨.next type origin p consumed after, offset + 1 + consumed,
        separatorAfter op offset separator⟩ there) :
      Executes env ⟨⟨type, origin, op :: p, state⟩, offset, separator⟩ there
  | skip {type : TxScriptType} {origin : Option Nat} {op : UInt8} {p : Bytes}
      {state middle : ScriptState} {isNotif : Bool} {pEndif offset : Nat} {separator : Option Nat}
      {there : Cursor} (notTxin : type ≠ .txin) (conditional : conditionalOf op = some isNotif)
      (chosen : chooseBranch isNotif p state.deeper = .ok (.skip pEndif, middle))
      (later : Executes env ⟨.next type origin p pEndif
        (middle.withDepth (middle.ifStatementDepth - 1)), offset + 1 + pEndif, separator⟩ there) :
      Executes env ⟨⟨type, origin, op :: p, state⟩, offset, separator⟩ there
  | branch {type : TxScriptType} {origin innerOrigin : Option Nat} {op : UInt8} {p : Bytes}
      {state inside closed : ScriptState} {isNotif : Bool}
      {start length pEndif offset innerOffset : Nat} {separator innerSeparator : Option Nat}
      {there : Cursor} (notTxin : type ≠ .txin) (conditional : conditionalOf op = some isNotif)
      (chosen : chooseBranch isNotif p state.deeper = .ok (.branch start length pEndif, inside))
      (nonempty : 0 < length)
      (inner : Executes env ⟨.enter origin p start length inside, offset + 1 + start, separator⟩
        ⟨⟨.unknown, innerOrigin, [], closed⟩, innerOffset, innerSeparator⟩)
      (passes : parseByte (scriptsParseUnknown env) env type op (origin.map (· + 1)) p state =
        .ok (some pEndif, closed.withDepth (closed.ifStatementDepth - 1)))
      (later : Executes env ⟨.next type origin p pEndif
        (closed.withDepth (closed.ifStatementDepth - 1)), offset + 1 + pEndif, innerSeparator⟩
        there) :
      Executes env ⟨⟨type, origin, op :: p, state⟩, offset, separator⟩ there
  | enter {type : TxScriptType} {origin : Option Nat} {op : UInt8} {p : Bytes}
      {state inside : ScriptState} {isNotif : Bool} {start length pEndif offset : Nat}
      {separator : Option Nat} {there : Cursor} (notTxin : type ≠ .txin)
      (conditional : conditionalOf op = some isNotif)
      (chosen : chooseBranch isNotif p state.deeper = .ok (.branch start length pEndif, inside))
      (nonempty : 0 < length)
      (later : Executes env ⟨.enter origin p start length inside, offset + 1 + start, separator⟩
        there) :
      Executes env ⟨⟨type, origin, op :: p, state⟩, offset, separator⟩ there

/-- A run to the end executes its words up to there. -/
theorem Runs.executes {point : ControlPoint} {finished : Bool}
    (runs : Runs env point finished after) (ended : finished = true) (offset : Nat)
    (separator : Option Nat) :
    ∃ finalOrigin finalOffset finalSeparator, Executes env ⟨point, offset, separator⟩
      ⟨⟨point.type, finalOrigin, [], after⟩, finalOffset, finalSeparator⟩ := by
  induction runs generalizing offset separator with
  | done => exact ⟨_, _, _, .here _⟩
  | refuse refuses => cases ended
  | word word passes rest inductionHypothesis =>
      obtain ⟨_, _, _, later⟩ := inductionHypothesis ended _ _
      exact ⟨_, _, _, .word word passes later⟩
  | skip notTxin conditional chosen passes rest inductionHypothesis =>
      obtain ⟨_, _, _, later⟩ := inductionHypothesis ended _ _
      exact ⟨_, _, _, .skip notTxin conditional chosen later⟩
  | branch notTxin conditional chosen nonempty inner passes rest innerHypothesis restHypothesis =>
      obtain ⟨_, _, _, within⟩ := innerHypothesis rfl _ _
      obtain ⟨_, _, _, later⟩ := restHypothesis ended _ _
      exact ⟨_, _, _, .branch notTxin conditional chosen nonempty within passes later⟩
  | refusedBranch notTxin conditional chosen nonempty inner inductionHypothesis => cases ended

/-- Every point that control reaches is reached by executing words in order. -/
theorem Leads.executes {level : Nat} {here there : ControlPoint}
    (leads : Leads env level here there) (offset : Nat) (separator : Option Nat) :
    ∃ thereOffset thereSeparator,
      Executes env ⟨here, offset, separator⟩ ⟨there, thereOffset, thereSeparator⟩ := by
  induction leads generalizing offset separator with
  | here point => exact ⟨_, _, .here _⟩
  | @next type _ op _ _ _ _ _ _ passes later inductionHypothesis =>
      by_cases word : type = .txin ∨ conditionalOf op = none
      · obtain ⟨_, _, later⟩ := inductionHypothesis _ _
        exact ⟨_, _, .word word passes later⟩
      · obtain ⟨notTxin, someConditional⟩ := not_or.1 word
        obtain ⟨isNotif, conditional⟩ := Option.ne_none_iff_exists'.1 someConditional
        obtain ⟨closed, rfl, chosen | ⟨start, length, inside, chosen, nonempty, inner⟩⟩ :=
          parseByte_conditional_passes notTxin conditional passes
        · obtain ⟨_, _, later⟩ := inductionHypothesis _ _
          exact ⟨_, _, .skip notTxin conditional chosen later⟩
        · obtain ⟨_, _, _, within⟩ := inner.executes rfl _ _
          obtain ⟨_, _, later⟩ := inductionHypothesis _ _
          exact ⟨_, _, .branch notTxin conditional chosen nonempty within passes later⟩
  | enter notTxin conditional chosen nonempty later inductionHypothesis =>
      obtain ⟨_, _, later⟩ := inductionHypothesis _ _
      exact ⟨_, _, .enter notTxin conditional chosen nonempty later⟩

/-! ## Where the script lies -/

/-- The script that is run is the recorded one: its words lie where they are read from, and the
start position is behind the last separator. -/
structure InRecorded (script : Bytes) (first : Nat) (cursor : Cursor) : Prop where
  origin : cursor.point.origin = some cursor.offset
  recorded : cursor.point.state.txin.redeemScripts = some script
  startPos : cursor.point.state.txin.redeemScriptsStartPos = cursor.separator.getD first

/-- The script that is run lies in another buffer, and no separator was executed. -/
structure Elsewhere (txin : TxinState) (cursor : Cursor) : Prop where
  origin : cursor.point.origin = none
  unseparated : cursor.separator = none
  txin : cursor.point.state.txin = txin

theorem chooseBranch_txin {isNotif : Bool} {choice : Choice}
    (chosen : chooseBranch isNotif p state.deeper = .ok (choice, after)) :
    after.txin = state.txin := by
  rcases chooseBranch_frame chosen with ⟨-, rfl⟩ | ⟨-, rfl⟩
  · rfl
  · rfl

theorem InRecorded.next {script : Bytes} {first offset : Nat} {separator separator' : Option Nat}
    (lies : InRecorded script first ⟨⟨type, origin, op :: p, state⟩, offset, separator⟩)
    (consumed : Nat) (recorded : after.txin.redeemScripts = some script)
    (startPos : after.txin.redeemScriptsStartPos = separator'.getD first) :
    InRecorded script first ⟨.next type origin p consumed after, offset + 1 + consumed,
      separator'⟩ := by
  have here : origin = some offset := lies.origin
  subst here
  exact ⟨rfl, recorded, startPos⟩

theorem InRecorded.enter {script : Bytes} {first offset : Nat} {separator : Option Nat}
    (lies : InRecorded script first ⟨⟨type, origin, op :: p, state⟩, offset, separator⟩)
    (start length : Nat) (kept : after.txin = state.txin) :
    InRecorded script first ⟨.enter origin p start length after, offset + 1 + start,
      separator⟩ := by
  have here : origin = some offset := lies.origin
  subst here
  exact ⟨rfl, (congrArg TxinState.redeemScripts kept).trans lies.recorded,
    (congrArg TxinState.redeemScriptsStartPos kept).trans lies.startPos⟩

theorem InRecorded.word {script : Bytes} {first consumed offset : Nat} {separator : Option Nat}
    (lies : InRecorded script first ⟨⟨type, origin, op :: p, state⟩, offset, separator⟩)
    (word : type = .txin ∨ conditionalOf op = none)
    (passes : parseByte (scriptsParseUnknown env) env type op (origin.map (· + 1)) p state =
      .ok (some consumed, after)) :
    InRecorded script first ⟨.next type origin p consumed after, offset + 1 + consumed,
      separatorAfter op offset separator⟩ := by
  have here : origin = some offset := lies.origin
  by_cases separates : op = opCodeseparator
  · subst separates
    obtain ⟨rfl, moves⟩ := parseByte_codeseparator_passes passes
    obtain ⟨-, script', position, -, reads, -, rfl⟩ := parseOpCodeseparator_eq_zero.1 moves
    rw [here] at reads
    cases reads
    exact lies.next 0 lies.recorded rfl
  · have kept := parseByte_txin word separates passes
    have unseparated : separatorAfter op offset separator = separator := if_neg separates
    rw [unseparated]
    exact lies.next consumed ((congrArg TxinState.redeemScripts kept).trans lies.recorded)
      ((congrArg TxinState.redeemScriptsStartPos kept).trans lies.startPos)

/-- A run of the recorded script stays in it. -/
theorem Executes.inRecorded {script : Bytes} {first : Nat} {here there : Cursor}
    (executes : Executes env here there) (lies : InRecorded script first here) :
    InRecorded script first there := by
  induction executes with
  | here cursor => exact lies
  | word word passes later inductionHypothesis =>
      exact inductionHypothesis (lies.word word passes)
  | skip notTxin conditional chosen later inductionHypothesis =>
      have kept := chooseBranch_txin chosen
      exact inductionHypothesis (lies.next _
        ((congrArg TxinState.redeemScripts kept).trans lies.recorded)
        ((congrArg TxinState.redeemScriptsStartPos kept).trans lies.startPos))
  | branch notTxin conditional chosen nonempty inner passes later innerHypothesis laterHypothesis =>
      have within := innerHypothesis (lies.enter _ _ (chooseBranch_txin chosen))
      exact laterHypothesis (lies.next _ within.recorded within.startPos)
  | enter notTxin conditional chosen nonempty later inductionHypothesis =>
      exact inductionHypothesis (lies.enter _ _ (chooseBranch_txin chosen))

theorem Elsewhere.word {txin : TxinState} {consumed offset : Nat} {separator : Option Nat}
    (lies : Elsewhere txin ⟨⟨type, origin, op :: p, state⟩, offset, separator⟩)
    (word : type = .txin ∨ conditionalOf op = none)
    (passes : parseByte (scriptsParseUnknown env) env type op (origin.map (· + 1)) p state =
      .ok (some consumed, after)) :
    Elsewhere txin ⟨.next type origin p consumed after, offset + 1 + consumed,
      separatorAfter op offset separator⟩ := by
  obtain ⟨origin', unseparated, kept⟩ := lies
  simp only at origin' unseparated kept
  subst origin' unseparated
  by_cases separates : op = opCodeseparator
  · subst separates
    obtain ⟨-, moves⟩ := parseByte_codeseparator_passes passes
    obtain ⟨-, script, position, -, here, -⟩ := parseOpCodeseparator_eq_zero.1 moves
    cases here
  · refine ⟨rfl, ?_, (parseByte_txin word separates passes).trans kept⟩
    rw [separatorAfter, if_neg separates]

/-- A run of a script in another buffer executes no separator. -/
theorem Executes.elsewhere {txin : TxinState} {here there : Cursor}
    (executes : Executes env here there) (lies : Elsewhere txin here) : Elsewhere txin there := by
  induction executes with
  | here cursor => exact lies
  | word word passes later inductionHypothesis =>
      exact inductionHypothesis (lies.word word passes)
  | skip notTxin conditional chosen later inductionHypothesis =>
      obtain ⟨rfl, rfl, kept⟩ := lies
      exact inductionHypothesis ⟨rfl, rfl, (chooseBranch_txin chosen).trans kept⟩
  | branch notTxin conditional chosen nonempty inner passes later innerHypothesis laterHypothesis =>
      obtain ⟨rfl, rfl, kept⟩ := lies
      obtain ⟨-, unseparated, innerKept⟩ :=
        innerHypothesis ⟨rfl, rfl, (chooseBranch_txin chosen).trans kept⟩
      exact laterHypothesis ⟨rfl, unseparated, innerKept⟩
  | enter notTxin conditional chosen nonempty later inductionHypothesis =>
      obtain ⟨rfl, rfl, kept⟩ := lies
      exact inductionHypothesis ⟨rfl, rfl, (chooseBranch_txin chosen).trans kept⟩

/-! ## Script codes of a run -/

/-- The words a run executes. -/
def Reached (env : ScriptEnv) (start : ControlPoint) (cursor : Cursor) : Prop :=
  Executes env ⟨start, 0, none⟩ cursor

/-- At every signature check the script code is the script behind the separator executed last,
and every separator is executed. -/
structure ScriptCodeExact (env : ScriptEnv) (start : ControlPoint) : Prop where
  separators : ∀ cursor, Reached env start cursor →
    cursor.point.rest.head? = some opCodeseparator →
    ∃ after, parseOpCodeseparator env (cursor.point.origin.map (· + 1)) cursor.point.state =
      .ok (0, after)
  checks : ∀ cursor op, Reached env start cursor → cursor.point.rest.head? = some op →
    ChecksSignatures op →
    scriptCode cursor.point.state.txin = start.rest.drop (cursor.separator.getD 0)

/-- The run meets separators only inside the recorded script, and a check before any of them
only if that script is recorded from its first byte on. -/
structure ScriptCodeRecorded (env : ScriptEnv) (start : ControlPoint) : Prop where
  separators : ∀ cursor, Reached env start cursor →
    cursor.point.rest.head? = some opCodeseparator →
    start.origin ≠ none ∧ cursor.offset + 1 < start.rest.length
  checks : ∀ cursor op, Reached env start cursor → cursor.point.rest.head? = some op →
    ChecksSignatures op → cursor.separator = none →
    scriptCode start.state.txin = start.rest

theorem scriptCodeExact_elsewhere_iff {start : ControlPoint} (lies : start.origin = none) :
    ScriptCodeExact env start ↔ ScriptCodeRecorded env start := by
  have reached : ∀ {cursor}, Reached env start cursor → Elsewhere start.state.txin cursor :=
    fun executes => executes.elsewhere ⟨lies, rfl, rfl⟩
  constructor
  · intro exact'
    constructor
    · intro cursor executes separates
      obtain ⟨after, moves⟩ := exact'.separators cursor executes separates
      obtain ⟨-, script, position, -, here, -⟩ := parseOpCodeseparator_eq_zero.1 moves
      rw [(reached executes).origin] at here
      cases here
    · intro cursor op executes next checks unseparated
      have code := exact'.checks cursor op executes next checks
      rw [unseparated, (reached executes).txin] at code
      exact code
  · intro recorded
    constructor
    · intro cursor executes separates
      exact absurd lies (recorded.separators cursor executes separates).1
    · intro cursor op executes next checks
      have unseparated := (reached executes).unseparated
      rw [unseparated, (reached executes).txin]
      exact recorded.checks cursor op executes next checks unseparated

theorem scriptCodeExact_recorded_iff {start : ControlPoint} {first : Nat}
    (selected : env.txinIndex < env.tx.txins.length)
    (lies : InRecorded start.rest first ⟨start, 0, none⟩) :
    ScriptCodeExact env start ↔ ScriptCodeRecorded env start := by
  have reached : ∀ {cursor}, Reached env start cursor → InRecorded start.rest first cursor :=
    fun executes => executes.inRecorded lies
  have code : ∀ {cursor}, Reached env start cursor →
      scriptCode cursor.point.state.txin = start.rest.drop (cursor.separator.getD first) := by
    intro cursor executes
    rw [scriptCode, (reached executes).recorded, (reached executes).startPos, Option.getD_some]
  have startCode : scriptCode start.state.txin = start.rest.drop first := code (.here _)
  constructor
  · intro exact'
    constructor
    · intro cursor executes separates
      obtain ⟨after, moves⟩ := exact'.separators cursor executes separates
      obtain ⟨-, script, position, present, here, inside, -⟩ :=
        parseOpCodeseparator_eq_zero.1 moves
      rw [(reached executes).recorded] at present
      rw [(reached executes).origin] at here
      cases present
      cases here
      have origin : start.origin = some 0 := lies.origin
      exact ⟨by rw [origin]; exact Option.some_ne_none 0, inside⟩
    · intro cursor op executes next checks unseparated
      have atCheck := exact'.checks cursor op executes next checks
      rw [code executes, unseparated] at atCheck
      rw [startCode]
      exact atCheck
  · intro recorded
    constructor
    · intro cursor executes separates
      have inside := (recorded.separators cursor executes separates).2
      exact ⟨_, parseOpCodeseparator_eq_zero.2 ⟨selected, start.rest, cursor.offset + 1,
        (reached executes).recorded, by rw [(reached executes).origin]; rfl, inside, rfl⟩⟩
    · intro cursor op executes next checks
      rw [code executes]
      cases separator : cursor.separator with
      | some position => rfl
      | none =>
          have whole := recorded.checks cursor op executes next checks separator
          rw [startCode] at whole
          exact whole

/-! ## Calls -/

theorem redeemStart_recorded {start : ControlPoint} (starts : redeemStart state = some start) :
    InRecorded start.rest 0 ⟨start, 0, none⟩ := by
  unfold redeemStart at starts
  split at starts
  case h_2 => cases starts
  case h_1 =>
    split_ifs at starts
    split at starts
    case h_2 => cases starts
    case h_1 =>
      cases starts
      exact ⟨rfl, rfl, rfl⟩

/-- A redeem script, and the script of a script hash, are recorded from their first byte on. -/
theorem redeemStart_scriptCode {start : ControlPoint} (starts : redeemStart state = some start) :
    scriptCode start.state.txin = start.rest := by
  have lies := redeemStart_recorded starts
  rw [scriptCode, lies.recorded, lies.startPos]
  rfl

theorem segwitStart_recorded {program : Bytes} {start : ControlPoint}
    (starts : segwitStart program state = some start) :
    ∃ first, InRecorded start.rest first ⟨start, 0, none⟩ := by
  unfold segwitStart at starts
  split at starts
  · split_ifs at starts
    · cases starts
      exact ⟨state.txin.redeemScriptsStartPos, rfl, rfl, rfl⟩
    · exact ⟨0, redeemStart_recorded starts⟩
  · cases starts

/-- A run whose words have a place has it in the recorded script. -/
theorem CallStart.recorded {payload : Bytes} {start : ControlPoint}
    (starts : CallStart env type payload state start) :
    start.origin = none ∨
      env.txinIndex < env.tx.txins.length ∧
        ∃ first, InRecorded start.rest first ⟨start, 0, none⟩ := by
  cases starts with
  | unknown nonempty => exact .inl rfl
  | txin nonempty => exact .inl rfl
  | redeem selected nonempty marked pushes starts =>
      exact .inr ⟨selected, 0, redeemStart_recorded starts⟩
  | program selected nonempty calls starts => exact .inr ⟨selected, segwitStart_recorded starts⟩
  | txout nonempty preProcessed => exact .inl rfl

/-- Every script a call executes has exact script codes. -/
def CallScriptCodesExact (env : ScriptEnv) (type : TxScriptType) (payload : Bytes)
    (state : ScriptState) : Prop :=
  ∀ start, CallStart env type payload state start → start.type ≠ .txin →
    ScriptCodeExact env start

/-- Every script a call executes is recorded where its separators and checks need it. -/
def CallScriptCodesRecorded (env : ScriptEnv) (type : TxScriptType) (payload : Bytes)
    (state : ScriptState) : Prop :=
  ∀ start, CallStart env type payload state start → start.type ≠ .txin →
    ScriptCodeRecorded env start

/-- The script codes of a call are exact if and only if its separators lie inside the recorded
script, and so does every script that is checked before a separator. -/
theorem scriptsParse_scriptCode_iff (env : ScriptEnv) (type : TxScriptType) (payload : Bytes)
    (state : ScriptState) :
    CallScriptCodesExact env type payload state ↔
      CallScriptCodesRecorded env type payload state := by
  have each : ∀ {start}, CallStart env type payload state start →
      (ScriptCodeExact env start ↔ ScriptCodeRecorded env start) := by
    intro start starts
    rcases starts.recorded with elsewhere | ⟨selected, first, lies⟩
    · exact scriptCodeExact_elsewhere_iff elsewhere
    · exact scriptCodeExact_recorded_iff selected lies
  constructor
  · intro exact' start starts executed
    exact (each starts).1 (exact' start starts executed)
  · intro recorded start starts executed
    exact (each starts).2 (recorded start starts executed)

/-- A separator in an output script aborts. -/
theorem bareSeparator_not_exact :
    scriptsParse sampleEnv .txout [0xab, 0xac] sampleState = .fault .assertion ∧
      ¬ ∀ env type payload state, CallScriptCodesExact env type payload state := by
  refine ⟨rfl, ?_⟩
  intro exact'
  have starts : CallStart sampleEnv .txout [0xab, 0xac] sampleState
      ⟨.txout, none, [0xab, 0xac], { sampleState with
        txin := { sampleState.txin with redeemScripts := some [0xab, 0xac] } }⟩ :=
    .txout (by decide) rfl
  obtain ⟨after, moves⟩ := (exact' _ _ _ _ _ starts (by decide)).separators _ (.here _) rfl
  cases moves

end BitcoinClib.Script
