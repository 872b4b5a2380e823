import BitcoinClib.Script.Conditionals

/-!
Contract: the scripts that one call of `scripts_parse` runs, and the state each starts in.

Owns:
- `redeemStart`, `segwitStart` and `segwitCall`, the runs started behind an input script
  and before an output script;
- `CallStart`, every run of a call;
- that the functions around the opcode loop change the stack, the fields of the input and
  the flags of the output, and leave the conditional depth to the runs they start.

Does not own: what the runs compute.
-/

namespace BitcoinClib.Script

open BitcoinClib.Lib
open BitcoinClib.Lib.Exec
open BitcoinClib.Types
open BitcoinClib.Crypto
open BitcoinClib.Tx

/-! ## Starts -/

/-- The run of a redeem script in `txin_p2sh_scripts_post_process`, if it gets that far. -/
def redeemStart (state : ScriptState) : Option ControlPoint :=
  match state.items with
  | some sdata :: _ =>
      if sdata.type.value < ScriptDataType.varstr.value then none
      else
        match sdata.value with
        | .data buffer =>
            let redeem := (buffer.getD []).take sdata.size
            some ⟨.unknown, some 0, redeem, redeemState state redeem⟩
        | .inline _ => none
  | _ => none

/-- The run of the script for a key hash in `parse_segwit_script`. -/
def keyHashStart (program : Bytes) (state : ScriptState) : ControlPoint :=
  let redeemScripts := state.txin.redeemScripts.getD (generateP2pkhScript program)
  ⟨.unknown, some 0, redeemScripts,
    { state with txin := { state.txin with redeemScripts := some redeemScripts } }⟩

/-- The run started by `parse_segwit_script`. -/
def segwitStart (payload : Bytes) (state : ScriptState) : Option ControlPoint :=
  match payload with
  | versionByte :: programLength :: p =>
      if versionByte ≠ 0 then none
      else if p.length < programLength.toNat then none
      else if programLength = 20 then some (keyHashStart (p.take 20) state)
      else if programLength = 32 then redeemStart state
      else none
  | _ => none

/-- The arguments of the call of `parse_segwit_script` in `txout_scripts_pre_process`: the
witness program, and the state with the witness pushed. -/
def segwitCall (env : ScriptEnv) (payload : Bytes) (state : ScriptState) :
    Option (Bytes × ScriptState) :=
  if state.txin.isP2sh then none
  else
    match flaggedWitnessItems env with
    | .ok items =>
        if 16 < payload.headD 0 then
          if items = [] then none
          else
            let flagged :=
              { state with utxoFlags := state.utxoFlags ||| txoutTypeP2shSegwitFlags }
            match state.items with
            | some ⟨_, .data (some buffer), size, _⟩ :: _ =>
                if size = 0 ∨ (buffer.take size).length ≤ 2 then none
                else some (buffer.take size, pushWitnessItems items flagged.dropTop)
            | _ => none
        else some (payload, pushWitnessItems items state)
    | _ => none

/-- The runs of a call of `scripts_parse`. -/
inductive CallStart (env : ScriptEnv) : TxScriptType → Bytes → ScriptState → ControlPoint → Prop
  | unknown {payload : Bytes} {state : ScriptState} (nonempty : payload ≠ []) :
      CallStart env .unknown payload state ⟨.unknown, none, payload, state⟩
  | txin {payload : Bytes} {state : ScriptState} (nonempty : payload ≠ []) :
      CallStart env .txin payload state
        ⟨.txin, none, if payload.headD 0 = 0 then payload.drop 1 else payload, state⟩
  | redeem {payload : Bytes} {state pushed : ScriptState} {start : ControlPoint}
      (selected : env.txinIndex < env.tx.txins.length) (nonempty : payload ≠ [])
      (marked : payload.headD 0 = 0)
      (pushes : runScript env .txin none (payload.drop 1) state = .ok (true, pushed))
      (starts : redeemStart pushed = some start) : CallStart env .txin payload state start
  | program {payload program : Bytes} {state called : ScriptState} {start : ControlPoint}
      (selected : env.txinIndex < env.tx.txins.length) (nonempty : payload ≠ [])
      (calls : segwitCall env payload state = some (program, called))
      (starts : segwitStart program called = some start) : CallStart env .txout payload state start
  | txout {payload : Bytes} {state started : ScriptState} (nonempty : payload ≠ [])
      (preProcessed : txoutScriptsPreProcess env payload state = .ok (.execute, started)) :
      CallStart env .txout payload state ⟨.txout, none, payload, started⟩

/-! ## The functions around the loop -/

variable {env : ScriptEnv} {payload : Bytes} {state after : ScriptState}

theorem redeemStart_depth {start : ControlPoint} (starts : redeemStart state = some start) :
    start.state.ifStatementDepth = state.ifStatementDepth := by
  unfold redeemStart at starts
  split at starts
  · split_ifs at starts
    split at starts
    · cases starts
      rfl
    · cases starts
  · cases starts

/-- What `txin_p2sh_scripts_post_process` does once the redeem script has run. -/
def finishRedeem (sdata : ScriptData) (redeem : Bytes) (result : Bool × ScriptState) :
    Exec (Int × ScriptState) :=
  if parsedLength redeem result.1 ≠ sdata.size then .ok (-1, result.2)
  else do
    let (rc, verified) ← scriptsVerify result.2
    if rc = 0 then return (0, verified.push sdata) else return (rc, verified)

theorem finishRedeem_depth {sdata : ScriptData} {redeem : Bytes} {result : Bool × ScriptState}
    {rc : Int} (returns : finishRedeem sdata redeem result = .ok (rc, after)) :
    after.ifStatementDepth = result.2.ifStatementDepth := by
  unfold finishRedeem at returns
  split_ifs at returns with short
  · cases returns
    rfl
  · obtain ⟨⟨rc', verified⟩, verifies, returns⟩ := bind_eq_ok.1 returns
    have frame := scriptsVerify_frame verifies
    subst frame
    simp only at returns
    split_ifs at returns
    · cases returns
      rfl
    · cases returns
      rfl

/-- The post-processing runs its redeem script, or returns at once. -/
theorem txinP2shScriptsPostProcess_cases {rc : Int}
    (returns : txinP2shScriptsPostProcess env state = .ok (rc, after)) :
    (redeemStart state = none ∧ rc = -1 ∧
      after = { state.dropTop with txin := { state.txin with isP2sh := true } }) ∨
    ∃ sdata rest start result, state.items = some sdata :: rest ∧ redeemStart state = some start ∧
      start.rest ≠ [] ∧ start.run env = .ok result ∧
      finishRedeem sdata start.rest result = .ok (rc, after) := by
  obtain ⟨_, -, returns⟩ := bind_eq_ok.1 returns
  simp only [ScriptState.pop_eq] at returns
  have slots : ScriptState.items { state with txin := { state.txin with isP2sh := true } } =
    state.items := rfl
  rw [slots] at returns
  cases items : state.items with
  | nil =>
      rw [items] at returns
      cases returns
      exact .inl ⟨by rw [redeemStart, items], rfl, rfl⟩
  | cons slot rest =>
      cases slot with
      | none =>
          rw [items] at returns
          cases returns
          exact .inl ⟨by rw [redeemStart, items], rfl, rfl⟩
      | some sdata =>
          rw [items] at returns
          simp only [List.head?_cons, Option.join_some] at returns
          by_cases inPlace : sdata.type.value < ScriptDataType.varstr.value
          · rw [if_pos inPlace] at returns
            cases returns
            refine .inl ⟨?_, rfl, rfl⟩
            rw [redeemStart, items]
            exact if_pos inPlace
          · rw [if_neg inPlace] at returns
            obtain ⟨buffer, pointer, returns⟩ := bind_eq_ok.1 returns
            rw [ScriptData.dataPtr_eq_ok] at pointer
            rw [scriptsParseUnknown_eq] at returns
            simp only [bind_assoc] at returns
            obtain ⟨_, nonempty, returns⟩ := bind_eq_ok.1 returns
            rw [Exec.assert_eq_ok] at nonempty
            obtain ⟨result, run, returns⟩ := bind_eq_ok.1 returns
            refine .inr ⟨sdata, rest, ⟨.unknown, some 0, (buffer.getD []).take sdata.size,
              redeemState state ((buffer.getD []).take sdata.size)⟩, result, rfl, ?_, nonempty, run,
              returns⟩
            rw [redeemStart, items]
            simp only [if_neg inPlace, pointer]

theorem selected_of_postProcess {rc : Int}
    (returns : txinP2shScriptsPostProcess env state = .ok (rc, after)) :
    env.txinIndex < env.tx.txins.length := by
  obtain ⟨_, selected, -⟩ := bind_eq_ok.1 returns
  exact Exec.assert_eq_ok.1 selected

/-- The post-processing of a redeem script that is not empty. -/
theorem txinP2shScriptsPostProcess_of_start {start : ControlPoint}
    (selected : env.txinIndex < env.tx.txins.length) (starts : redeemStart state = some start)
    (nonempty : start.rest ≠ []) :
    ∃ sdata buffer, sdata.value = .data buffer ∧ txinP2shScriptsPostProcess env state =
      (start.run env >>= finishRedeem sdata start.rest) := by
  unfold redeemStart at starts
  split at starts
  case h_2 => cases starts
  case h_1 sdata rest top =>
    split_ifs at starts with inPlace
    split at starts
    case h_2 => cases starts
    case h_1 buffer pointer =>
      cases starts
      have slots : ScriptState.items { state with txin := { state.txin with isP2sh := true } } =
        state.items := rfl
      have address : sdata.dataPtr = .ok buffer := ScriptData.dataPtr_eq_ok.2 pointer
      refine ⟨sdata, buffer, pointer, ?_⟩
      simp only [txinP2shScriptsPostProcess, Exec.assert_of selected, Exec.ok_bind,
        ScriptState.pop_eq, slots, top, List.head?_cons, Option.join_some, if_neg inPlace, address,
        scriptsParseUnknown_eq, Exec.assert_of nonempty, bind_assoc, Exec.pure_eq]
      rfl

/-- The branch for a key hash runs its script to the end, or aborts. -/
theorem parseP2wpkhProgram_cases {program : Bytes} {rc : Int}
    (returns : parseP2wpkhProgram env program state = .ok (rc, after)) :
    rc = 0 ∧ (keyHashStart program state).rest ≠ [] ∧
      (keyHashStart program state).run env = .ok (true, after) := by
  rw [parseP2wpkhProgram, scriptsParseUnknown_eq] at returns
  simp only [bind_assoc] at returns
  obtain ⟨_, nonempty, returns⟩ := bind_eq_ok.1 returns
  rw [Exec.assert_eq_ok] at nonempty
  obtain ⟨⟨finished, ran⟩, run, returns⟩ := bind_eq_ok.1 returns
  rw [Exec.pure_eq, Exec.ok_bind] at returns
  obtain ⟨_, whole, returns⟩ := bind_eq_ok.1 returns
  rw [Exec.assert_eq_ok] at whole
  cases returns
  have ended : finished = true := parsedLength_eq_length whole
  subst ended
  exact ⟨rfl, nonempty, run⟩

/-- The branch for a script hash is the post-processing of a redeem script, and replaces the
script it left by the verdict on its hash. -/
theorem parseP2wshProgram_cases {program : Bytes} {rc : Int}
    (returns : parseP2wshProgram env program state = .ok (rc, after)) :
    ∃ code processed, txinP2shScriptsPostProcess env state = .ok (code, processed) ∧
      ((code ≠ 0 ∧ rc = -1 ∧ after = processed) ∨
        (code = 0 ∧ rc = 0 ∧ ∃ verdict, after = processed.dropTop.push
          (satoshiScriptDataNewBoolean verdict))) := by
  obtain ⟨⟨code, processed⟩, processes, returns⟩ := bind_eq_ok.1 returns
  refine ⟨code, processed, processes, ?_⟩
  simp only [ScriptState.pop_eq] at returns
  by_cases fails : code ≠ 0
  · rw [if_pos fails] at returns
    cases returns
    exact .inl ⟨fails, rfl, rfl⟩
  · rw [if_neg fails] at returns
    rw [not_not] at fails
    cases top : processed.items.head?.join with
    | none =>
        rw [top] at returns
        cases returns
    | some sdata =>
        rw [top] at returns
        obtain ⟨buffer, -, returns⟩ := bind_eq_ok.1 returns
        cases returns
        exact .inr ⟨fails, rfl, _, rfl⟩

theorem pushWitnessItems_frame (items : List Varstr) (state : ScriptState) :
    pushWitnessItems items state =
      { state with mainStack := (pushWitnessItems items state).mainStack } := by
  induction items generalizing state with
  | nil => rfl
  | cons item items inductionHypothesis =>
      rw [pushWitnessItems, List.foldl_cons]
      split_ifs
      · exact inductionHypothesis state
      · exact inductionHypothesis (state.push (satoshiScriptDataNewPtr item.data))

/-- The call of `parse_segwit_script` on the nested route. -/
theorem segwitCall_nested {items : List Varstr} (notP2sh : state.txin.isP2sh = false)
    (flagged : flaggedWitnessItems env = .ok items) (legacy : 16 < payload.headD 0)
    (present : items ≠ []) :
    segwitCall env payload state =
      match state.items with
      | some ⟨_, .data (some buffer), size, _⟩ :: _ =>
          if size = 0 ∨ (buffer.take size).length ≤ 2 then none
          else some (buffer.take size, pushWitnessItems items (ScriptState.dropTop
            { state with utxoFlags := state.utxoFlags ||| txoutTypeP2shSegwitFlags }))
      | _ => none := by
  unfold segwitCall
  rw [if_neg (by rw [notP2sh]; decide), flagged]
  simp only [if_pos legacy, if_neg present]

/-- The nested route calls `parse_segwit_script` when the item on top can be a program. -/
theorem preProcessNested_cases {items : List Varstr} {start : PreProcessed}
    (notP2sh : state.txin.isP2sh = false) (flagged : flaggedWitnessItems env = .ok items)
    (legacy : 16 < payload.headD 0) (present : items ≠ [])
    (returns : preProcessNested env items state = .ok (start, after)) :
    (segwitCall env payload state = none ∧ start = .reject ∧
      after.ifStatementDepth = state.ifStatementDepth) ∨
    ∃ program called code processed, segwitCall env payload state = some (program, called) ∧
      called.ifStatementDepth = state.ifStatementDepth ∧
      parseSegwitScript env program called = .ok (code, processed) ∧
      after.ifStatementDepth = processed.ifStatementDepth ∧ after.txin = processed.txin ∧
      (code ≠ 0 → start = .reject) := by
  have slots : ScriptState.items
    { state with utxoFlags := state.utxoFlags ||| txoutTypeP2shSegwitFlags } = state.items := rfl
  rw [segwitCall_nested notP2sh flagged legacy present]
  unfold preProcessNested at returns
  simp only [ScriptState.pop_eq, slots] at returns
  split_ifs at returns with empty
  · cases returns
    have bare : state.items = [] := List.eq_nil_of_length_eq_zero empty
    rw [bare]
    exact .inl ⟨rfl, rfl, rfl⟩
  · cases top : state.items with
    | nil => exact absurd (by rw [ScriptStack.count]; exact congrArg List.length top) empty
    | cons slot rest =>
        rw [top] at returns
        cases slot with
        | none => cases returns
        | some sdata =>
            obtain ⟨type, value, size, isStatic⟩ := sdata
            obtain ⟨buffer, pointer, returns⟩ := bind_eq_ok.1 returns
            rw [ScriptData.dataPtr_eq_ok] at pointer
            obtain ⟨_, holds, returns⟩ := bind_eq_ok.1 returns
            rw [Exec.assert_eq_ok] at holds
            simp only at pointer holds returns
            obtain ⟨stored, rfl⟩ := Option.ne_none_iff_exists'.1 holds.1
            subst pointer
            simp only [Option.getD_some] at returns ⊢
            by_cases short : (stored.take size).length ≤ 2
            · rw [if_pos short] at returns
              cases returns
              refine .inl ⟨if_pos (.inr short), rfl, ?_⟩
              rw [pushWitnessItems_frame]
              rfl
            · rw [if_neg short] at returns
              obtain ⟨⟨code, processed⟩, parses, returns⟩ := bind_eq_ok.1 returns
              have goesOn : ¬ (size = 0 ∨ (stored.take size).length ≤ 2) := by
                rintro (zero | short')
                · omega
                · exact short short'
              refine .inr ⟨stored.take size, _, code, processed, if_neg goesOn, ?_, parses, ?_⟩
              · rw [pushWitnessItems_frame]
                rfl
              · simp only at returns
                split_ifs at returns with fails missing
                · cases returns
                  exact ⟨rfl, rfl, fun _ => rfl⟩
                · cases returns
                  exact ⟨rfl, rfl, fun _ => rfl⟩
                · cases returns
                  exact ⟨rfl, rfl, fun failed => absurd failed fails⟩

theorem selected_of_preProcess {start : PreProcessed}
    (returns : txoutScriptsPreProcess env payload state = .ok (start, after)) :
    env.txinIndex < env.tx.txins.length := by
  obtain ⟨_, selected, -⟩ := bind_eq_ok.1 returns
  exact Exec.assert_eq_ok.1 selected

/-- The pre-processing of an output script calls `parse_segwit_script` at most once. -/
theorem txoutScriptsPreProcess_cases {start : PreProcessed}
    (returns : txoutScriptsPreProcess env payload state = .ok (start, after)) :
    (segwitCall env payload state = none ∧ (start = .execute ∨ start = .reject) ∧
      after.ifStatementDepth = state.ifStatementDepth) ∨
    ∃ program called code processed, segwitCall env payload state = some (program, called) ∧
      called.ifStatementDepth = state.ifStatementDepth ∧
      parseSegwitScript env program called = .ok (code, processed) ∧
      after.ifStatementDepth = processed.ifStatementDepth ∧ after.txin = processed.txin ∧
      (code ≠ 0 → start = .reject) := by
  obtain ⟨_, -, returns⟩ := bind_eq_ok.1 returns
  by_cases isP2sh : state.txin.isP2sh = true
  · rw [if_pos isP2sh] at returns
    cases returns
    exact .inl ⟨if_pos isP2sh, .inl rfl, rfl⟩
  · rw [if_neg isP2sh] at returns
    have notP2sh : state.txin.isP2sh = false := by simpa using isP2sh
    obtain ⟨items, flagged, returns⟩ := bind_eq_ok.1 returns
    by_cases legacy : 16 < payload.headD 0
    · rw [if_pos legacy] at returns
      by_cases bare : items = []
      · rw [if_pos bare] at returns
        cases returns
        refine .inl ⟨?_, .inl rfl, rfl⟩
        unfold segwitCall
        rw [if_neg isP2sh, flagged]
        simp only [if_pos legacy, if_pos bare]
      · rw [if_neg bare] at returns
        rcases preProcessNested_cases notP2sh flagged legacy bare returns with
          ⟨noCall, rejects, depth⟩ | called
        · exact .inl ⟨noCall, .inr rejects, depth⟩
        · exact .inr called
    · rw [if_neg legacy] at returns
      obtain ⟨⟨code, processed⟩, parses, returns⟩ := bind_eq_ok.1 returns
      refine .inr ⟨payload, pushWitnessItems items state, code, processed, ?_, ?_, parses, ?_⟩
      · unfold segwitCall
        rw [if_neg isP2sh, flagged]
        simp only [if_neg legacy]
      · rw [pushWitnessItems_frame]
      · simp only at returns
        split_ifs at returns with fails
        · cases returns
          exact ⟨rfl, rfl, fun _ => rfl⟩
        · cases returns
          exact ⟨rfl, rfl, fun failed => absurd failed fails⟩

theorem scriptsParseTxin_eq (nonempty : payload ≠ []) :
    scriptsParseTxin env payload state = (do
      let (finished, pushed) ←
        runScript env .txin none (if payload.headD 0 = 0 then payload.drop 1 else payload) state
      if finished = false then return (-1, pushed)
      else if payload.headD 0 = 0 then do
        let (rc, state) ← txinP2shScriptsPostProcess env pushed
        if rc ≠ 0 then return (-1, state) else return ((payload.length : Int), state)
      else return ((payload.length : Int), pushed)) := by
  have enough : (if payload.headD 0 = 0 then payload.drop 1 else payload).length <
      payload.length + 1 := by
    split_ifs
    · rw [List.length_drop]
      omega
    · exact Nat.lt_succ_self _
  simp only [scriptsParseTxin, Exec.assert_of nonempty, Exec.ok_bind, decide_eq_true_eq,
    parseLoop_enough enough]

/-- A call for an input script runs its pushes, and then the redeem script of a marked one. -/
theorem scriptsParseTxin_cases {cb : Int}
    (returns : scriptsParseTxin env payload state = .ok (cb, after)) :
    payload ≠ [] ∧ ∃ finished pushed,
      runScript env .txin none (if payload.headD 0 = 0 then payload.drop 1 else payload) state =
        .ok (finished, pushed) ∧
      ((finished = false ∧ cb = -1 ∧ after = pushed) ∨
        (finished = true ∧ payload.headD 0 ≠ 0 ∧ cb = payload.length ∧ after = pushed) ∨
        (finished = true ∧ payload.headD 0 = 0 ∧ ∃ code,
          txinP2shScriptsPostProcess env pushed = .ok (code, after) ∧
          cb = if code = 0 then (payload.length : Int) else -1)) := by
  obtain ⟨_, nonempty, -⟩ := bind_eq_ok.1 returns
  rw [Exec.assert_eq_ok] at nonempty
  refine ⟨nonempty, ?_⟩
  rw [scriptsParseTxin_eq nonempty] at returns
  obtain ⟨⟨finished, pushed⟩, run, returns⟩ := bind_eq_ok.1 returns
  refine ⟨finished, pushed, run, ?_⟩
  cases finished with
  | false =>
      cases returns
      exact .inl ⟨rfl, rfl, rfl⟩
  | true =>
      simp only [reduceCtorEq, if_false] at returns
      by_cases marked : payload.headD 0 = 0
      · rw [if_pos marked] at returns
        obtain ⟨⟨code, processed⟩, processes, returns⟩ := bind_eq_ok.1 returns
        refine .inr (.inr ⟨rfl, marked, code, ?_⟩)
        by_cases succeeds : code = 0
        · subst succeeds
          cases returns
          exact ⟨processes, rfl⟩
        · simp only [ne_eq, if_pos succeeds] at returns
          cases returns
          exact ⟨processes, (if_neg succeeds).symm⟩
      · rw [if_neg marked] at returns
        cases returns
        exact .inr (.inl ⟨rfl, marked, rfl, rfl⟩)

theorem scriptsParseTxout_eq (nonempty : payload ≠ []) :
    scriptsParseTxout env payload state = (do
      let (start, started) ← txoutScriptsPreProcess env payload state
      match start with
      | .reject => return (-1, started)
      | .done => return ((payload.length : Int), started)
      | .execute => do
          let (finished, ran) ← runScript env .txout none payload started
          return (parsedLength payload finished, ran)) := by
  rw [scriptsParseTxout, Exec.assert_of nonempty, Exec.ok_bind]
  apply Exec.bind_congr_of rfl
  rintro ⟨start, started⟩
  cases start with
  | reject => rfl
  | done => rfl
  | execute => simp only [parseLoop_enough (Nat.lt_succ_self _)]

/-- A call for an output script pre-processes it, and runs it when it is told to. -/
theorem scriptsParseTxout_cases {cb : Int}
    (returns : scriptsParseTxout env payload state = .ok (cb, after)) :
    payload ≠ [] ∧ ∃ start started, txoutScriptsPreProcess env payload state = .ok (start, started) ∧
      ((start = .reject ∧ cb = -1 ∧ after = started) ∨
        (start = .done ∧ cb = payload.length ∧ after = started) ∨
        (start = .execute ∧ ∃ finished, runScript env .txout none payload started =
          .ok (finished, after) ∧ cb = parsedLength payload finished)) := by
  obtain ⟨_, nonempty, -⟩ := bind_eq_ok.1 returns
  rw [Exec.assert_eq_ok] at nonempty
  rw [scriptsParseTxout_eq nonempty] at returns
  obtain ⟨⟨start, started⟩, preProcessed, returns⟩ := bind_eq_ok.1 returns
  refine ⟨nonempty, start, started, preProcessed, ?_⟩
  cases start with
  | reject =>
      cases returns
      exact .inl ⟨rfl, rfl, rfl⟩
  | done =>
      cases returns
      exact .inr (.inl ⟨rfl, rfl, rfl⟩)
  | execute =>
      obtain ⟨⟨finished, ran⟩, run, returns⟩ := bind_eq_ok.1 returns
      cases returns
      exact .inr (.inr ⟨rfl, finished, run, rfl⟩)

/-! ## Refused runs -/

/-- A version 0 program of 20 bytes. -/
def IsKeyHashProgram (program : Bytes) : Prop :=
  program.take 2 = [0, 20] ∧ 22 ≤ program.length

instance (program : Bytes) : Decidable (IsKeyHashProgram program) := by
  unfold IsKeyHashProgram
  infer_instance

theorem txinP2shScriptsPostProcess_refused {start : ControlPoint}
    (selected : env.txinIndex < env.tx.txins.length) (starts : redeemStart state = some start)
    (nonempty : start.rest ≠ []) (refused : start.run env = .ok (false, after)) :
    txinP2shScriptsPostProcess env state = .ok (-1, after) := by
  obtain ⟨sdata, _, -, process⟩ :=
    txinP2shScriptsPostProcess_of_start selected starts nonempty
  have short : parsedLength start.rest false ≠ (sdata.size : Int) := by
    rw [parsedLength, if_neg (by decide)]
    omega
  rw [process, refused, Exec.ok_bind, finishRedeem, if_pos short]

/-- The branch for a key hash, from the run of its script on. -/
theorem parseP2wpkhProgram_eq {program : Bytes} (nonempty : (keyHashStart program state).rest ≠ []) :
    parseP2wpkhProgram env program state =
      ((keyHashStart program state).run env >>= fun result => do
        Exec.assert (parsedLength (keyHashStart program state).rest result.1 =
          ((keyHashStart program state).rest.length : Int))
        return (0, result.2)) := by
  have present : state.txin.redeemScripts.getD (generateP2pkhScript program) ≠ [] := nonempty
  rw [parseP2wpkhProgram, scriptsParseUnknown_eq]
  simp only [Exec.assert_of present, Exec.ok_bind, bind_assoc]
  rfl

theorem parseP2wpkhProgram_refused {program : Bytes}
    (nonempty : (keyHashStart program state).rest ≠ [])
    (refused : (keyHashStart program state).run env = .ok (false, after)) :
    parseP2wpkhProgram env program state = .fault .assertion := by
  have short : ¬ parsedLength (keyHashStart program state).rest false =
      ((keyHashStart program state).rest.length : Int) := by
    rw [parsedLength, if_neg (by decide)]
    omega
  rw [parseP2wpkhProgram_eq nonempty, refused, Exec.ok_bind, Exec.assert, if_neg short]
  rfl

/-- A refused witness program is an error, and the script for a key hash aborts. -/
theorem parseSegwitScript_refused {program : Bytes} {start : ControlPoint}
    (selected : env.txinIndex < env.tx.txins.length) (starts : segwitStart program state = some start)
    (nonempty : start.rest ≠ []) (refused : start.run env = .ok (false, after)) :
    parseSegwitScript env program state =
      if IsKeyHashProgram program then .fault .assertion else .ok (-1, after) := by
  match program with
  | [] => cases starts
  | [_] => cases starts
  | versionByte :: programLength :: p =>
      rw [segwitStart] at starts
      rw [parseSegwitScript]
      by_cases version : versionByte ≠ 0
      · rw [if_pos version] at starts
        cases starts
      by_cases short : p.length < programLength.toNat
      · rw [if_neg version, if_pos short] at starts
        cases starts
      rw [if_neg version, if_neg short] at starts ⊢
      by_cases keyHash : programLength = 20
      · rw [if_pos keyHash] at starts ⊢
        cases starts
        have isKeyHash : IsKeyHashProgram (versionByte :: programLength :: p) := by
          rw [keyHash] at short
          have enough : 20 ≤ p.length := by simpa using short
          refine ⟨by rw [not_not.1 version, keyHash]; rfl, ?_⟩
          simp only [List.length_cons]
          omega
        rw [if_pos isKeyHash]
        exact parseP2wpkhProgram_refused nonempty refused
      · have other : ¬ IsKeyHashProgram (versionByte :: programLength :: p) := by
          rintro ⟨marks, -⟩
          have same : programLength = 20 := by simpa using (List.cons.inj marks).2
          exact keyHash same
        rw [if_neg keyHash] at starts ⊢
        by_cases scriptHash : programLength = 32
        · rw [if_pos scriptHash] at starts ⊢
          rw [if_neg other, parseP2wshProgram,
            txinP2shScriptsPostProcess_refused selected starts nonempty refused]
          rfl
        · rw [if_neg scriptHash] at starts
          cases starts

/-- The pre-processing of an output script from its call of `parse_segwit_script` on. -/
theorem txoutScriptsPreProcess_of_call {program : Bytes} {called : ScriptState}
    (selected : env.txinIndex < env.tx.txins.length)
    (calls : segwitCall env payload state = some (program, called)) :
    ∃ finish : Int × ScriptState → Exec (PreProcessed × ScriptState),
      txoutScriptsPreProcess env payload state =
        (parseSegwitScript env program called >>= finish) ∧
      (∀ result, (finish result).Returns) ∧
      ∀ code processed, code ≠ 0 → finish (code, processed) = .ok (.reject, processed) := by
  rw [segwitCall] at calls
  by_cases isP2sh : state.txin.isP2sh = true
  · rw [if_pos isP2sh] at calls
    cases calls
  rw [if_neg isP2sh] at calls
  cases flagged : flaggedWitnessItems env with
  | fault cause =>
      rw [flagged] at calls
      cases calls
  | timeout =>
      rw [flagged] at calls
      cases calls
  | ok items =>
      rw [flagged] at calls
      simp only at calls
      rw [txoutScriptsPreProcess, Exec.assert_of selected, Exec.ok_bind, if_neg isP2sh, flagged,
        Exec.ok_bind]
      by_cases legacy : 16 < payload.headD 0
      · rw [if_pos legacy] at calls ⊢
        by_cases bare : items = []
        · rw [if_pos bare] at calls
          cases calls
        rw [if_neg bare] at calls ⊢
        split at calls
        case h_2 => cases calls
        case h_1 type buffer size isStatic rest top =>
          by_cases short : size = 0 ∨ (buffer.take size).length ≤ 2
          · rw [if_pos short] at calls
            cases calls
          rw [if_neg short] at calls
          cases calls
          rw [not_or] at short
          have held : state.mainStack.count ≠ 0 := by
            rw [ScriptState.mainStack_count, top]
            exact Nat.succ_ne_zero _
          have slots : ScriptState.items
            { state with utxoFlags := state.utxoFlags ||| txoutTypeP2shSegwitFlags } =
              state.items := rfl
          have holds : some buffer ≠ none ∧ 0 < size :=
            ⟨Option.some_ne_none buffer, Nat.pos_of_ne_zero short.1⟩
          simp only [preProcessNested, if_neg held, ScriptState.pop_eq, slots, top,
            List.head?_cons, Option.join_some, ScriptData.dataPtr, Exec.ok_bind,
            Exec.assert_of holds, Option.getD_some, if_neg short.2]
          refine ⟨_, rfl, ?_, ?_⟩
          · intro result
            split_ifs
            · exact returns_ok _
            · exact returns_ok _
            · exact returns_ok _
          intro code processed fails
          simp only [ne_eq, if_pos fails]
          rfl
      · rw [if_neg legacy] at calls ⊢
        cases calls
        refine ⟨_, rfl, ?_, ?_⟩
        · intro result
          obtain ⟨code, processed⟩ := result
          simp only
          split_ifs
          · exact returns_ok _
          · exact returns_ok _
        intro code processed fails
        simp only [ne_eq, if_pos fails]
        rfl

theorem redeemStart_type {start : ControlPoint} (starts : redeemStart state = some start) :
    start.type = .unknown := by
  unfold redeemStart at starts
  split at starts
  · split_ifs at starts
    split at starts
    · cases starts
      rfl
    · cases starts
  · cases starts

theorem segwitStart_type {program : Bytes} {start : ControlPoint}
    (starts : segwitStart program state = some start) : start.type = .unknown := by
  unfold segwitStart at starts
  split at starts
  · split_ifs at starts
    · cases starts
      rfl
    · exact redeemStart_type starts
  · cases starts

/-- The script that a call runs for a key hash. -/
def IsKeyHashRun (env : ScriptEnv) (type : TxScriptType) (payload : Bytes) (state : ScriptState)
    (start : ControlPoint) : Prop :=
  type = .txout ∧ start.type = .unknown ∧
    ∃ program called, segwitCall env payload state = some (program, called) ∧
      IsKeyHashProgram program

/-- A refused run refuses the call, and aborts it when it is the script for a key hash. -/
theorem CallStart.refused {type : TxScriptType} {start : ControlPoint}
    (starts : CallStart env type payload state start) (nonempty : start.rest ≠ [])
    (refused : start.run env = .ok (false, after)) :
    (IsKeyHashRun env type payload state start ∧
      scriptsParse env type payload state = .fault .assertion) ∨
    (¬ IsKeyHashRun env type payload state start ∧
      ∃ final, scriptsParse env type payload state = .ok (-1, final)) := by
  cases starts with
  | unknown present =>
      refine .inr ⟨?_, after, ?_⟩
      · rintro ⟨txout, -⟩
        cases txout
      · have run : runScript env .unknown none payload state = .ok (false, after) := refused
        rw [scriptsParse, scriptsParseUnknown_eq, Exec.assert_of present, Exec.ok_bind, run]
        rfl
  | txin present =>
      refine .inr ⟨?_, after, ?_⟩
      · rintro ⟨txout, -⟩
        cases txout
      · have run : runScript env .txin none
            (if payload.headD 0 = 0 then payload.drop 1 else payload) state =
              .ok (false, after) := refused
        rw [scriptsParse, scriptsParseTxin_eq present, run]
        rfl
  | redeem selected present marked pushes starts =>
      refine .inr ⟨?_, after, ?_⟩
      · rintro ⟨txout, -⟩
        cases txout
      · rw [scriptsParse, scriptsParseTxin_eq present, if_pos marked, pushes, Exec.ok_bind]
        simp only [if_pos marked,
          txinP2shScriptsPostProcess_refused selected starts nonempty refused]
        rfl
  | @program _ program _ called _ selected present calls starts =>
      have unknown : start.type = .unknown := segwitStart_type starts
      obtain ⟨finish, preProcess, -, rejects⟩ := txoutScriptsPreProcess_of_call selected calls
      have parses := parseSegwitScript_refused selected starts nonempty refused
      rw [scriptsParse, scriptsParseTxout_eq present, preProcess, parses]
      by_cases keyHash : IsKeyHashProgram program
      · rw [if_pos keyHash]
        exact .inl ⟨⟨rfl, unknown, program, called, calls, keyHash⟩, rfl⟩
      · refine .inr ⟨?_, after, ?_⟩
        · rintro ⟨-, -, program', called', calls', isKeyHash⟩
          rw [calls] at calls'
          cases calls'
          exact keyHash isKeyHash
        · rw [if_neg keyHash, Exec.ok_bind, rejects (-1) after (by decide)]
          rfl
  | @txout _ _ started present preProcessed =>
      refine .inr ⟨?_, after, ?_⟩
      · rintro ⟨-, unknown, -⟩
        cases unknown
      · have run : runScript env .txout none payload started = .ok (false, after) := refused
        rw [scriptsParse, scriptsParseTxout_eq present, preProcessed, Exec.ok_bind]
        simp only [run]
        rfl

end BitcoinClib.Script
