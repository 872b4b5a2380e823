import BitcoinClib.Script.Starts

/-!
Contract: what a call of `scripts_parse` does to `priv->if_statement_depth`.

Owns:
- `FailsInConditional`, that a run is refused at a conditional or inside a branch;
- `Reported`, that the counter grows exactly when something was left open, and its
  composition;
- that a call leaves the counter as it was exactly when none of its runs fails so, and that
  this adds up over the life of a context.
-/

namespace BitcoinClib.Script

open BitcoinClib.Lib
open BitcoinClib.Lib.Exec
open BitcoinClib.Types
open BitcoinClib.Crypto
open BitcoinClib.Tx

/-- The point lies in a branch, or is a conditional. -/
def InConditional (level : Nat) (point : ControlPoint) : Prop :=
  0 < level ∨ (point.type ≠ .txin ∧ ∃ op p isNotif, point.rest = op :: p ∧
    conditionalOf op = some isNotif)

/-- The run reaches a word that is refused, and that word is a conditional or lies in a branch
of one. -/
def FailsInConditional (env : ScriptEnv) (start : ControlPoint) : Prop :=
  ∃ level there after, Leads env level start there ∧ Refuses env there after ∧
    InConditional level there

/-- The counter never falls, and it grows exactly when something was left open. -/
structure Reported (before after : ScriptState) (leftOpen : Prop) : Prop where
  grows : before.ifStatementDepth ≤ after.ifStatementDepth
  same_iff : after.ifStatementDepth = before.ifStatementDepth ↔ ¬ leftOpen

namespace Reported

variable {first second third : ScriptState} {earlier later leftOpen : Prop}

theorem of_same (same : second.ifStatementDepth = first.ifStatementDepth)
    (closed : ¬ leftOpen) : Reported first second leftOpen :=
  ⟨by rw [same], ⟨fun _ => closed, fun _ => same⟩⟩

theorem congr (reported : Reported first second earlier) (same : earlier ↔ later) :
    Reported first second later :=
  ⟨reported.grows, by rw [reported.same_iff, same]⟩

/-- A counter that was not touched before and after. -/
theorem shift (reported : Reported first second leftOpen) {before after : ScriptState}
    (start : first.ifStatementDepth = before.ifStatementDepth)
    (final : after.ifStatementDepth = second.ifStatementDepth) :
    Reported before after leftOpen :=
  ⟨by rw [← start, final]; exact reported.grows, by rw [final, ← start, reported.same_iff]⟩

theorem trans (reported : Reported first second earlier) (next : Reported second third later) :
    Reported first third (earlier ∨ later) := by
  have firstGrows := reported.grows
  have secondGrows := next.grows
  refine ⟨Int.le_trans firstGrows secondGrows, ?_⟩
  rw [not_or, ← reported.same_iff, ← next.same_iff]
  omega

end Reported

/-! ## Runs -/

variable {env : ScriptEnv} {payload : Bytes} {state after : ScriptState}

/-- A refused word leaves the counter one higher exactly when it is a conditional. -/
theorem Refuses.depth {point : ControlPoint} (refuses : Refuses env point after) (level : Nat) :
    point.state.ifStatementDepth ≤ after.ifStatementDepth ∧
      (0 < level ∨ after.ifStatementDepth ≠ point.state.ifStatementDepth ↔
        InConditional level point) := by
  cases refuses with
  | word word refused =>
      have kept := parseByte_depth word refused
      simp only at kept
      refine ⟨Int.le_of_eq kept.symm, ?_⟩
      simp only [InConditional, ne_eq, kept, not_true_eq_false, or_false]
      constructor
      · exact .inl
      · rintro (inside | ⟨notTxin, op, p, isNotif, same, conditional⟩)
        · exact inside
        · cases same
          rcases word with txin | plain
          · exact absurd txin notTxin
          · rw [conditional] at plain
            cases plain
  | @conditional type origin op p state after isNotif notTxin conditional refused =>
      have kept : after.ifStatementDepth = state.ifStatementDepth + 1 := chooseBranch_depth refused
      refine ⟨by simp only; omega, ?_⟩
      constructor
      · intro _
        exact .inr ⟨notTxin, op, p, isNotif, rfl, conditional⟩
      · intro _
        refine .inr ?_
        simp only
        omega

/-- What a run leaves in the counter. -/
theorem run_reported {start : ControlPoint} {finished : Bool}
    (returns : start.run env = .ok (finished, after)) :
    Reported start.state after (FailsInConditional env start) := by
  have fromPoint : ∀ {level there last}, Leads env level start there → Refuses env there last →
      last = after ∧ start.state.ifStatementDepth ≤ after.ifStatementDepth ∧
        (after.ifStatementDepth ≠ start.state.ifStatementDepth ↔ InConditional level there) := by
    intro level there last leads refuses
    have same := leads.refused refuses.run
    rw [returns] at same
    obtain rfl : after = last := congrArg Prod.snd (Exec.ok.inj same)
    have depth := leads.depth
    obtain ⟨grows, iff⟩ := refuses.depth level
    refine ⟨rfl, by omega, ?_⟩
    rw [← iff]
    omega
  cases finished with
  | true =>
      apply Reported.of_same ((runs_of_run returns).depth rfl)
      rintro ⟨level, there, last, leads, refuses, inside⟩
      have refused := leads.refused refuses.run
      rw [returns] at refused
      cases refused
  | false =>
      obtain ⟨level, there, leads, refuses⟩ := (runs_of_run returns).exists_refusing rfl
      obtain ⟨-, grows, iff⟩ := fromPoint leads refuses
      refine ⟨grows, ?_⟩
      constructor
      · rintro same ⟨level', there', last, leads', refuses', inside⟩
        exact (fromPoint leads' refuses').2.2.2 inside same
      · intro closed
        by_contra differs
        exact closed ⟨level, there, after, leads, refuses, iff.1 differs⟩

theorem runScript_reported {type : TxScriptType} {origin : Option Nat} {rest : Bytes}
    {finished : Bool} (returns : runScript env type origin rest state = .ok (finished, after)) :
    Reported state after (FailsInConditional env ⟨type, origin, rest, state⟩) := by
  have run : (ControlPoint.mk type origin rest state).run env = .ok (finished, after) := returns
  exact run_reported run

/-! ## Calls -/

theorem txinP2shScriptsPostProcess_reported {rc : Int}
    (returns : txinP2shScriptsPostProcess env state = .ok (rc, after)) :
    Reported state after (∃ start, redeemStart state = some start ∧ FailsInConditional env start) := by
  rcases txinP2shScriptsPostProcess_cases returns with
    ⟨noStart, -, rfl⟩ | ⟨sdata, rest, start, ⟨finished, ran⟩, top, starts, -, run, finishes⟩
  · refine .of_same rfl ?_
    rintro ⟨start, starts, -⟩
    rw [noStart] at starts
    cases starts
  · have reported := run_reported run
    have started : start.state.ifStatementDepth = state.ifStatementDepth :=
      redeemStart_depth starts
    apply (reported.shift started (finishRedeem_depth finishes)).congr
    constructor
    · exact fun fails => ⟨start, starts, fails⟩
    · rintro ⟨start', starts', fails⟩
      rw [starts] at starts'
      cases starts'
      exact fails

theorem parseSegwitScript_reported {program : Bytes} {rc : Int}
    (returns : parseSegwitScript env program state = .ok (rc, after)) :
    Reported state after
      (∃ start, segwitStart program state = some start ∧ FailsInConditional env start) := by
  have noStart : segwitStart program state = none → after = state → Reported state after
      (∃ start, segwitStart program state = some start ∧ FailsInConditional env start) := by
    rintro absent rfl
    refine .of_same rfl ?_
    rintro ⟨start, starts, -⟩
    rw [absent] at starts
    cases starts
  match program with
  | [] =>
      cases returns
      exact noStart rfl rfl
  | [_] =>
      cases returns
      exact noStart rfl rfl
  | versionByte :: programLength :: p =>
      simp only [parseSegwitScript] at returns
      split_ifs at returns with version short keyHash scriptHash
      · cases returns
        exact noStart (if_pos version) rfl
      · cases returns
        exact noStart (by rw [segwitStart, if_neg version, if_pos short]) rfl
      · have starts : segwitStart (versionByte :: programLength :: p) state =
            some (keyHashStart (p.take 20) state) := by
          rw [segwitStart, if_neg version, if_neg short, if_pos keyHash]
        obtain ⟨-, -, run⟩ := parseP2wpkhProgram_cases returns
        have reported : Reported state after
            (FailsInConditional env (keyHashStart (p.take 20) state)) :=
          (run_reported run).shift rfl rfl
        apply reported.congr
        rw [starts]
        constructor
        · exact fun fails => ⟨_, rfl, fails⟩
        · rintro ⟨start, same, fails⟩
          cases same
          exact fails
      · have starts : segwitStart (versionByte :: programLength :: p) state = redeemStart state := by
          rw [segwitStart, if_neg version, if_neg short, if_neg keyHash, if_pos scriptHash]
        obtain ⟨code, processed, processes, outcome⟩ := parseP2wshProgram_cases returns
        have reported := txinP2shScriptsPostProcess_reported processes
        rw [starts]
        rcases outcome with ⟨-, -, rfl⟩ | ⟨-, -, verdict, rfl⟩
        · exact reported
        · exact reported.shift rfl rfl
      · cases returns
        exact noStart
          (by rw [segwitStart, if_neg version, if_neg short, if_neg keyHash, if_neg scriptHash]) rfl

theorem txoutScriptsPreProcess_reported {processed : PreProcessed}
    (returns : txoutScriptsPreProcess env payload state = .ok (processed, after)) :
    Reported state after (∃ program called start, segwitCall env payload state = some (program, called) ∧
      segwitStart program called = some start ∧ FailsInConditional env start) := by
  rcases txoutScriptsPreProcess_cases returns with
    ⟨noCall, -, depth⟩ | ⟨program, called, code, finished, calls, calledDepth, parses, depth, -, -⟩
  · refine .of_same depth ?_
    rintro ⟨program, called, start, calls, -, -⟩
    rw [noCall] at calls
    cases calls
  · apply ((parseSegwitScript_reported parses).shift calledDepth depth).congr
    constructor
    · rintro ⟨start, starts, fails⟩
      exact ⟨program, called, start, calls, starts, fails⟩
    · rintro ⟨program', called', start, calls', starts, fails⟩
      rw [calls] at calls'
      cases calls'
      exact ⟨start, starts, fails⟩

/-- Some run of the call fails at a conditional or inside a branch. -/
def CallFailsInConditional (env : ScriptEnv) (type : TxScriptType) (payload : Bytes)
    (state : ScriptState) : Prop :=
  ∃ start, CallStart env type payload state start ∧ FailsInConditional env start

theorem scriptsParseTxin_reported {cb : Int}
    (returns : scriptsParseTxin env payload state = .ok (cb, after)) :
    Reported state after (CallFailsInConditional env .txin payload state) := by
  obtain ⟨nonempty, finished, pushed, run, outcome⟩ := scriptsParseTxin_cases returns
  have pushes : Reported state pushed (FailsInConditional env
      ⟨.txin, none, if payload.headD 0 = 0 then payload.drop 1 else payload, state⟩) :=
    runScript_reported run
  have noRedeem : ¬ (finished = true ∧ payload.headD 0 = 0) → after = pushed →
      Reported state after (CallFailsInConditional env .txin payload state) := by
    rintro unmarked rfl
    refine pushes.congr ⟨fun fails => ⟨_, .txin nonempty, fails⟩, ?_⟩
    rintro ⟨start, starts, fails⟩
    cases starts with
    | txin _ => exact fails
    | redeem _ _ marked ran starts =>
        rw [if_pos marked, ran] at run
        cases run
        exact absurd ⟨rfl, marked⟩ unmarked
  rcases outcome with ⟨rfl, -, rfl⟩ | ⟨-, unmarked, -, rfl⟩ | ⟨rfl, marked, code, processes, -⟩
  · exact noRedeem (by simp) rfl
  · exact noRedeem (fun holds => unmarked holds.2) rfl
  · apply (pushes.trans (txinP2shScriptsPostProcess_reported processes)).congr
    constructor
    · rintro (fails | ⟨start, starts, fails⟩)
      · exact ⟨_, .txin nonempty, fails⟩
      · rw [if_pos marked] at run
        exact ⟨start, .redeem (selected_of_postProcess processes) nonempty marked run starts, fails⟩
    · rintro ⟨start, starts, fails⟩
      cases starts with
      | txin _ => exact .inl fails
      | redeem _ _ _ ran starts =>
          rw [if_pos marked, ran] at run
          cases run
          exact .inr ⟨start, starts, fails⟩

theorem scriptsParseTxout_reported {cb : Int}
    (returns : scriptsParseTxout env payload state = .ok (cb, after)) :
    Reported state after (CallFailsInConditional env .txout payload state) := by
  obtain ⟨nonempty, start, started, preProcessed, outcome⟩ := scriptsParseTxout_cases returns
  have program := txoutScriptsPreProcess_reported preProcessed
  have noScript : start ≠ .execute → after = started →
      Reported state after (CallFailsInConditional env .txout payload state) := by
    rintro stops rfl
    apply program.congr
    constructor
    · rintro ⟨program, called, start, calls, starts, fails⟩
      exact ⟨start, .program (selected_of_preProcess preProcessed) nonempty calls starts, fails⟩
    · rintro ⟨start, starts, fails⟩
      cases starts with
      | program _ _ calls starts => exact ⟨_, _, start, calls, starts, fails⟩
      | txout _ executes =>
          rw [executes] at preProcessed
          cases preProcessed
          exact absurd rfl stops
  rcases outcome with ⟨rfl, -, rfl⟩ | ⟨rfl, -, rfl⟩ | ⟨rfl, finished, run, -⟩
  · exact noScript (by decide) rfl
  · exact noScript (by decide) rfl
  · have runs : Reported started after (FailsInConditional env ⟨.txout, none, payload, started⟩) :=
      runScript_reported run
    apply (program.trans runs).congr
    constructor
    · rintro (⟨program, called, start, calls, starts, fails⟩ | fails)
      · exact ⟨start, .program (selected_of_preProcess preProcessed) nonempty calls starts, fails⟩
      · exact ⟨_, .txout nonempty preProcessed, fails⟩
    · rintro ⟨start, starts, fails⟩
      cases starts with
      | program _ _ calls starts => exact .inl ⟨_, _, start, calls, starts, fails⟩
      | txout _ executes =>
          rw [executes] at preProcessed
          cases preProcessed
          exact .inr fails

theorem scriptsParseUnknown_reported {cb : Int}
    (returns : scriptsParseUnknown env none payload state = .ok (cb, after)) :
    Reported state after (CallFailsInConditional env .unknown payload state) := by
  rw [scriptsParseUnknown_eq] at returns
  obtain ⟨_, nonempty, returns⟩ := bind_eq_ok.1 returns
  rw [Exec.assert_eq_ok] at nonempty
  obtain ⟨⟨finished, ran⟩, run, returns⟩ := bind_eq_ok.1 returns
  cases returns
  have runs : Reported state after (FailsInConditional env ⟨.unknown, none, payload, state⟩) :=
    runScript_reported run
  refine runs.congr ⟨fun fails => ⟨_, .unknown nonempty, fails⟩, ?_⟩
  rintro ⟨start, starts, fails⟩
  cases starts with
  | unknown _ => exact fails

theorem scriptsParse_reported {type : TxScriptType} {cb : Int}
    (returns : scriptsParse env type payload state = .ok (cb, after)) :
    Reported state after (CallFailsInConditional env type payload state) := by
  cases type with
  | unknown => exact scriptsParseUnknown_reported returns
  | txin => exact scriptsParseTxin_reported returns
  | txout => exact scriptsParseTxout_reported returns

/-- The life of a script context: calls of `scripts_parse`, and between them changes of its
other fields. The proposition says that some call failed in a conditional. -/
inductive Lifetime (first : ScriptState) : Prop → ScriptState → Prop
  | fresh : Lifetime first False first
  | parsed {env : ScriptEnv} {type : TxScriptType} {payload : Bytes}
      {before called after : ScriptState} {cb : Int} {failed : Prop}
      (earlier : Lifetime first failed before)
      (same : called.ifStatementDepth = before.ifStatementDepth)
      (returns : scriptsParse env type payload called = .ok (cb, after)) :
      Lifetime first (failed ∨ CallFailsInConditional env type payload called) after

theorem Lifetime.reported {first after : ScriptState} {failed : Prop}
    (lifetime : Lifetime first failed after) : Reported first after failed := by
  induction lifetime with
  | fresh => exact .of_same rfl not_false
  | parsed earlier same returns inductionHypothesis =>
      exact inductionHypothesis.trans ((scriptsParse_reported returns).shift same rfl)

/-- A call of `scripts_parse` leaves the conditional depth as it was, exactly when none of the
scripts it runs is refused at a conditional or inside a branch of one; so does a nested call,
and so does the whole life of a context. -/
theorem scriptsParse_depth_iff (env : ScriptEnv) (state after : ScriptState) :
    (∀ type payload cb, scriptsParse env type payload state = .ok (cb, after) →
      (after.ifStatementDepth = state.ifStatementDepth ↔
        ¬ CallFailsInConditional env type payload state)) ∧
    (∀ origin payload cb, scriptsParseUnknown env origin payload state = .ok (cb, after) →
      (after.ifStatementDepth = state.ifStatementDepth ↔
        ¬ FailsInConditional env ⟨.unknown, origin, payload, state⟩)) ∧
    ∀ failed, Lifetime state failed after →
      (after.ifStatementDepth = state.ifStatementDepth ↔ ¬ failed) := by
  refine ⟨fun _ _ _ returns => (scriptsParse_reported returns).same_iff, ?_,
    fun _ lifetime => lifetime.reported.same_iff⟩
  intro origin payload cb returns
  rw [scriptsParseUnknown_eq] at returns
  obtain ⟨_, -, returns⟩ := bind_eq_ok.1 returns
  obtain ⟨⟨finished, ran⟩, run, returns⟩ := bind_eq_ok.1 returns
  cases returns
  exact (runScript_reported run).same_iff

/-- `OP_1 OP_IF`, twice on one context. -/
theorem scriptsParse_depth_iff_missing :
    ∃ first second,
      scriptsParse sampleEnv .unknown [0x51, 0x63] sampleState = .ok (-1, first) ∧
      scriptsParse sampleEnv .unknown [0x51, 0x63] first = .ok (-1, second) ∧
      CallFailsInConditional sampleEnv .unknown [0x51, 0x63] sampleState ∧
      second.ifStatementDepth ≠ sampleState.ifStatementDepth := by
  have once : scriptsParse sampleEnv .unknown [0x51, 0x63] sampleState =
      .ok (-1, ((sampleState.push (satoshiScriptDataNewUint8 1)).withDepth 1).dropTop) := rfl
  have twice : scriptsParse sampleEnv .unknown [0x51, 0x63]
      ((sampleState.push (satoshiScriptDataNewUint8 1)).withDepth 1).dropTop =
      .ok (-1, ((((sampleState.push (satoshiScriptDataNewUint8 1)).withDepth 1).dropTop.push
        (satoshiScriptDataNewUint8 1)).withDepth 2).dropTop) := rfl
  have fails := not_not.1 (mt ((scriptsParse_depth_iff sampleEnv sampleState _).1 _ _ _ once).2
    (by decide))
  have lifetime := Lifetime.parsed (.parsed .fresh rfl once) rfl twice
  have lost := (scriptsParse_depth_iff sampleEnv sampleState _).2.2 _ lifetime
  exact ⟨_, _, once, twice, fails, fun same => lost.1 same (.inl (.inr fails))⟩

/-- A script that ends in an open conditional leaves its mark. -/
theorem openConditional_unbalanced :
    ¬ ∀ env type payload state cb after,
      scriptsParse env type payload state = .ok (cb, after) →
        after.ifStatementDepth = state.ifStatementDepth := by
  intro balanced
  have parsed : scriptsParse sampleEnv .unknown [0x51, 0x63] sampleState =
      .ok (-1, ((sampleState.push (satoshiScriptDataNewUint8 1)).withDepth 1).dropTop) := rfl
  exact absurd (balanced _ _ _ _ _ _ parsed) (by decide)

end BitcoinClib.Script
