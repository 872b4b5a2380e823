import BitcoinClib.Script.ControlFlow

/-!
Contract: which words of a script are reached, and what a word decides for the whole run.

Owns:
- `ControlPoint`, a word about to be executed, and `Leads`, that control leads from one
  word to another, into the branches of conditionals included;
- `Runs`, a derivation for every run that returns;
- that a refused word refuses every script from which it is reached, and that each
  refusal comes from such a word (`Leads.refused`, `Runs.exists_refusing`).

Does not own: what a word does to the stack.
-/

namespace BitcoinClib.Script

open BitcoinClib.Lib
open BitcoinClib.Lib.Exec
open BitcoinClib.Types
open BitcoinClib.Crypto
open BitcoinClib.Tx

variable {env : ScriptEnv} {type : TxScriptType} {origin : Option Nat} {op : UInt8} {p : Bytes}
  {state : ScriptState}

/-! ## Control points -/

/-- A script about to be run from one of its bytes on: the type it was passed with, where it
lies, what is left of it, and the state. -/
structure ControlPoint where
  type : TxScriptType
  origin : Option Nat
  rest : Bytes
  state : ScriptState
deriving DecidableEq, Repr

namespace ControlPoint

def run (env : ScriptEnv) (point : ControlPoint) : Exec (Bool × ScriptState) :=
  runScript env point.type point.origin point.rest point.state

/-- The point after a word that consumed some bytes. -/
def next (type : TxScriptType) (origin : Option Nat) (p : Bytes) (consumed : Nat)
    (after : ScriptState) : ControlPoint :=
  ⟨type, origin.map (· + 1 + consumed), p.drop consumed, after⟩

/-- The first word of a branch of the conditional before `p`. -/
def enter (origin : Option Nat) (p : Bytes) (start length : Nat) (inside : ScriptState) :
    ControlPoint :=
  ⟨.unknown, (origin.map (· + 1)).map (· + start), (p.drop start).take length, inside⟩

end ControlPoint

/-- Control leads from one point to another, entering a number of branches that it does not
leave. -/
inductive Leads (env : ScriptEnv) : Nat → ControlPoint → ControlPoint → Prop
  | here (point : ControlPoint) : Leads env 0 point point
  | next {type : TxScriptType} {origin : Option Nat} {op : UInt8} {p : Bytes}
      {state after : ScriptState} {consumed level : Nat} {there : ControlPoint}
      (passes : parseByte (scriptsParseUnknown env) env type op (origin.map (· + 1)) p state =
        .ok (some consumed, after))
      (later : Leads env level (.next type origin p consumed after) there) :
      Leads env level ⟨type, origin, op :: p, state⟩ there
  | enter {type : TxScriptType} {origin : Option Nat} {op : UInt8} {p : Bytes}
      {state inside : ScriptState} {isNotif : Bool} {start length pEndif level : Nat}
      {there : ControlPoint} (notTxin : type ≠ .txin)
      (conditional : conditionalOf op = some isNotif)
      (chosen : chooseBranch isNotif p state.deeper = .ok (.branch start length pEndif, inside))
      (nonempty : 0 < length)
      (later : Leads env level (.enter origin p start length inside) there) :
      Leads env (level + 1) ⟨type, origin, op :: p, state⟩ there

/-- The word at a point is refused by itself, not by a branch it runs. -/
inductive Refuses (env : ScriptEnv) : ControlPoint → ScriptState → Prop
  | word {type : TxScriptType} {origin : Option Nat} {op : UInt8} {p : Bytes}
      {state after : ScriptState} (word : type = .txin ∨ conditionalOf op = none)
      (refused : parseByte (scriptsParseUnknown env) env type op (origin.map (· + 1)) p state =
        .ok (none, after)) :
      Refuses env ⟨type, origin, op :: p, state⟩ after
  | conditional {type : TxScriptType} {origin : Option Nat} {op : UInt8} {p : Bytes}
      {state after : ScriptState} {isNotif : Bool} (notTxin : type ≠ .txin)
      (conditional : conditionalOf op = some isNotif)
      (refused : chooseBranch isNotif p state.deeper = .ok (.refuse, after)) :
      Refuses env ⟨type, origin, op :: p, state⟩ after

/-- The run of a chosen branch that is not empty. -/
theorem followChoice_branch {start length pEndif : Nat} {inside : ScriptState}
    (within : start + length < pEndif ∧ pEndif ≤ p.length) (nonempty : 0 < length) :
    followChoice (scriptsParseUnknown env) (origin.map (· + 1)) p
        (.branch start length pEndif, inside) = (do
      let (finished, after) ← (ControlPoint.enter origin p start length inside).run env
      if finished then closeConditional pEndif after else return (none, after)) := by
  have width : ((p.drop start).take length).length = length := by
    rw [List.length_take, List.length_drop]
    omega
  have notEmpty : (p.drop start).take length ≠ [] := by
    intro empty
    rw [empty] at width
    exact absurd width (by simp; omega)
  simp only [followChoice, scriptsParseUnknown_eq, Exec.assert_of notEmpty, Exec.ok_bind,
    bind_assoc]
  apply Exec.bind_congr_of rfl
  rintro ⟨finished, after⟩
  cases finished with
  | true =>
      have whole : parsedLength ((p.drop start).take length) true = length := by
        rw [parsedLength, if_pos rfl, width]
      simp [whole]
  | false =>
      have short : parsedLength ((p.drop start).take length) false ≠ (length : Int) := by
        rw [parsedLength, if_neg (by decide)]
        omega
      simp [short]

/-- A conditional whose branch is run. -/
theorem run_enter {isNotif : Bool} {start length pEndif : Nat} {inside : ScriptState}
    (notTxin : type ≠ .txin) (conditional : conditionalOf op = some isNotif)
    (chosen : chooseBranch isNotif p state.deeper = .ok (.branch start length pEndif, inside))
    (nonempty : 0 < length) :
    (ControlPoint.mk type origin (op :: p) state).run env = (do
      let (finished, after) ← (ControlPoint.enter origin p start length inside).run env
      if finished then do
        Exec.assert (0 ≤ after.ifStatementDepth - 1)
        (ControlPoint.next type origin p pEndif
          (after.withDepth (after.ifStatementDepth - 1))).run env
      else return (false, after)) := by
  rw [ControlPoint.run, runScript_cons, parseByte_conditional conditional notTxin, chosen,
    Exec.ok_bind, followChoice_branch (chooseBranch_inside chosen) nonempty, bind_assoc]
  apply Exec.bind_congr_of rfl
  rintro ⟨finished, after⟩
  cases finished with
  | true =>
      simp only [if_true, closeConditional, bind_assoc]
      rfl
  | false => rfl

/-- A word that is passed. -/
theorem run_next {consumed : Nat} {after : ScriptState}
    (passes : parseByte (scriptsParseUnknown env) env type op (origin.map (· + 1)) p state =
      .ok (some consumed, after)) :
    (ControlPoint.mk type origin (op :: p) state).run env =
      (ControlPoint.next type origin p consumed after).run env := by
  rw [ControlPoint.run, runScript_cons, passes]
  rfl

theorem Refuses.run {point : ControlPoint} {after : ScriptState}
    (refuses : Refuses env point after) : point.run env = .ok (false, after) := by
  cases refuses with
  | word word refused =>
      rw [ControlPoint.run, runScript_cons, refused]
      rfl
  | conditional notTxin conditional refused =>
      rw [ControlPoint.run, runScript_cons, parseByte_conditional conditional notTxin, refused]
      rfl

/-- A refusal reaches the outside with the state it leaves. -/
theorem Leads.refused {level : Nat} {here there : ControlPoint} {after : ScriptState}
    (leads : Leads env level here there) (refused : there.run env = .ok (false, after)) :
    here.run env = .ok (false, after) := by
  induction leads with
  | here point => exact refused
  | next passes later inductionHypothesis =>
      rw [run_next passes]
      exact inductionHypothesis refused
  | enter notTxin conditional chosen nonempty later inductionHypothesis =>
      rw [run_enter notTxin conditional chosen nonempty, inductionHypothesis refused]
      rfl

/-- So does a fault. -/
theorem Leads.faults {level : Nat} {here there : ControlPoint} {cause : Fault}
    (leads : Leads env level here there) (faults : there.run env = .fault cause) :
    here.run env = .fault cause := by
  induction leads with
  | here point => exact faults
  | next passes later inductionHypothesis =>
      rw [run_next passes]
      exact inductionHypothesis faults
  | enter notTxin conditional chosen nonempty later inductionHypothesis =>
      rw [run_enter notTxin conditional chosen nonempty, inductionHypothesis faults]
      rfl

theorem Leads.trans {outer inner : Nat} {here there beyond : ControlPoint}
    (first : Leads env outer here there) (second : Leads env inner there beyond) :
    Leads env (outer + inner) here beyond := by
  induction first with
  | here point =>
      rw [Nat.zero_add]
      exact second
  | next passes later inductionHypothesis => exact .next passes (inductionHypothesis second)
  | enter notTxin conditional chosen nonempty later inductionHypothesis =>
      rw [Nat.add_right_comm]
      exact .enter notTxin conditional chosen nonempty (inductionHypothesis second)

/-! ## Derivations of runs -/

/-- A run that returns, as a derivation. -/
inductive Runs (env : ScriptEnv) : ControlPoint → Bool → ScriptState → Prop
  | done {type : TxScriptType} {origin : Option Nat} {state : ScriptState} :
      Runs env ⟨type, origin, [], state⟩ true state
  | refuse {point : ControlPoint} {after : ScriptState} (refuses : Refuses env point after) :
      Runs env point false after
  | word {type : TxScriptType} {origin : Option Nat} {op : UInt8} {p : Bytes}
      {state middle after : ScriptState} {consumed : Nat} {finished : Bool}
      (word : type = .txin ∨ conditionalOf op = none)
      (passes : parseByte (scriptsParseUnknown env) env type op (origin.map (· + 1)) p state =
        .ok (some consumed, middle))
      (rest : Runs env (.next type origin p consumed middle) finished after) :
      Runs env ⟨type, origin, op :: p, state⟩ finished after
  | skip {type : TxScriptType} {origin : Option Nat} {op : UInt8} {p : Bytes}
      {state middle after : ScriptState} {isNotif finished : Bool} {pEndif : Nat}
      (notTxin : type ≠ .txin) (conditional : conditionalOf op = some isNotif)
      (chosen : chooseBranch isNotif p state.deeper = .ok (.skip pEndif, middle))
      (passes : parseByte (scriptsParseUnknown env) env type op (origin.map (· + 1)) p state =
        .ok (some pEndif, middle.withDepth (middle.ifStatementDepth - 1)))
      (rest : Runs env (.next type origin p pEndif
        (middle.withDepth (middle.ifStatementDepth - 1))) finished after) :
      Runs env ⟨type, origin, op :: p, state⟩ finished after
  | branch {type : TxScriptType} {origin : Option Nat} {op : UInt8} {p : Bytes}
      {state inside closed after : ScriptState} {isNotif finished : Bool}
      {start length pEndif : Nat} (notTxin : type ≠ .txin)
      (conditional : conditionalOf op = some isNotif)
      (chosen : chooseBranch isNotif p state.deeper = .ok (.branch start length pEndif, inside))
      (nonempty : 0 < length) (inner : Runs env (.enter origin p start length inside) true closed)
      (passes : parseByte (scriptsParseUnknown env) env type op (origin.map (· + 1)) p state =
        .ok (some pEndif, closed.withDepth (closed.ifStatementDepth - 1)))
      (rest : Runs env (.next type origin p pEndif
        (closed.withDepth (closed.ifStatementDepth - 1))) finished after) :
      Runs env ⟨type, origin, op :: p, state⟩ finished after
  | refusedBranch {type : TxScriptType} {origin : Option Nat} {op : UInt8} {p : Bytes}
      {state inside after : ScriptState} {isNotif : Bool} {start length pEndif : Nat}
      (notTxin : type ≠ .txin) (conditional : conditionalOf op = some isNotif)
      (chosen : chooseBranch isNotif p state.deeper = .ok (.branch start length pEndif, inside))
      (nonempty : 0 < length) (inner : Runs env (.enter origin p start length inside) false after) :
      Runs env ⟨type, origin, op :: p, state⟩ false after

/-- An empty branch fails the assertion of the parser. -/
theorem run_emptyBranch {isNotif : Bool} {start pEndif : Nat} {inside : ScriptState}
    (notTxin : type ≠ .txin) (conditional : conditionalOf op = some isNotif)
    (chosen : chooseBranch isNotif p state.deeper = .ok (.branch start 0 pEndif, inside)) :
    (ControlPoint.mk type origin (op :: p) state).run env = .fault .assertion := by
  rw [ControlPoint.run, runScript_cons, parseByte_conditional conditional notTxin, chosen]
  rfl

/-- A conditional without a branch to run is passed. -/
theorem parseByte_skip {isNotif : Bool} {pEndif : Nat} {middle : ScriptState}
    (notTxin : type ≠ .txin) (conditional : conditionalOf op = some isNotif)
    (chosen : chooseBranch isNotif p state.deeper = .ok (.skip pEndif, middle))
    (parse : ParseCall) :
    parseByte parse env type op origin p state =
      .ok (some pEndif, middle.withDepth (middle.ifStatementDepth - 1)) := by
  have isOpen : 0 ≤ middle.ifStatementDepth - 1 := by
    rcases chooseBranch_frame chosen with ⟨refused, -⟩ | ⟨entered, rfl⟩
    · cases refused
    · rw [ScriptState.dropTop_depth]
      omega
  rw [parseByte_conditional conditional notTxin, chosen]
  simp only [Exec.ok_bind, followChoice, closeConditional, Exec.assert_of isOpen]
  rfl

/-- A conditional whose branch runs to its end is passed. -/
theorem parseByte_branch {isNotif : Bool} {start length pEndif : Nat}
    {inside closed : ScriptState} (notTxin : type ≠ .txin)
    (conditional : conditionalOf op = some isNotif)
    (chosen : chooseBranch isNotif p state.deeper = .ok (.branch start length pEndif, inside))
    (nonempty : 0 < length)
    (inner : (ControlPoint.enter origin p start length inside).run env = .ok (true, closed))
    (isOpen : 1 ≤ closed.ifStatementDepth) :
    parseByte (scriptsParseUnknown env) env type op (origin.map (· + 1)) p state =
      .ok (some pEndif, closed.withDepth (closed.ifStatementDepth - 1)) := by
  have stillOpen : 0 ≤ closed.ifStatementDepth - 1 := by omega
  rw [parseByte_conditional conditional notTxin, chosen, Exec.ok_bind,
    followChoice_branch (chooseBranch_inside chosen) nonempty, inner]
  simp only [Exec.ok_bind, if_true, closeConditional, Exec.assert_of stillOpen]
  rfl

/-- Every run that returns has a derivation. -/
theorem runs_of_run {point : ControlPoint} {finished : Bool} {after : ScriptState}
    (returns : point.run env = .ok (finished, after)) : Runs env point finished after := by
  induction size : point.rest.length using Nat.strong_induction_on
    generalizing point finished after with
  | _ size inductionHypothesis =>
      subst size
      obtain ⟨type, origin, rest, state⟩ := point
      cases rest with
      | nil =>
          cases returns
          exact .done
      | cons op p =>
          have onwards : ∀ {consumed : Nat} {middle : ScriptState} {finished after},
              (ControlPoint.next type origin p consumed middle).run env = .ok (finished, after) →
                Runs env (.next type origin p consumed middle) finished after :=
            fun returns => inductionHypothesis _
              (by simp only [ControlPoint.next, List.length_drop, List.length_cons]; omega)
              returns rfl
          by_cases word : type = .txin ∨ conditionalOf op = none
          · have parsed := returns
            rw [ControlPoint.run, runScript_cons] at parsed
            obtain ⟨⟨consumed, middle⟩, passes, -⟩ := bind_eq_ok.1 parsed
            cases consumed with
            | none =>
                have refuses : Refuses env ⟨type, origin, op :: p, state⟩ middle :=
                  .word word passes
                rw [refuses.run] at returns
                cases returns
                exact .refuse refuses
            | some consumed =>
                rw [run_next passes] at returns
                exact .word word passes (onwards returns)
          · rw [not_or] at word
            obtain ⟨notTxin, someConditional⟩ := word
            obtain ⟨isNotif, conditional⟩ := Option.ne_none_iff_exists'.1 someConditional
            have parsed := returns
            rw [ControlPoint.run, runScript_cons, parseByte_conditional conditional notTxin] at parsed
            obtain ⟨⟨consumed, middle⟩, followed, -⟩ := bind_eq_ok.1 parsed
            obtain ⟨⟨choice, inside⟩, chosen, -⟩ := bind_eq_ok.1 followed
            cases choice with
            | refuse =>
                have refuses : Refuses env ⟨type, origin, op :: p, state⟩ inside :=
                  .conditional notTxin conditional chosen
                rw [refuses.run] at returns
                cases returns
                exact .refuse refuses
            | skip pEndif =>
                have passes : parseByte (scriptsParseUnknown env) env type op (origin.map (· + 1))
                    p state = .ok (some pEndif, inside.withDepth (inside.ifStatementDepth - 1)) :=
                  parseByte_skip notTxin conditional chosen _
                rw [run_next passes] at returns
                exact .skip notTxin conditional chosen passes (onwards returns)
            | branch start length pEndif =>
                rcases Nat.eq_zero_or_pos length with rfl | nonempty
                · rw [run_emptyBranch notTxin conditional chosen] at returns
                  cases returns
                rw [run_enter notTxin conditional chosen nonempty] at returns
                obtain ⟨⟨ended, closed⟩, inner, returns⟩ := bind_eq_ok.1 returns
                have derived : Runs env (.enter origin p start length inside) ended closed := by
                  apply inductionHypothesis _ _ inner rfl
                  simp only [ControlPoint.enter, List.length_cons, List.length_take]
                  have within := chooseBranch_inside chosen
                  omega
                cases ended with
                | false =>
                    cases returns
                    exact .refusedBranch notTxin conditional chosen nonempty derived
                | true =>
                    obtain ⟨_, isOpen, returns⟩ := bind_eq_ok.1 returns
                    rw [Exec.assert_eq_ok] at isOpen
                    exact .branch notTxin conditional chosen nonempty derived
                      (parseByte_branch notTxin conditional chosen nonempty inner (by omega))
                      (onwards returns)

/-- A script that runs to its end leaves the conditional depth as it was. -/
theorem Runs.depth {point : ControlPoint} {finished : Bool} {after : ScriptState}
    (runs : Runs env point finished after) (ended : finished = true) :
    after.ifStatementDepth = point.state.ifStatementDepth := by
  induction runs with
  | done => rfl
  | refuse refuses => cases ended
  | word word passes rest inductionHypothesis =>
      exact (inductionHypothesis ended).trans (parseByte_depth word passes)
  | skip notTxin conditional chosen passes rest inductionHypothesis =>
      have kept := chooseBranch_depth chosen
      have closed := inductionHypothesis ended
      simp only [ControlPoint.next, ScriptState.withDepth_depth, ScriptState.deeper] at kept closed
      rw [closed, kept, Int.add_sub_cancel]
  | branch notTxin conditional chosen nonempty inner passes rest innerHypothesis restHypothesis =>
      have kept := chooseBranch_depth chosen
      have branch := innerHypothesis rfl
      have closed := restHypothesis ended
      simp only [ControlPoint.next, ControlPoint.enter, ScriptState.withDepth_depth,
        ScriptState.deeper] at kept branch closed
      rw [closed, branch, kept, Int.add_sub_cancel]
  | refusedBranch notTxin conditional chosen nonempty inner inductionHypothesis => cases ended

/-- Every refusal comes from a word that control reaches. -/
theorem Runs.exists_refusing {point : ControlPoint} {finished : Bool} {after : ScriptState}
    (runs : Runs env point finished after) (refused : finished = false) :
    ∃ level there, Leads env level point there ∧ Refuses env there after := by
  induction runs with
  | done => cases refused
  | refuse refuses => exact ⟨0, _, .here _, refuses⟩
  | word word passes rest inductionHypothesis =>
      obtain ⟨level, there, leads, refuses⟩ := inductionHypothesis refused
      exact ⟨level, there, .next passes leads, refuses⟩
  | skip notTxin conditional chosen passes rest inductionHypothesis =>
      obtain ⟨level, there, leads, refuses⟩ := inductionHypothesis refused
      exact ⟨level, there, .next passes leads, refuses⟩
  | branch notTxin conditional chosen nonempty inner passes rest innerHypothesis restHypothesis =>
      obtain ⟨level, there, leads, refuses⟩ := restHypothesis refused
      exact ⟨level, there, .next passes leads, refuses⟩
  | refusedBranch notTxin conditional chosen nonempty inner inductionHypothesis =>
      obtain ⟨level, there, leads, refuses⟩ := inductionHypothesis refused
      exact ⟨level + 1, there, .enter notTxin conditional chosen nonempty leads, refuses⟩

/-- A conditional that is passed was skipped, or ran its branch to the end. -/
theorem parseByte_conditional_passes {isNotif : Bool} {consumed : Nat} {after : ScriptState}
    (notTxin : type ≠ .txin) (conditional : conditionalOf op = some isNotif)
    (passes : parseByte (scriptsParseUnknown env) env type op (origin.map (· + 1)) p state =
      .ok (some consumed, after)) :
    ∃ closed : ScriptState, after = closed.withDepth (closed.ifStatementDepth - 1) ∧
      (chooseBranch isNotif p state.deeper = .ok (.skip consumed, closed) ∨
        ∃ start length inside,
          chooseBranch isNotif p state.deeper = .ok (.branch start length consumed, inside) ∧
          0 < length ∧ Runs env (.enter origin p start length inside) true closed) := by
  rw [parseByte_conditional conditional notTxin] at passes
  obtain ⟨⟨choice, inside⟩, chosen, followed⟩ := bind_eq_ok.1 passes
  have closing : ∀ {pEndif : Nat} {closed : ScriptState},
      closeConditional pEndif closed = .ok (some consumed, after) →
      pEndif = consumed ∧ after = closed.withDepth (closed.ifStatementDepth - 1) := by
    intro pEndif closed closes
    obtain ⟨_, -, closes⟩ := bind_eq_ok.1 closes
    cases closes
    exact ⟨rfl, rfl⟩
  cases choice with
  | refuse => cases followed
  | skip pEndif =>
      obtain ⟨rfl, rfl⟩ := closing followed
      exact ⟨inside, rfl, .inl chosen⟩
  | branch start length pEndif =>
      rcases Nat.eq_zero_or_pos length with rfl | nonempty
      · cases followed
      rw [followChoice_branch (chooseBranch_inside chosen) nonempty] at followed
      obtain ⟨⟨ended, closed⟩, inner, closes⟩ := bind_eq_ok.1 followed
      cases ended with
      | false => cases closes
      | true =>
          obtain ⟨rfl, rfl⟩ := closing closes
          exact ⟨closed, rfl, .inr ⟨start, length, inside, chosen, nonempty, runs_of_run inner⟩⟩

theorem parseByte_passes_depth {consumed : Nat} {after : ScriptState}
    (passes : parseByte (scriptsParseUnknown env) env type op (origin.map (· + 1)) p state =
      .ok (some consumed, after)) : after.ifStatementDepth = state.ifStatementDepth := by
  by_cases word : type = .txin ∨ conditionalOf op = none
  · exact parseByte_depth word passes
  · rw [not_or] at word
    obtain ⟨notTxin, someConditional⟩ := word
    obtain ⟨isNotif, conditional⟩ := Option.ne_none_iff_exists'.1 someConditional
    obtain ⟨closed, rfl, skipped | ⟨start, length, inside, chosen, -, inner⟩⟩ :=
      parseByte_conditional_passes notTxin conditional passes
    · have kept := chooseBranch_depth skipped
      simp only [ScriptState.withDepth_depth, ScriptState.deeper] at kept ⊢
      rw [kept, Int.add_sub_cancel]
    · have kept := chooseBranch_depth chosen
      have branch := inner.depth rfl
      simp only [ControlPoint.enter, ScriptState.withDepth_depth, ScriptState.deeper]
        at kept branch ⊢
      rw [branch, kept, Int.add_sub_cancel]

/-- The conditional depth at a point counts the branches entered on the way. -/
theorem Leads.depth {level : Nat} {here there : ControlPoint}
    (leads : Leads env level here there) :
    there.state.ifStatementDepth = here.state.ifStatementDepth + level := by
  induction leads with
  | here point => simp
  | next passes later inductionHypothesis =>
      rw [inductionHypothesis]
      congr 1
      exact parseByte_passes_depth passes
  | enter notTxin conditional chosen nonempty later inductionHypothesis =>
      have kept := chooseBranch_depth chosen
      simp only [ControlPoint.enter, ScriptState.withDepth_depth, ScriptState.deeper]
        at kept inductionHypothesis
      push_cast
      omega

/-- What the opcode loop keeps holds at every point that control reaches. -/
theorem Leads.keeps {property : ScriptState → Prop} {level : Nat} {here there : ControlPoint}
    (relation : RunRelation env fun left right => left = right ∧ property left)
    (leads : Leads env level here there) (start : property here.state) :
    property there.state := by
  have callback : ParseRelated (fun left right => left = right ∧ property left)
      (scriptsParseUnknown env) := fun origin payload _ _ related =>
    scriptsParseUnknown_related relation origin payload related
  induction leads with
  | here point => exact start
  | @next type origin op p state after consumed level there passes later inductionHypothesis =>
      have related : state = state ∧ property state := ⟨rfl, start⟩
      have step := parseByte_related relation callback type op (origin.map (· + 1)) p related
      rw [passes] at step
      exact inductionHypothesis step.2.2
  | @enter _ _ _ _ state _ _ _ _ _ _ _ notTxin conditional chosen nonempty later
      inductionHypothesis =>
      apply inductionHypothesis
      have related : state = state ∧ property state := ⟨rfl, start⟩
      have opened : property state.deeper := (relation.withDepth related _).2
      rcases chooseBranch_frame chosen with ⟨refused, -⟩ | ⟨-, rfl⟩
      · cases refused
      · exact (relation.dropTop ⟨rfl, opened⟩).2

end BitcoinClib.Script
