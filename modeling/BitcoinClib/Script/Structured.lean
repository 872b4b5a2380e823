import BitcoinClib.Script.Truth

/-!
Contract: scripts whose conditionals are closed, against the branch-by-branch reading.

Owns:
- `Structured`, scripts generated by words, pushes and closed conditionals, with their
  encoding and nesting depth;
- `Structured.flatRun`, the execution that pops a condition and runs the selected branch;
- the scan of `parse_op_if_notif` over such scripts, whatever bytes their pushes hold;
- that the opcode loop computes `flatRun`.

Does not own: scripts with a conditional that is not closed.
-/

namespace BitcoinClib.Script

open BitcoinClib.Lib
open BitcoinClib.Lib.Exec
open BitcoinClib.Types
open BitcoinClib.Crypto
open BitcoinClib.Tx

/-! ## Grammar -/

/-- A word that is no push, belongs to no conditional, and is not `OP_CODESEPARATOR`. -/
def IsOrdinary (op : UInt8) : Prop :=
  0x4e < op ∧ op ≠ 0x63 ∧ op ≠ 0x64 ∧ op ≠ 0x67 ∧ op ≠ 0x68 ∧ op ≠ 0xab

instance (op : UInt8) : Decidable (IsOrdinary op) := inferInstanceAs (Decidable (_ ∧ _))

/-- A script with closed conditionals; `cond` has no `OP_ELSE`, `condElse` has one. -/
inductive Structured where
  | done
  | word (op : UInt8) (ordinary : IsOrdinary op) (rest : Structured)
  | zero (rest : Structured)
  | push (content : DataPush) (rest : Structured)
  | cond (isNotif : Bool) (body rest : Structured)
  | condElse (isNotif : Bool) (body otherwise rest : Structured)

/-- `OP_IF` or `OP_NOTIF`. -/
def conditionalByte (isNotif : Bool) : UInt8 := if isNotif then 0x64 else 0x63

@[simp] theorem conditionalOf_conditionalByte (isNotif : Bool) :
    conditionalOf (conditionalByte isNotif) = some isNotif := by
  cases isNotif <;> rfl

theorem conditionalByte_cases (isNotif : Bool) :
    conditionalByte isNotif = 0x63 ∨ conditionalByte isNotif = 0x64 := by
  cases isNotif with
  | false => exact .inl rfl
  | true => exact .inr rfl

/-- The bytes of a push. -/
def DataPush.encode (content : DataPush) : Bytes := (ScriptWord.push content).encode

namespace Structured

/-- The bytes of a script. -/
def encode : Structured → Bytes
  | done => []
  | word op _ rest => op :: rest.encode
  | zero rest => 0 :: rest.encode
  | push content rest => content.encode ++ rest.encode
  | cond isNotif body rest => conditionalByte isNotif :: (body.encode ++ 0x68 :: rest.encode)
  | condElse isNotif body otherwise rest =>
      conditionalByte isNotif ::
        (body.encode ++ 0x67 :: (otherwise.encode ++ 0x68 :: rest.encode))

/-- How deep conditionals are nested. -/
def nesting : Structured → Nat
  | done => 0
  | word _ _ rest | zero rest | push _ rest => rest.nesting
  | cond _ body rest => max (body.nesting + 1) rest.nesting
  | condElse _ body otherwise rest =>
      max (max (body.nesting + 1) (otherwise.nesting + 1)) rest.nesting

end Structured

/-! ## Branch-by-branch execution -/

/-- One ordinary word, which neither looks at the bytes around it nor calls the parser. -/
def runWord (env : ScriptEnv) (op : UInt8) (state : ScriptState) : Exec (Bool × ScriptState) := do
  let (consumed, state) ← parseByte (fun _ _ _ => .timeout) env .unknown op none [] state
  return (consumed.isSome, state)

/-- Run the second part when the first one finishes. -/
def andThen (first : Exec (Bool × ScriptState))
    (second : ScriptState → Exec (Bool × ScriptState)) : Exec (Bool × ScriptState) := do
  let (finished, state) ← first
  if finished then second state else return (false, state)

/-- A boolean or a small integer. -/
inductive IsCondition : ScriptData → Prop
  | boolean (value isStatic : Bool) :
      IsCondition ⟨.bool, .inline [if value then 1 else 0], 1, isStatic⟩
  | smallInteger {value : UInt8} (range : 1 ≤ value ∧ value ≤ 16) :
      IsCondition (satoshiScriptDataNewUint8 value)

/-- The truth of a boolean or a small integer on top of the stack. -/
def topHolds (state : ScriptState) : Bool :=
  match state.items with
  | some ⟨_, .inline (byte :: _), _, _⟩ :: _ => byte ≠ 0
  | _ => false

namespace Structured

/-- The script with each conditional replaced, when it is reached, by popping its condition
and running the selected branch. `OP_PUSHDATA4` is executed nowhere. -/
def flatRun (env : ScriptEnv) : Structured → ScriptState → Exec (Bool × ScriptState)
  | done, state => .ok (true, state)
  | word op _ rest, state => andThen (runWord env op state) (flatRun env rest)
  | zero rest, state => flatRun env rest (state.push sdataFalse)
  | push content rest, state =>
      if content.form = .pushdata4 then .fault .assertion
      else flatRun env rest (state.push (satoshiScriptDataNewPtr content.data))
  | cond isNotif body rest, state =>
      if isNotif != topHolds state then
        andThen (flatRun env body state.dropTop) (flatRun env rest)
      else flatRun env rest state.dropTop
  | condElse isNotif body otherwise rest, state =>
      if isNotif != topHolds state then
        andThen (flatRun env body state.dropTop) (flatRun env rest)
      else andThen (flatRun env otherwise state.dropTop) (flatRun env rest)

/-- Every conditional that is reached finds a boolean or a small integer on top, and the branch
it selects is not empty. -/
def Ready (env : ScriptEnv) : Structured → ScriptState → Prop
  | done, _ => True
  | word op _ rest, state => ∀ after, runWord env op state = .ok (true, after) → rest.Ready env after
  | zero rest, state => rest.Ready env (state.push sdataFalse)
  | push content rest, state => rest.Ready env (state.push (satoshiScriptDataNewPtr content.data))
  | cond isNotif body rest, state =>
      (∃ sdata below, state.items = some sdata :: below ∧ IsCondition sdata) ∧
        if isNotif != topHolds state then
          body.encode ≠ [] ∧ body.Ready env state.dropTop ∧
            ∀ after, body.flatRun env state.dropTop = .ok (true, after) → rest.Ready env after
        else rest.Ready env state.dropTop
  | condElse isNotif body otherwise rest, state =>
      (∃ sdata below, state.items = some sdata :: below ∧ IsCondition sdata) ∧
        if isNotif != topHolds state then
          body.encode ≠ [] ∧ body.Ready env state.dropTop ∧
            ∀ after, body.flatRun env state.dropTop = .ok (true, after) → rest.Ready env after
        else
          otherwise.encode ≠ [] ∧ otherwise.Ready env state.dropTop ∧
            ∀ after, otherwise.flatRun env state.dropTop = .ok (true, after) →
              rest.Ready env after

end Structured

/-! ## Scanning -/

/-- The opcode and the length field of a push announce its data. -/
theorem pushDataSize_dataPush (content : DataPush) :
    ∃ op field, content.encode = op :: (field ++ content.data) ∧ op ≠ 0 ∧ op ≤ 0x4e ∧
      (op = 0x4e ↔ content.form = .pushdata4) ∧
      ∀ rest, pushDataSize op (field ++ content.data ++ rest) =
        some (content.data.length, field.length) := by
  obtain ⟨form, data, admitted⟩ := content
  have announced : ∀ (op : UInt8) (width : Nat),
      (∀ q : Bytes, width ≤ q.length → pushDataSize op q = some (leValue (q.take width), width)) →
      data.length < 256 ^ width → ∀ rest,
      pushDataSize op (leBytes width data.length ++ data ++ rest) =
        some (data.length, (leBytes width data.length).length) := by
    intro op width reads fits rest
    rw [reads _ (by simp), List.append_assoc, List.take_left' (leBytes_length width _),
      leValue_leBytes width _ fits, leBytes_length]
  cases form with
  | direct =>
      have opcode : (UInt8.ofNat data.length).toNat = data.length := by
        rw [UInt8.toNat_ofNat']
        exact Nat.mod_eq_of_lt (by have := admitted.2; omega)
      have direct : UInt8.ofNat data.length < 0x4c := by
        rw [UInt8.lt_iff_toNat_lt, opcode]
        exact admitted.2
      have notLong : ∀ long : UInt8, 0x4c ≤ long → UInt8.ofNat data.length ≠ long :=
        fun long above => UInt8.ne_of_lt (UInt8.lt_of_lt_of_le direct above)
      refine ⟨UInt8.ofNat data.length, [], rfl, ?_, ?_, ?_, ?_⟩
      · intro isZero
        rw [isZero] at opcode
        exact absurd admitted.1 (by rw [← opcode]; decide)
      · exact UInt8.le_of_lt (UInt8.lt_trans direct (by decide))
      · exact ⟨fun long => absurd long (notLong _ (by decide)), fun long => by cases long⟩
      · intro rest
        rw [pushDataSize, if_neg (notLong _ (by decide)), if_neg (notLong _ (by decide)),
          if_neg (notLong _ (by decide)), opcode]
        rfl
  | pushdata1 =>
      refine ⟨0x4c, leBytes 1 data.length, rfl, by decide, by decide,
        ⟨fun long => absurd long (by decide), fun long => by cases long⟩, ?_⟩
      apply announced 0x4c 1 _ admitted
      intro q enough
      rw [pushDataSize, if_pos rfl, if_neg (by omega)]
  | pushdata2 =>
      refine ⟨0x4d, leBytes 2 data.length, rfl, by decide, by decide,
        ⟨fun long => absurd long (by decide), fun long => by cases long⟩, ?_⟩
      apply announced 0x4d 2 _ admitted
      intro q enough
      rw [pushDataSize, if_neg (by decide), if_pos rfl, if_neg (by omega)]
  | pushdata4 =>
      refine ⟨0x4e, leBytes 4 data.length, rfl, by decide, by decide,
        ⟨fun _ => rfl, fun _ => rfl⟩, ?_⟩
      apply announced 0x4e 4 _ admitted
      intro q enough
      rw [pushDataSize, if_neg (by decide), if_neg (by decide), if_pos rfl, if_neg (by omega)]

/-- The scan passes an ordinary word. -/
theorem scanBranches_ordinary {op : UInt8} (ordinary : IsOrdinary op) (p : Bytes)
    (position level : Nat) (pElse : Option Nat) :
    scanBranches (op :: p) position level pElse = scanBranches p (position + 1) level pElse := by
  obtain ⟨above, notIf, notNotif, notElse, notEndif, -⟩ := ordinary
  rw [scanBranches_cons, if_neg (by simp [notIf, notNotif]), if_neg notElse, if_neg notEndif,
    if_neg (UInt8.not_le.2 above)]

/-- The scan passes a push, whatever its data. -/
theorem scanBranches_push (content : DataPush) (p : Bytes) (position level : Nat)
    (pElse : Option Nat) :
    scanBranches (content.encode ++ p) position level pElse =
      scanBranches p (position + content.encode.length) level pElse := by
  obtain ⟨op, field, encoded, -, push, -, announced⟩ := pushDataSize_dataPush content
  have small : ∀ other : UInt8, 0x4e < other → op ≠ other := fun other above =>
    UInt8.ne_of_lt (UInt8.lt_of_le_of_lt push above)
  have after : (field ++ content.data ++ p).drop (field.length + content.data.length) = p := by
    rw [← List.length_append, List.drop_left]
  rw [encoded, List.cons_append, scanBranches_cons,
    if_neg (by simp [small 0x63 (by decide), small 0x64 (by decide)]),
    if_neg (small 0x67 (by decide)), if_neg (small 0x68 (by decide)), if_pos push,
    announced, Option.bind_some, after]
  congr 1
  simp only [List.length_cons, List.length_append]
  omega

theorem scanBranches_zero (p : Bytes) (position level : Nat) (pElse : Option Nat) :
    scanBranches (0 :: p) position level pElse = scanBranches p (position + 1) level pElse := by
  rw [scanBranches_cons]
  rfl

theorem scanBranches_conditional (isNotif : Bool) (p : Bytes) (position level : Nat)
    (pElse : Option Nat) :
    scanBranches (conditionalByte isNotif :: p) position level pElse =
      scanBranches p (position + 1) (level + 1) pElse := by
  rw [scanBranches_cons, if_pos (conditionalByte_cases isNotif)]

theorem scanBranches_else (p : Bytes) (position level : Nat) (pElse : Option Nat) :
    scanBranches (0x67 :: p) position level pElse =
      scanBranches p (position + 1) level (if level = 0 then some (position + 1) else pElse) := by
  rw [scanBranches_cons]
  rfl

theorem scanBranches_endif (p : Bytes) (position level : Nat) (pElse : Option Nat) :
    scanBranches (0x68 :: p) position level pElse =
      if level = 0 then some (pElse, position + 1)
      else scanBranches p (position + 1) (level - 1) pElse := by
  rw [scanBranches_cons]
  rfl

/-- The scan passes a structured script as a whole, at every level. -/
theorem scanBranches_structured (script : Structured) (p : Bytes) (position level : Nat)
    (pElse : Option Nat) :
    scanBranches (script.encode ++ p) position level pElse =
      scanBranches p (position + script.encode.length) level pElse := by
  induction script generalizing p position level pElse with
  | done => rfl
  | word op ordinary rest inductionHypothesis =>
      rw [Structured.encode, List.cons_append, scanBranches_ordinary ordinary,
        inductionHypothesis, List.length_cons]
      congr 1
      omega
  | zero rest inductionHypothesis =>
      rw [Structured.encode, List.cons_append, scanBranches_zero, inductionHypothesis,
        List.length_cons]
      congr 1
      omega
  | push content rest inductionHypothesis =>
      rw [Structured.encode, List.append_assoc, scanBranches_push, inductionHypothesis,
        List.length_append]
      congr 1
      omega
  | cond isNotif body rest bodyHypothesis restHypothesis =>
      rw [Structured.encode, List.cons_append, scanBranches_conditional, List.append_assoc,
        bodyHypothesis, List.cons_append, scanBranches_endif, if_neg (Nat.succ_ne_zero _),
        Nat.add_sub_cancel, restHypothesis]
      congr 1
      simp only [List.length_cons, List.length_append]
      omega
  | condElse isNotif body otherwise rest bodyHypothesis otherwiseHypothesis restHypothesis =>
      rw [Structured.encode, List.cons_append, scanBranches_conditional, List.append_assoc,
        bodyHypothesis, List.cons_append, scanBranches_else, if_neg (Nat.succ_ne_zero _),
        List.append_assoc, otherwiseHypothesis, List.cons_append, scanBranches_endif,
        if_neg (Nat.succ_ne_zero _), Nat.add_sub_cancel, restHypothesis]
      congr 1
      simp only [List.length_cons, List.length_append]
      omega

/-! ## Single words -/

variable {env : ScriptEnv} {type : TxScriptType} {origin : Option Nat} {p : Bytes}
  {state : ScriptState}

/-- The result of an opcode function is a return code. -/
theorem ofReturnCode_isSome (run : Exec (Int × ScriptState)) :
    ofReturnCode run = (ofReturnCode run >>= fun result =>
      pure (if result.1.isSome then some 0 else none, result.2)) := by
  cases run with
  | ok result =>
      obtain ⟨rc, after⟩ := result
      by_cases zero : rc = 0
      · simp [ofReturnCode, zero]
      · simp [ofReturnCode, zero]
  | fault cause => rfl
  | timeout => rfl

/-- An opcode function that ignores the rest of the script and its place. -/
theorem parseOpcode_context {opcode : ScriptOpcode} (word : opcode.isConditional = false)
    (notSeparator : opcode ≠ .codeseparator) (parse parse' : ParseCall) :
    parseOpcode parse env opcode origin p state =
      (parseOpcode parse' env opcode none [] state >>= fun result =>
        pure (if result.1.isSome then some 0 else none, result.2)) := by
  cases opcode with
  | «if» => cases word
  | notif => cases word
  | codeseparator => exact absurd rfl notSeparator
  | nop => rfl
  | «else» => rfl
  | endif => rfl
  | «return» => rfl
  | reserved => rfl
  | _ => exact ofReturnCode_isSome _

theorem ofByte_ordinary {op : UInt8} (ordinary : IsOrdinary op) :
    (ScriptOpcode.ofByte op).isConditional = false ∧ ScriptOpcode.ofByte op ≠ .codeseparator := by
  have all : ∀ op, IsOrdinary op → (ScriptOpcode.ofByte op).isConditional = false ∧
      ScriptOpcode.ofByte op ≠ .codeseparator := forall_byte (by decide +kernel)
  exact all op ordinary

/-- The opcode loop executes an ordinary word as it is executed alone. -/
theorem parseByte_ordinary {op : UInt8} (ordinary : IsOrdinary op) (notTxin : type ≠ .txin)
    (parse : ParseCall) :
    parseByte parse env type op origin p state = (runWord env op state >>= fun result =>
      pure (if result.1 then some 0 else none, result.2)) := by
  have above := ordinary.1
  have notZero : op ≠ 0 := by
    rintro rfl
    exact absurd above (by decide)
  have notPush : ¬ op ≤ 0x4e := UInt8.not_le.2 above
  obtain ⟨notConditional, notSeparator⟩ := ofByte_ordinary ordinary
  simp only [runWord, parseByte, if_neg notZero, if_neg notPush, if_neg notTxin, bind_assoc]
  rw [if_neg (by decide : ¬ (TxScriptType.unknown = .txin))]
  split_ifs with small
  · rfl
  · exact parseOpcode_context notConditional notSeparator parse _

theorem runWord_withDepth {op : UInt8} (ordinary : IsOrdinary op) (depth : Int) :
    runWord env op (state.withDepth depth) = (runWord env op state >>= fun result =>
      pure (result.1, result.2.withDepth depth)) := by
  have word : conditionalOf op = none := by
    rw [← Option.not_isSome_iff_eq_none, ← isConditional_ofByte, (ofByte_ordinary ordinary).1]
    decide
  rw [runWord, parseByte_withDepth (.inr word)]
  simp only [runWord, bind_assoc]
  rfl

theorem runWord_depth {op : UInt8} {finished : Bool} {after : ScriptState}
    (ordinary : IsOrdinary op) (runs : runWord env op state = .ok (finished, after)) :
    after.ifStatementDepth = state.ifStatementDepth := by
  have same : runWord env op (state.withDepth state.ifStatementDepth) = _ :=
    runWord_withDepth ordinary state.ifStatementDepth
  rw [ScriptState.withDepth_self, runs] at same
  have kept : after = after.withDepth state.ifStatementDepth :=
    congrArg Prod.snd (Exec.ok.inj same)
  rw [kept, ScriptState.withDepth_depth]

/-- A push whose data fits. -/
theorem parseByte_dataPush (content : DataPush) (notLong : content.form ≠ .pushdata4)
    (parse : ParseCall) :
    ∃ op field, content.encode = op :: (field ++ content.data) ∧
      parseByte parse env type op origin (field ++ content.data ++ p) state =
        .ok (some (field ++ content.data).length,
          state.push (satoshiScriptDataNewPtr content.data)) := by
  obtain ⟨op, field, encoded, notZero, push, long, announced⟩ := pushDataSize_dataPush content
  refine ⟨op, field, encoded, ?_⟩
  have notLast : op ≠ 0x4e := fun last => notLong (long.1 last)
  have inside : ¬ (field ++ content.data ++ p).length < field.length + content.data.length := by
    simp only [List.length_append]
    omega
  have data : ((field ++ content.data ++ p).drop field.length).take content.data.length =
      content.data := by
    rw [List.append_assoc, List.drop_left, List.take_left]
  simp only [parseByte, if_neg notZero, if_pos push, if_neg notLast, parseOpPushData, announced]
  rw [if_neg inside, data, List.length_append]

/-- `OP_PUSHDATA4` fails an assertion. -/
theorem run_longPush (content : DataPush) (long : content.form = .pushdata4) :
    (ControlPoint.mk type origin (content.encode ++ p) state).run env = .fault .assertion := by
  obtain ⟨op, field, encoded, notZero, push, isLong, -⟩ := pushDataSize_dataPush content
  rw [encoded, List.cons_append, ControlPoint.run, runScript_cons]
  simp only [parseByte, if_neg notZero, if_pos push, if_pos (isLong.2 long), Exec.fault_bind]

/-! ## Depth -/

theorem andThen_withDepth {first first' : Exec (Bool × ScriptState)}
    {second : ScriptState → Exec (Bool × ScriptState)} {depth : Int}
    (firstSame : first' = (first >>= fun result => pure (result.1, result.2.withDepth depth)))
    (secondSame : ∀ state, second (state.withDepth depth) =
      (second state >>= fun result => pure (result.1, result.2.withDepth depth))) :
    andThen first' second = (andThen first second >>= fun result =>
      pure (result.1, result.2.withDepth depth)) := by
  subst firstSame
  simp only [andThen, bind_assoc]
  apply Exec.bind_congr_of rfl
  rintro ⟨finished, after⟩
  cases finished with
  | true => exact secondSame after
  | false => rfl

/-- Branch-by-branch execution does not see the depth. -/
theorem flatRun_withDepth (script : Structured) (state : ScriptState) (depth : Int) :
    script.flatRun env (state.withDepth depth) = (script.flatRun env state >>= fun result =>
      pure (result.1, result.2.withDepth depth)) := by
  induction script generalizing state with
  | done => rfl
  | word op ordinary rest inductionHypothesis =>
      exact andThen_withDepth (runWord_withDepth ordinary depth) inductionHypothesis
  | zero rest inductionHypothesis => exact inductionHypothesis (state.push sdataFalse)
  | push content rest inductionHypothesis =>
      rw [Structured.flatRun, Structured.flatRun]
      split_ifs
      · rfl
      · exact inductionHypothesis (state.push (satoshiScriptDataNewPtr content.data))
  | cond isNotif body rest bodyHypothesis restHypothesis =>
      have same : topHolds (state.withDepth depth) = topHolds state := rfl
      rw [Structured.flatRun, Structured.flatRun, same]
      split_ifs
      · exact andThen_withDepth (bodyHypothesis state.dropTop) restHypothesis
      · exact restHypothesis state.dropTop
  | condElse isNotif body otherwise rest bodyHypothesis otherwiseHypothesis restHypothesis =>
      have same : topHolds (state.withDepth depth) = topHolds state := rfl
      rw [Structured.flatRun, Structured.flatRun, same]
      split_ifs
      · exact andThen_withDepth (bodyHypothesis state.dropTop) restHypothesis
      · exact andThen_withDepth (otherwiseHypothesis state.dropTop) restHypothesis

theorem flatRun_depth {script : Structured} {finished : Bool} {after : ScriptState}
    (returns : script.flatRun env state = .ok (finished, after)) :
    after.ifStatementDepth = state.ifStatementDepth := by
  have same : script.flatRun env (state.withDepth state.ifStatementDepth) = _ :=
    flatRun_withDepth script state state.ifStatementDepth
  rw [ScriptState.withDepth_self, returns] at same
  have kept : after = after.withDepth state.ifStatementDepth :=
    congrArg Prod.snd (Exec.ok.inj same)
  rw [kept, ScriptState.withDepth_depth]

/-- A property of the states a run at another depth ends in. -/
theorem forall_result_withDepth {run run' : Exec (Bool × ScriptState)} {depth : Int}
    {property : ScriptState → Prop}
    (shifted : run' = (run >>= fun result => pure (result.1, result.2.withDepth depth)))
    (holds : ∀ after, run = .ok (true, after) → property (after.withDepth depth))
    (after : ScriptState) (returns : run' = .ok (true, after)) : property after := by
  rw [shifted] at returns
  obtain ⟨⟨finished, before⟩, runs, converted⟩ := bind_eq_ok.1 returns
  cases converted
  exact holds before runs

/-- Whether conditions are met does not depend on the depth. -/
theorem ready_withDepth {script : Structured} (depth : Int) (ready : script.Ready env state) :
    script.Ready env (state.withDepth depth) := by
  induction script generalizing state with
  | done => trivial
  | word op ordinary rest inductionHypothesis =>
      exact forall_result_withDepth (runWord_withDepth ordinary depth) fun after runs =>
        inductionHypothesis (ready after runs)
  | zero rest inductionHypothesis => exact inductionHypothesis ready
  | push content rest inductionHypothesis => exact inductionHypothesis ready
  | cond isNotif body rest bodyHypothesis restHypothesis =>
      have same : topHolds (state.withDepth depth) = topHolds state := rfl
      refine ⟨ready.1, ?_⟩
      have selected := ready.2
      rw [same]
      split_ifs at selected ⊢ with taken
      · obtain ⟨nonempty, bodyReady, restReady⟩ := selected
        refine ⟨nonempty, bodyHypothesis bodyReady, ?_⟩
        exact forall_result_withDepth (flatRun_withDepth body state.dropTop depth)
          fun after runs => restHypothesis (restReady after runs)
      · exact restHypothesis selected
  | condElse isNotif body otherwise rest bodyHypothesis otherwiseHypothesis restHypothesis =>
      have same : topHolds (state.withDepth depth) = topHolds state := rfl
      refine ⟨ready.1, ?_⟩
      have selected := ready.2
      rw [same]
      split_ifs at selected ⊢ with taken
      · obtain ⟨nonempty, bodyReady, restReady⟩ := selected
        refine ⟨nonempty, bodyHypothesis bodyReady, ?_⟩
        exact forall_result_withDepth (flatRun_withDepth body state.dropTop depth)
          fun after runs => restHypothesis (restReady after runs)
      · obtain ⟨nonempty, otherwiseReady, restReady⟩ := selected
        refine ⟨nonempty, otherwiseHypothesis otherwiseReady, ?_⟩
        exact forall_result_withDepth (flatRun_withDepth otherwise state.dropTop depth)
          fun after runs => restHypothesis (restReady after runs)

/-! ## Conditionals -/

/-- A conditional that finds a boolean or a small integer goes by its truth. -/
theorem scriptsVerify_condition {sdata : ScriptData} {below : List (Option ScriptData)}
    (top : state.items = some sdata :: below) (condition : IsCondition sdata) :
    scriptsVerify state = .ok (if topHolds state then 0 else -1, state.dropTop) := by
  rw [scriptsVerify, ScriptState.pop_cons top, topHolds, top]
  cases condition with
  | boolean value isStatic => cases value <;> rfl
  | @smallInteger value range =>
      simp only [isTrueItem, satoshiScriptDataNewUint8, ScriptData.b, List.headD_cons,
        Exec.ok_bind, Exec.pure_eq, ne_eq, toInt8_eq_zero]
      rfl

/-- The choice at a conditional with a condition on top and a matching `OP_ENDIF`. -/
theorem chooseBranch_of_scan (isNotif : Bool) {sdata : ScriptData}
    {below : List (Option ScriptData)} {pElse : Option Nat} {pEndif : Nat}
    (inRange : 0 ≤ state.ifStatementDepth ∧ state.ifStatementDepth < maxIfStatementDepth)
    (top : state.items = some sdata :: below) (condition : IsCondition sdata)
    (scanned : scanBranches p 0 0 none = some (pElse, pEndif)) :
    chooseBranch isNotif p state.deeper =
      .ok (match selectBranch (isNotif != topHolds state) pElse pEndif with
        | none => .skip pEndif
        | some (start, length) => .branch start length pEndif, state.deeper.dropTop) := by
  have inside : ¬ (maxIfStatementDepth < state.deeper.ifStatementDepth ∨
      state.deeper.ifStatementDepth < 1) := by
    rw [ScriptState.deeper, ScriptState.withDepth_depth]
    omega
  have verifies : scriptsVerify state.deeper =
      .ok (if topHolds state then 0 else -1, state.deeper.dropTop) :=
    scriptsVerify_condition top condition
  have verdict : decide ((if topHolds state then 0 else -1 : Int) = 0) = topHolds state := by
    cases topHolds state <;> rfl
  rw [chooseBranch, if_neg inside, verifies, Exec.ok_bind]
  simp only [scanned, verdict]
  cases selectBranch (isNotif != topHolds state) pElse pEndif with
  | none => rfl
  | some branch => rfl

/-- A skipped conditional has popped its condition. -/
theorem skipped_state (state : ScriptState) :
    state.deeper.dropTop.withDepth (state.deeper.dropTop.ifStatementDepth - 1) = state.dropTop := by
  have depth : state.deeper.dropTop.ifStatementDepth - 1 = state.dropTop.ifStatementDepth :=
    Int.add_sub_cancel _ _
  rw [depth]
  rfl

/-- The same outcome, and up to the depth of a refused run the same state. -/
def SameUpToDepth (left right : Bool × ScriptState) : Prop :=
  left.1 = right.1 ∧ left.2.withDepth 0 = right.2.withDepth 0 ∧ (left.1 = true → left.2 = right.2)

/-- A conditional runs the branch it selects and goes on after its `OP_ENDIF`. -/
theorem run_selected {isNotif : Bool} {start length pEndif : Nat} {branch rest : Structured}
    (notTxin : type ≠ .txin) (depth : 0 ≤ state.ifStatementDepth)
    (chosen : chooseBranch isNotif p state.deeper =
      .ok (.branch start length pEndif, state.deeper.dropTop))
    (bytes : (p.drop start).take length = branch.encode) (nonempty : branch.encode ≠ [])
    (after : p.drop pEndif = rest.encode)
    (branchRuns : ∀ branchOrigin, Related SameUpToDepth
      ((ControlPoint.mk .unknown branchOrigin branch.encode state.deeper.dropTop).run env)
      (branch.flatRun env state.deeper.dropTop))
    (restRuns : ∀ restOrigin closed, branch.flatRun env state.dropTop = .ok (true, closed) →
      closed.ifStatementDepth = state.ifStatementDepth → Related SameUpToDepth
        ((ControlPoint.mk type restOrigin rest.encode closed).run env) (rest.flatRun env closed)) :
    Related SameUpToDepth
      ((ControlPoint.mk type origin (conditionalByte isNotif :: p) state).run env)
      (andThen (branch.flatRun env state.dropTop) (rest.flatRun env)) := by
  have positive : 0 < length := by
    rcases Nat.eq_zero_or_pos length with rfl | positive
    · exact absurd (bytes.symm.trans List.take_zero) nonempty
    · exact positive
  have shifted : branch.flatRun env (state.dropTop.withDepth (state.ifStatementDepth + 1)) = _ :=
    flatRun_withDepth branch state.dropTop (state.ifStatementDepth + 1)
  have inside : state.dropTop.withDepth (state.ifStatementDepth + 1) = state.deeper.dropTop := rfl
  rw [inside] at shifted
  rw [shifted] at branchRuns
  rw [run_enter notTxin (conditionalOf_conditionalByte isNotif) chosen positive,
    ControlPoint.enter, bytes]
  apply Related.bind (branchRuns _).of_map
  rintro ⟨finished, closed⟩ ⟨finished', closed'⟩ ⟨⟨same, upToDepth, sameState⟩, flat⟩
  have sameDepth := flatRun_depth flat
  rw [ScriptState.dropTop_depth] at sameDepth
  change finished = finished' at same
  subst same
  cases finished with
  | false => exact ⟨rfl, upToDepth, fun impossible => absurd impossible Bool.false_ne_true⟩
  | true =>
      have closes : closed = closed'.withDepth (state.ifStatementDepth + 1) := sameState rfl
      subst closes
      have restored : (closed'.withDepth (state.ifStatementDepth + 1)).withDepth
          (state.ifStatementDepth + 1 - 1) = closed' := by
        rw [ScriptState.withDepth_withDepth, Int.add_sub_cancel, ← sameDepth,
          ScriptState.withDepth_self]
      have stillOpen :
          0 ≤ (closed'.withDepth (state.ifStatementDepth + 1)).ifStatementDepth - 1 := by
        rw [ScriptState.withDepth_depth]
        omega
      simp only [if_true]
      rw [Exec.assert_of stillOpen, Exec.ok_bind, ScriptState.withDepth_depth, restored,
        ControlPoint.next, after]
      exact restRuns _ closed' flat sameDepth

/-- The bytes between a conditional and the next script, found by their offsets. -/
theorem take_drop_branch (before branch after : Bytes) (opcode : UInt8) :
    ((before ++ (branch ++ opcode :: after)).drop before.length).take branch.length = branch ∧
      (before ++ (branch ++ opcode :: after)).drop (before.length + branch.length + 1) = after := by
  constructor
  · rw [List.drop_left, List.take_left]
  · rw [Nat.add_assoc, ← List.drop_drop, List.drop_left, ← List.drop_drop, List.drop_left]
    rfl

/-- The opcode loop computes the branch-by-branch execution of a structured script. -/
theorem run_structured (script : Structured) (notTxin : type ≠ .txin)
    (nonnegative : 0 ≤ state.ifStatementDepth)
    (bounded : state.ifStatementDepth + script.nesting ≤ maxIfStatementDepth)
    (ready : script.Ready env state) :
    Related SameUpToDepth ((ControlPoint.mk type origin script.encode state).run env)
      (script.flatRun env state) := by
  induction script generalizing type origin state with
  | done => exact ⟨rfl, rfl, fun _ => rfl⟩
  | word op ordinary rest inductionHypothesis =>
      rw [Structured.encode, Structured.flatRun, ControlPoint.run, runScript_cons,
        parseByte_ordinary ordinary notTxin, bind_assoc]
      apply Related.same_bind
      rintro ⟨finished, after⟩ runs
      cases finished with
      | false => exact ⟨rfl, rfl, fun impossible => absurd impossible Bool.false_ne_true⟩
      | true =>
          have sameDepth : after.ifStatementDepth = state.ifStatementDepth :=
            runWord_depth ordinary runs
          exact inductionHypothesis notTxin (by rw [sameDepth]; exact nonnegative)
            (by rw [sameDepth]; exact bounded) (ready after runs)
  | zero rest inductionHypothesis =>
      exact inductionHypothesis notTxin nonnegative bounded ready
  | push content rest inductionHypothesis =>
      rw [Structured.encode, Structured.flatRun]
      by_cases long : content.form = .pushdata4
      · rw [if_pos long, run_longPush content long]
        rfl
      · obtain ⟨op, field, encoded, passes⟩ := parseByte_dataPush content long
          (scriptsParseUnknown env)
        rw [if_neg long, encoded, List.cons_append, run_next passes, ControlPoint.next,
          List.drop_left]
        exact inductionHypothesis notTxin nonnegative bounded ready
  | cond isNotif body rest bodyHypothesis restHypothesis =>
      obtain ⟨⟨sdata, below, top, condition⟩, selected⟩ := ready
      rw [Structured.nesting] at bounded
      have inRange : 0 ≤ state.ifStatementDepth ∧ state.ifStatementDepth < maxIfStatementDepth := by
        omega
      have deeperDepth : state.deeper.dropTop.ifStatementDepth = state.ifStatementDepth + 1 := rfl
      have deeperNonnegative : 0 ≤ state.deeper.dropTop.ifStatementDepth := by
        rw [deeperDepth]
        omega
      have scanned : scanBranches (body.encode ++ 0x68 :: rest.encode) 0 0 none =
          some (none, body.encode.length + 1) := by
        rw [scanBranches_structured, scanBranches_endif, if_pos rfl, Nat.zero_add]
      have chosen := chooseBranch_of_scan isNotif inRange top condition scanned
      obtain ⟨branchBytes, restBytes⟩ := take_drop_branch [] body.encode rest.encode 0x68
      rw [List.nil_append] at branchBytes
      rw [List.nil_append, List.length_nil, Nat.zero_add] at restBytes
      rw [Structured.encode, Structured.flatRun]
      by_cases taken : (isNotif != topHolds state) = true
      · rw [if_pos taken] at selected ⊢
        obtain ⟨nonempty, bodyReady, restReady⟩ := selected
        rw [taken] at chosen
        apply run_selected notTxin nonnegative chosen branchBytes nonempty restBytes
        · intro branchOrigin
          exact bodyHypothesis (by decide) deeperNonnegative (by rw [deeperDepth]; omega)
            (ready_withDepth _ bodyReady)
        · intro restOrigin closed flat sameDepth
          exact restHypothesis notTxin (by omega) (by omega) (restReady closed flat)
      · rw [if_neg taken] at selected ⊢
        rw [Bool.not_eq_true] at taken
        rw [taken] at chosen
        rw [run_next (parseByte_skip notTxin (conditionalOf_conditionalByte isNotif) chosen _),
          ControlPoint.next, restBytes, skipped_state]
        exact restHypothesis notTxin nonnegative (by rw [ScriptState.dropTop_depth]; omega)
          selected
  | condElse isNotif body otherwise rest bodyHypothesis otherwiseHypothesis restHypothesis =>
      obtain ⟨⟨sdata, below, top, condition⟩, selected⟩ := ready
      rw [Structured.nesting] at bounded
      have inRange : 0 ≤ state.ifStatementDepth ∧ state.ifStatementDepth < maxIfStatementDepth := by
        omega
      have deeperDepth : state.deeper.dropTop.ifStatementDepth = state.ifStatementDepth + 1 := rfl
      have deeperNonnegative : 0 ≤ state.deeper.dropTop.ifStatementDepth := by
        rw [deeperDepth]
        omega
      have scanned : scanBranches
          (body.encode ++ 0x67 :: (otherwise.encode ++ 0x68 :: rest.encode)) 0 0 none =
          some (some (body.encode.length + 1),
            body.encode.length + 1 + otherwise.encode.length + 1) := by
        rw [scanBranches_structured, scanBranches_else, if_pos rfl, scanBranches_structured,
          scanBranches_endif, if_pos rfl, Nat.zero_add]
      have chosen := chooseBranch_of_scan isNotif inRange top condition scanned
      obtain ⟨bodyBytes, -⟩ := take_drop_branch [] body.encode
        (otherwise.encode ++ 0x68 :: rest.encode) 0x67
      obtain ⟨otherwiseBytes, restBytes⟩ := take_drop_branch (body.encode ++ [0x67])
        otherwise.encode rest.encode 0x68
      rw [List.append_assoc, List.singleton_append, List.length_append, List.length_singleton]
        at otherwiseBytes restBytes
      rw [Structured.encode, Structured.flatRun]
      by_cases taken : (isNotif != topHolds state) = true
      · rw [if_pos taken] at selected ⊢
        obtain ⟨nonempty, bodyReady, restReady⟩ := selected
        rw [taken] at chosen
        apply run_selected notTxin nonnegative chosen bodyBytes nonempty restBytes
        · intro branchOrigin
          exact bodyHypothesis (by decide) deeperNonnegative (by rw [deeperDepth]; omega)
            (ready_withDepth _ bodyReady)
        · intro restOrigin closed flat sameDepth
          exact restHypothesis notTxin (by omega) (by omega) (restReady closed flat)
      · rw [if_neg taken] at selected ⊢
        obtain ⟨nonempty, otherwiseReady, restReady⟩ := selected
        rw [Bool.not_eq_true] at taken
        rw [taken] at chosen
        have width : body.encode.length + 1 + otherwise.encode.length + 1 - 1 -
            (body.encode.length + 1) = otherwise.encode.length := by omega
        simp only [selectBranch, Bool.false_eq_true, if_false, width] at chosen
        apply run_selected notTxin nonnegative chosen otherwiseBytes nonempty restBytes
        · intro branchOrigin
          exact otherwiseHypothesis (by decide) deeperNonnegative (by rw [deeperDepth]; omega)
            (ready_withDepth _ otherwiseReady)
        · intro restOrigin closed flat sameDepth
          exact restHypothesis notTxin (by omega) (by omega) (restReady closed flat)

end BitcoinClib.Script
