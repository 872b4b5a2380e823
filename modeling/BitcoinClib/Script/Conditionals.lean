import BitcoinClib.Script.Structured

/-!
Contract: the conditionals of a script, closed or not.

Owns:
- `Balanced`, the bytes that the scan of a conditional passes, and `Closed`, that a
  conditional has a matching `OP_ENDIF`;
- that the scan finds `OP_ENDIF` exactly behind closed conditionals;
- `Stray`, the words that cannot be executed because their conditional is missing or open,
  and that reaching one makes `scripts_parse` return `-1`;
- the meaning of structured scripts as a statement about `scripts_parse`.
-/

namespace BitcoinClib.Script

open BitcoinClib.Lib
open BitcoinClib.Lib.Exec
open BitcoinClib.Types
open BitcoinClib.Crypto
open BitcoinClib.Tx

/-! ## Matching `OP_ENDIF` -/

/-- Bytes in which every conditional is closed; `OP_ELSE` is free. -/
inductive Balanced : Bytes → Prop
  | nil : Balanced []
  | word {op : UInt8} {p : Bytes} (above : 0x4e < op) (plain : conditionalOf op = none)
      (notEndif : op ≠ 0x68) (rest : Balanced p) : Balanced (op :: p)
  | zero {p : Bytes} (rest : Balanced p) : Balanced (0 :: p)
  | push (content : DataPush) {p : Bytes} (rest : Balanced p) : Balanced (content.encode ++ p)
  | nested (isNotif : Bool) {body p : Bytes} (inner : Balanced body) (rest : Balanced p) :
      Balanced (conditionalByte isNotif :: (body ++ 0x68 :: p))

/-- The bytes after a conditional contain its `OP_ENDIF`. -/
def Closed (p : Bytes) : Prop := ∃ body rest, Balanced body ∧ p = body ++ 0x68 :: rest

theorem conditionalOf_eq_none {op : UInt8} : conditionalOf op = none ↔ op ≠ 0x63 ∧ op ≠ 0x64 := by
  unfold conditionalOf
  split_ifs with isIf isNotif
  · simp [isIf]
  · simp [isNotif]
  · simp [isIf, isNotif]

/-- The scan passes balanced bytes; it may note an `OP_ELSE`. -/
theorem scanBranches_balanced {body : Bytes} (balanced : Balanced body) (p : Bytes)
    (position level : Nat) (pElse : Option Nat) :
    ∃ pElse', scanBranches (body ++ p) position level pElse =
      scanBranches p (position + body.length) level pElse' := by
  induction balanced generalizing p position level pElse with
  | nil => exact ⟨pElse, rfl⟩
  | @word op rest above plain notEndif balanced inductionHypothesis =>
      obtain ⟨notIf, notNotif⟩ := conditionalOf_eq_none.1 plain
      have shift : position + (op :: rest).length = position + 1 + rest.length := by
        rw [List.length_cons]
        omega
      rw [List.cons_append, scanBranches_cons, if_neg (by simp [notIf, notNotif]), shift]
      by_cases isElse : op = 0x67
      · rw [if_pos isElse]
        exact inductionHypothesis p _ level _
      · rw [if_neg isElse, if_neg notEndif, if_neg (UInt8.not_le.2 above)]
        exact inductionHypothesis p _ level pElse
  | @zero rest balanced inductionHypothesis =>
      have shift : position + (0 :: rest).length = position + 1 + rest.length := by
        rw [List.length_cons]
        omega
      rw [List.cons_append, scanBranches_zero, shift]
      exact inductionHypothesis p _ level pElse
  | @push content rest balanced inductionHypothesis =>
      rw [List.append_assoc, scanBranches_push, List.length_append, ← Nat.add_assoc]
      exact inductionHypothesis p _ level pElse
  | @nested isNotif inner rest innerBalanced restBalanced innerHypothesis restHypothesis =>
      rw [List.cons_append, scanBranches_conditional, List.append_assoc]
      obtain ⟨innerElse, passes⟩ := innerHypothesis (0x68 :: rest ++ p) (position + 1) (level + 1)
        pElse
      rw [passes, List.cons_append, scanBranches_endif, if_neg (Nat.succ_ne_zero _),
        Nat.add_sub_cancel]
      obtain ⟨pElse', restPasses⟩ := restHypothesis p (position + 1 + inner.length + 1) level
        innerElse
      refine ⟨pElse', restPasses.trans ?_⟩
      congr 1
      simp only [List.length_cons, List.length_append]
      omega

/-- A complete push is one of the grammar. -/
theorem exists_dataPush {op : UInt8} {p : Bytes} {dataSize offset : Nat} (nonzero : op ≠ 0)
    (push : op ≤ 0x4e) (announced : pushDataSize op p = some (dataSize, offset))
    (inside : offset + dataSize ≤ p.length) :
    ∃ content : DataPush, op :: p = content.encode ++ p.drop (offset + dataSize) := by
  have split : ∀ width, width = offset → leBytes width (leValue (p.take width)) = p.take width := by
    rintro width rfl
    have whole : (p.take width).length = width := by
      rw [List.length_take]
      omega
    have same := leBytes_leValue (p.take width)
    rwa [whole] at same
  have data : ((p.drop offset).take dataSize).length = dataSize := by
    rw [List.length_take, List.length_drop]
    omega
  have parts : p = p.take offset ++ ((p.drop offset).take dataSize ++ p.drop (offset + dataSize)) := by
    rw [← List.drop_drop, List.take_append_drop, List.take_append_drop]
  have small : ∀ width, width = offset → leValue (p.take width) < 256 ^ width := by
    rintro width rfl
    have bound := leValue_lt (p.take width)
    rwa [List.length_take, Nat.min_eq_left (by omega)] at bound
  unfold pushDataSize at announced
  split_ifs at announced with one short two short' four short''
  · cases announced
    subst one
    refine ⟨⟨.pushdata1, (p.drop 1).take (leValue (p.take 1)), ?_⟩, ?_⟩
    · rw [data]
      exact small 1 rfl
    · rw [DataPush.encode, ScriptWord.encode, data, PushForm.lengthField, split 1 rfl]
      rw [List.cons_append, List.append_assoc, ← parts]
      rfl
  · cases announced
    subst two
    refine ⟨⟨.pushdata2, (p.drop 2).take (leValue (p.take 2)), ?_⟩, ?_⟩
    · rw [data]
      exact small 2 rfl
    · rw [DataPush.encode, ScriptWord.encode, data, PushForm.lengthField, split 2 rfl]
      rw [List.cons_append, List.append_assoc, ← parts]
      rfl
  · cases announced
    subst four
    refine ⟨⟨.pushdata4, (p.drop 4).take (leValue (p.take 4)), ?_⟩, ?_⟩
    · rw [data]
      exact small 4 rfl
    · rw [DataPush.encode, ScriptWord.encode, data, PushForm.lengthField, split 4 rfl]
      rw [List.cons_append, List.append_assoc, ← parts]
      rfl
  · cases announced
    have direct : op.toNat < 0x4c := by
      have bound : op.toNat ≤ 0x4e := UInt8.le_iff_toNat_le.1 push
      have notOne : op.toNat ≠ 0x4c := fun same => one (UInt8.toNat_inj.1 same)
      have notTwo : op.toNat ≠ 0x4d := fun same => two (UInt8.toNat_inj.1 same)
      have notFour : op.toNat ≠ 0x4e := fun same => four (UInt8.toNat_inj.1 same)
      omega
    have positive : 0 < op.toNat := by
      rcases Nat.eq_zero_or_pos op.toNat with zero | positive
      · exact absurd (UInt8.toNat_inj.1 zero) nonzero
      · exact positive
    refine ⟨⟨.direct, (p.drop 0).take op.toNat, ?_⟩, ?_⟩
    · rw [data]
      exact ⟨positive, direct⟩
    · rw [DataPush.encode, ScriptWord.encode, data, PushForm.lengthField, PushForm.opcode,
        UInt8.ofNat_toNat, List.nil_append, List.cons_append]
      rw [List.take_zero, List.nil_append] at parts
      rw [← parts]

/-- A conditional opened some levels up is closed. -/
def ClosedLevels : Nat → Bytes → Prop
  | 0, p => Closed p
  | level + 1, p => ∃ body rest, Balanced body ∧ p = body ++ 0x68 :: rest ∧ ClosedLevels level rest

theorem ClosedLevels.split {level : Nat} {p : Bytes} (closed : ClosedLevels level p) :
    ∃ body rest, Balanced body ∧ p = body ++ 0x68 :: rest ∧
      (∀ body', Balanced body' → ClosedLevels level (body' ++ 0x68 :: rest)) := by
  cases level with
  | zero =>
      obtain ⟨body, rest, balanced, rfl⟩ := closed
      exact ⟨body, rest, balanced, rfl, fun body' balanced' => ⟨body', rest, balanced', rfl⟩⟩
  | succ level =>
      obtain ⟨body, rest, balanced, rfl, others⟩ := closed
      exact ⟨body, rest, balanced, rfl, fun body' balanced' =>
        ⟨body', rest, balanced', rfl, others⟩⟩

/-- Bytes that may stand in front of balanced ones. -/
theorem ClosedLevels.prepend {level : Nat} {p : Bytes} (closed : ClosedLevels level p)
    (leading : Bytes) (absorbs : ∀ body, Balanced body → Balanced (leading ++ body)) :
    ClosedLevels level (leading ++ p) := by
  obtain ⟨body, rest, balanced, rfl, again⟩ := closed.split
  have longer := again _ (absorbs body balanced)
  rwa [List.append_assoc] at longer

/-- Where the scan finds an end, the conditionals are closed. -/
theorem closedLevels_of_scan {p : Bytes} {position level : Nat} {pElse : Option Nat}
    {found : Option Nat × Nat} (scanned : scanBranches p position level pElse = some found) :
    ClosedLevels level p := by
  induction length : p.length using Nat.strong_induction_on
    generalizing p position level pElse with
  | _ length inductionHypothesis =>
      subst length
      cases p with
      | nil => cases scanned
      | cons op p =>
          have next : ∀ {level' position' pElse'},
              scanBranches p position' level' pElse' = some found → ClosedLevels level' p :=
            fun scanned => inductionHypothesis _ (Nat.lt_succ_self _) scanned rfl
          rw [scanBranches_cons] at scanned
          split_ifs at scanned with conditional isElse top isEndif closes push
          · obtain ⟨body, rest, balanced, rfl, others⟩ := next scanned
            obtain ⟨isNotif, rfl⟩ : ∃ isNotif, op = conditionalByte isNotif := by
              rcases conditional with rfl | rfl
              · exact ⟨false, rfl⟩
              · exact ⟨true, rfl⟩
            have longer := others.prepend (conditionalByte isNotif :: (body ++ [0x68]))
              fun later laterBalanced => by
                rw [List.cons_append, List.append_assoc]
                exact .nested isNotif balanced laterBalanced
            rwa [List.cons_append, List.append_assoc] at longer
          · subst isElse
            exact (next scanned).prepend [0x67] fun _ => .word (by decide) rfl (by decide)
          · subst isElse
            exact (next scanned).prepend [0x67] fun _ => .word (by decide) rfl (by decide)
          · subst isEndif closes
            exact ⟨[], p, .nil, rfl⟩
          · subst isEndif
            obtain ⟨below, rfl⟩ := Nat.exists_eq_succ_of_ne_zero closes
            exact ⟨[], p, .nil, rfl, next scanned⟩
          · obtain ⟨⟨dataSize, offset⟩, announced, scanned⟩ := Option.bind_eq_some_iff.1 scanned
            by_cases inside : offset + dataSize ≤ p.length
            · have shorter : (p.drop (offset + dataSize)).length < (op :: p).length := by
                rw [List.length_drop, List.length_cons]
                omega
              have later := inductionHypothesis _ shorter scanned rfl
              by_cases zero : op = 0
              · subst zero
                cases announced
                exact later.prepend [0] fun _ => .zero
              · obtain ⟨content, encoded⟩ := exists_dataPush zero push announced inside
                rw [encoded]
                exact later.prepend content.encode fun _ => .push content
            · rw [List.drop_eq_nil_of_le (by simp only; omega), scanBranches_nil] at scanned
              cases scanned
          · have plain : conditionalOf op = none := by
              rw [conditionalOf_eq_none]
              exact ⟨fun isIf => conditional (.inl isIf), fun isNotif => conditional (.inr isNotif)⟩
            exact (next scanned).prepend [op] fun _ => .word (UInt8.not_le.1 push) plain isEndif

/-- The scan finds the end of a conditional exactly when it is closed. -/
theorem scanBranches_isSome_iff {p : Bytes} :
    (∃ found, scanBranches p 0 0 none = some found) ↔ Closed p := by
  constructor
  · rintro ⟨found, scanned⟩
    exact closedLevels_of_scan scanned
  · rintro ⟨body, rest, balanced, rfl⟩
    obtain ⟨pElse, passes⟩ := scanBranches_balanced balanced (0x68 :: rest) 0 0 none
    exact ⟨_, passes.trans (scanBranches_endif rest _ 0 pElse)⟩

/-! ## Calls -/

/-- A call of `scripts_parse` that runs its payload from a control point: a script without
further processing, or an output script that was not settled by the pre-processing. -/
inductive RunsPayload (env : ScriptEnv) (payload : Bytes) :
    Exec (Int × ScriptState) → ControlPoint → Prop
  | unknown (origin : Option Nat) (state : ScriptState) (nonempty : payload ≠ []) :
      RunsPayload env payload (scriptsParseUnknown env origin payload state)
        ⟨.unknown, origin, payload, state⟩
  | txout {state started : ScriptState} (nonempty : payload ≠ [])
      (preProcessed : txoutScriptsPreProcess env payload state = .ok (.execute, started)) :
      RunsPayload env payload (scriptsParse env .txout payload state)
        ⟨.txout, none, payload, started⟩

variable {env : ScriptEnv} {payload : Bytes} {call : Exec (Int × ScriptState)}
  {start : ControlPoint}

theorem RunsPayload.eq (runs : RunsPayload env payload call start) :
    call = (start.run env >>= fun result => pure (parsedLength payload result.1, result.2)) := by
  cases runs with
  | unknown origin state nonempty =>
      rw [scriptsParseUnknown_eq, Exec.assert_of nonempty, Exec.ok_bind]
      rfl
  | txout nonempty preProcessed =>
      simp only [scriptsParse, scriptsParseTxout, Exec.assert_of nonempty, Exec.ok_bind,
        preProcessed]
      rfl

theorem RunsPayload.notTxin (runs : RunsPayload env payload call start) : start.type ≠ .txin := by
  cases runs with
  | unknown origin state nonempty => exact nofun
  | txout nonempty preProcessed => exact nofun

theorem RunsPayload.rest (runs : RunsPayload env payload call start) : start.rest = payload := by
  cases runs with
  | unknown origin state nonempty => rfl
  | txout nonempty preProcessed => rfl

/-- The call succeeds when the run of its payload comes to an end. -/
theorem RunsPayload.succeeds_iff (runs : RunsPayload env payload call start)
    (after : ScriptState) :
    call = .ok ((payload.length : Int), after) ↔ start.run env = .ok (true, after) := by
  rw [runs.eq]
  constructor
  · intro returns
    obtain ⟨⟨finished, state⟩, run, returns⟩ := bind_eq_ok.1 returns
    rw [run]
    have parts := Exec.ok.inj returns
    have ended := parsedLength_eq_length (congrArg Prod.fst parts)
    have same : state = after := congrArg Prod.snd parts
    rw [← same]
    change finished = true at ended
    rw [ended]
  · intro run
    rw [run]
    rfl

theorem RunsPayload.refused (runs : RunsPayload env payload call start) {after : ScriptState}
    (refused : start.run env = .ok (false, after)) : call = .ok (-1, after) := by
  rw [runs.eq, refused]
  rfl

/-! ## Stray words -/

/-- The next word belongs to a conditional that is not closed, or that was never opened. -/
def Stray : Bytes → Prop
  | [] => False
  | op :: p => (conditionalOf op ≠ none ∧ ¬ Closed p) ∨ op = 0x67 ∨ op = 0x68

theorem eq_conditionalByte {op : UInt8} {isNotif : Bool}
    (conditional : conditionalOf op = some isNotif) : op = conditionalByte isNotif := by
  unfold conditionalOf at conditional
  split_ifs at conditional with isIf isNotifByte
  · cases conditional
    exact isIf
  · cases conditional
    exact isNotifByte

/-- A stray word is refused. -/
theorem stray_refuses {point : ControlPoint} (holds : HoldsVectors point.state)
    (stray : Stray point.rest) : ∃ after, Refuses env point after := by
  obtain ⟨type, origin, rest, state⟩ := point
  cases rest with
  | nil => exact stray.elim
  | cons op p =>
      rcases stray with ⟨conditional, notClosed⟩ | rfl | rfl
      · obtain ⟨isNotif, conditional⟩ := Option.ne_none_iff_exists'.1 conditional
        by_cases txin : type = .txin
        · subst txin
          refine ⟨state, .word (.inl rfl) ?_⟩
          rw [eq_conditionalByte conditional]
          cases isNotif <;> rfl
        · have scanned : scanBranches p 0 0 none = none := by
            rw [Option.eq_none_iff_forall_ne_some]
            intro found scanned
            exact notClosed (scanBranches_isSome_iff.1 ⟨found, scanned⟩)
          have opened : HoldsVectors state.deeper := holds.same rfl
          obtain ⟨rc, verifies⟩ := scriptsVerify_returns opened
          have refused : ∃ after, chooseBranch isNotif p state.deeper = .ok (.refuse, after) := by
            unfold chooseBranch
            split_ifs
            · exact ⟨_, rfl⟩
            · rw [verifies, Exec.ok_bind, scanned]
              exact ⟨_, rfl⟩
          obtain ⟨after, refused⟩ := refused
          exact ⟨after, .conditional txin conditional refused⟩
      · exact ⟨state, .word (.inr rfl) (by cases type <;> rfl)⟩
      · exact ⟨state, .word (.inr rfl) (by cases type <;> rfl)⟩

/-- A call that reaches a stray word fails. -/
theorem RunsPayload.stray (runs : RunsPayload env payload call start) {level : Nat}
    {there : ControlPoint} (holds : HoldsVectors start.state) (leads : Leads env level start there)
    (stray : Stray there.rest) : ∃ after, call = .ok (-1, after) := by
  have reached := leads.keeps (holdsVectors_relation env).toRunRelation holds
  have refuses : ∃ after, Refuses env there after := stray_refuses reached stray
  obtain ⟨after, refuses⟩ := refuses
  exact ⟨after, runs.refused (leads.refused refuses.run)⟩

/-- A structured script does what popping its conditions and running the selected branches does;
any script that reaches a conditional that is not closed, or an `OP_ELSE` or `OP_ENDIF` outside
a conditional, fails. -/
theorem scriptsParse_conditionals (env : ScriptEnv) :
    (∀ (script : Structured) (call : Exec (Int × ScriptState)) (start : ControlPoint),
      RunsPayload env script.encode call start → start.state.ifStatementDepth = 0 →
      script.nesting ≤ 256 → script.Ready env start.state →
      ∀ after, call = .ok ((script.encode.length : Int), after) ↔
        script.flatRun env start.state = .ok (true, after)) ∧
    (∀ (payload : Bytes) (call : Exec (Int × ScriptState)) (start there : ControlPoint)
      (level : Nat), RunsPayload env payload call start → HoldsVectors start.state →
      Leads env level start there → Stray there.rest → ∃ after, call = .ok (-1, after)) := by
  constructor
  · intro script call start runs depth nesting ready after
    rw [runs.succeeds_iff]
    have same : Related SameUpToDepth
        ((ControlPoint.mk start.type start.origin script.encode start.state).run env)
        (script.flatRun env start.state) :=
      run_structured script runs.notTxin (by rw [depth])
        (by rw [depth, Int.zero_add, maxIfStatementDepth]; omega) ready
    rw [← runs.rest] at same
    constructor
    · intro run
      obtain ⟨⟨finished, flat⟩, returns, ended, -, states⟩ := same.ok_left run
      have sameState : after = flat := states rfl
      change true = finished at ended
      rw [returns, ← ended, sameState]
    · intro returns
      obtain ⟨⟨finished, state⟩, run, ended, -, states⟩ := same.symm.ok_left returns
      change finished = true at ended
      subst ended
      have sameState : state = after := states rfl
      rw [← sameState]
      exact run
  · intro payload call start there level runs holds leads stray
    exact runs.stray holds leads stray

/-- `OP_1 OP_IF OP_2 OP_ELSE OP_3 OP_ENDIF` -/
def sampleConditional : Structured :=
  .word 0x51 (by decide)
    (.condElse false (.word 0x52 (by decide) .done) (.word 0x53 (by decide) .done) .done)

/-- Both parts, on a script that selects its first branch and on a lone `OP_ENDIF`. -/
theorem scriptsParse_conditionals_sample :
    (∀ after, scriptsParseUnknown sampleEnv none sampleConditional.encode sampleState =
        .ok ((sampleConditional.encode.length : Int), after) ↔
      sampleConditional.flatRun sampleEnv sampleState = .ok (true, after)) ∧
    ∃ after, scriptsParseUnknown sampleEnv none [0x68] sampleState = .ok (-1, after) := by
  have ready : sampleConditional.Ready sampleEnv sampleState := by
    intro after runs
    have word : runWord sampleEnv 0x51 sampleState =
        .ok (true, sampleState.push (satoshiScriptDataNewUint8 1)) := rfl
    rw [word] at runs
    obtain rfl : sampleState.push (satoshiScriptDataNewUint8 1) = after :=
      congrArg Prod.snd (Exec.ok.inj runs)
    exact ⟨⟨_, _, rfl, .smallInteger (by decide)⟩, by decide, fun _ _ => trivial, fun _ _ => trivial⟩
  have bare : HoldsVectors sampleState := by
    intro sdata present
    cases present
  have selects : RunsPayload sampleEnv sampleConditional.encode
      (scriptsParseUnknown sampleEnv none sampleConditional.encode sampleState)
      ⟨.unknown, none, sampleConditional.encode, sampleState⟩ :=
    .unknown none sampleState (by decide)
  have closes : RunsPayload sampleEnv [0x68]
      (scriptsParseUnknown sampleEnv none [0x68] sampleState)
      ⟨.unknown, none, [0x68], sampleState⟩ := .unknown none sampleState (by decide)
  have selected := (scriptsParse_conditionals sampleEnv).1 sampleConditional _ _ selects rfl
    (by decide) ready
  have refused := (scriptsParse_conditionals sampleEnv).2 _ _ _ _ 0 closes bare (.here _)
    (.inr (.inr rfl))
  exact ⟨selected, refused⟩

end BitcoinClib.Script
