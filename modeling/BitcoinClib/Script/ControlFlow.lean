import BitcoinClib.Script.Relation

/-!
Contract: the opcode loop without fuel, and its conditionals.

Owns:
- that the result of the opcode loop and of the scan for `OP_ENDIF` does not depend on
  the fuel, once there is enough of it (`runScript`, `scanBranches`);
- `chooseBranch`, what a conditional settles before it runs anything;
- that the other words neither call back into the parser nor see the conditional depth.

Does not own: what a word does to the stack.
-/

namespace BitcoinClib.Script

open BitcoinClib.Lib
open BitcoinClib.Lib.Exec
open BitcoinClib.Types
open BitcoinClib.Crypto
open BitcoinClib.Tx

/-! ## The scan for `OP_ENDIF` -/

/-- The scan with enough fuel. -/
def scanBranches (rest : Bytes) (position level : Nat) (pElse : Option Nat) :
    Option (Option Nat × Nat) :=
  scanConditional (rest.length + 1) rest position level pElse

theorem scanConditional_enough {fuel : Nat} {rest : Bytes} {position level : Nat}
    {pElse : Option Nat} (enough : rest.length < fuel) :
    scanConditional fuel rest position level pElse = scanBranches rest position level pElse := by
  suffices anyFuel : ∀ fuel fuel' rest position level pElse, rest.length < fuel →
      rest.length < fuel' → scanConditional fuel rest position level pElse =
        scanConditional fuel' rest position level pElse by
    exact anyFuel _ _ _ _ _ _ enough (Nat.lt_succ_self _)
  intro fuel
  induction fuel with
  | zero =>
      intro fuel' rest position level pElse enough
      exact absurd enough (Nat.not_lt_zero _)
  | succ fuel inductionHypothesis =>
      intro fuel' rest position level pElse enough enough'
      obtain ⟨fuel', rfl⟩ : ∃ previous, fuel' = previous + 1 := ⟨fuel' - 1, by omega⟩
      cases rest with
      | nil => rfl
      | cons op p =>
          rw [List.length_cons] at enough enough'
          have onwards : ∀ count position level pElse,
              scanConditional fuel (p.drop count) position level pElse =
                scanConditional fuel' (p.drop count) position level pElse := by
            intro count position level pElse
            have shorter : (p.drop count).length ≤ p.length := by simp
            exact inductionHypothesis _ _ _ _ _ (by omega) (by omega)
          have next := onwards 0
          rw [List.drop_zero] at next
          simp only [scanConditional, next, onwards]

theorem scanBranches_cons (op : UInt8) (p : Bytes) (position level : Nat) (pElse : Option Nat) :
    scanBranches (op :: p) position level pElse =
      if op = 0x63 ∨ op = 0x64 then scanBranches p (position + 1) (level + 1) pElse
      else if op = 0x67 then
        scanBranches p (position + 1) level (if level = 0 then some (position + 1) else pElse)
      else if op = 0x68 then
        if level = 0 then some (pElse, position + 1)
        else scanBranches p (position + 1) (level - 1) pElse
      else if op ≤ 0x4e then
        (pushDataSize op p).bind fun sizes =>
          scanBranches (p.drop (sizes.2 + sizes.1)) (position + 1 + sizes.2 + sizes.1) level pElse
      else scanBranches p (position + 1) level pElse := by
  have onwards : ∀ count position level pElse,
      scanConditional (p.length + 1) (p.drop count) position level pElse =
        scanBranches (p.drop count) position level pElse := fun count _ _ _ =>
    scanConditional_enough (by rw [List.length_drop]; omega)
  have next := onwards 0
  rw [List.drop_zero] at next
  rw [scanBranches, List.length_cons, scanConditional]
  simp only [next, onwards]
  cases pushDataSize op p <;> rfl

theorem scanBranches_nil (position level : Nat) (pElse : Option Nat) :
    scanBranches [] position level pElse = none := rfl

/-- The offsets found lie behind the starting position and inside the bytes scanned. -/
theorem scanBranches_bounds {rest : Bytes} {position level pEndif : Nat}
    {pElse found : Option Nat}
    (scanned : scanBranches rest position level pElse = some (found, pEndif)) :
    position < pEndif ∧ pEndif ≤ position + rest.length ∧
      (found = pElse ∨ ∃ elseAt, found = some elseAt ∧ position < elseAt ∧ elseAt < pEndif) := by
  induction length : rest.length using Nat.strong_induction_on
    generalizing rest position level pElse with
  | _ length inductionHypothesis =>
      subst length
      cases rest with
      | nil => cases scanned
      | cons op p =>
          have step : ∀ count position' {level' pElse'}, position < position' →
              position' = position + 1 + count → count ≤ p.length →
              scanBranches (p.drop count) position' level' pElse' = some (found, pEndif) →
              position' < pEndif ∧ pEndif ≤ position + (op :: p).length ∧
                (found = pElse' ∨
                  ∃ elseAt, found = some elseAt ∧ position < elseAt ∧ elseAt < pEndif) := by
            intro count position' level' pElse' later here inside scanned
            have dropped : (p.drop count).length = p.length - count := List.length_drop
            obtain ⟨behind, within, origin⟩ := inductionHypothesis _
              (by rw [List.length_cons]; omega) scanned rfl
            refine ⟨behind, by rw [List.length_cons]; omega, ?_⟩
            rcases origin with same | ⟨elseAt, same, after, before⟩
            · exact .inl same
            · exact .inr ⟨elseAt, same, by omega, before⟩
          have next : ∀ {level' pElse'},
              scanBranches p (position + 1) level' pElse' = some (found, pEndif) →
              position + 1 < pEndif ∧ pEndif ≤ position + (op :: p).length ∧
                (found = pElse' ∨
                  ∃ elseAt, found = some elseAt ∧ position < elseAt ∧ elseAt < pEndif) :=
            fun scanned => step 0 _ (Nat.lt_succ_self _) rfl (Nat.zero_le _) scanned
          rw [scanBranches_cons] at scanned
          split_ifs at scanned with conditional isElse top isEndif closes push
          · obtain ⟨behind, within, origin⟩ := next scanned
            exact ⟨by omega, within, origin⟩
          · obtain ⟨behind, within, origin⟩ := next scanned
            refine ⟨by omega, within, .inr ?_⟩
            rcases origin with same | later
            · exact ⟨position + 1, same, by omega, behind⟩
            · exact later
          · obtain ⟨behind, within, origin⟩ := next scanned
            exact ⟨by omega, within, origin⟩
          · cases scanned
            exact ⟨by omega, by rw [List.length_cons]; omega, .inl rfl⟩
          · obtain ⟨behind, within, origin⟩ := next scanned
            exact ⟨by omega, within, origin⟩
          · cases sizes : pushDataSize op p with
            | none =>
                rw [sizes] at scanned
                cases scanned
            | some size =>
                obtain ⟨dataSize, offset⟩ := size
                rw [sizes, Option.bind_some] at scanned
                by_cases inside : offset + dataSize ≤ p.length
                · obtain ⟨behind, within, origin⟩ :=
                    step (offset + dataSize) _ (by omega) (by omega) inside scanned
                  exact ⟨by omega, within, origin⟩
                · rw [List.drop_eq_nil_of_le (by omega), scanBranches_nil] at scanned
                  cases scanned
          · obtain ⟨behind, within, origin⟩ := next scanned
            exact ⟨by omega, within, origin⟩

/-- The selected branch lies before `OP_ENDIF`. -/
theorem selectBranch_inside {p : Bytes} {matched : Bool} {found : Option Nat}
    {pEndif start length : Nat} (scanned : scanBranches p 0 0 none = some (found, pEndif))
    (selected : selectBranch matched found pEndif = some (start, length)) :
    start + length < pEndif ∧ pEndif ≤ p.length := by
  obtain ⟨behind, within, origin⟩ := scanBranches_bounds scanned
  unfold selectBranch at selected
  rcases origin with rfl | ⟨elseAt, rfl, after, before⟩
  · split_ifs at selected
    simp only [Option.some.injEq, Prod.mk.injEq] at selected
    omega
  · split_ifs at selected
    all_goals
      simp only [Option.some.injEq, Prod.mk.injEq] at selected
      omega

/-! ## Runs without fuel -/

variable {env : ScriptEnv} {type : TxScriptType} {origin : Option Nat} {op : UInt8} {p : Bytes}
  {state : ScriptState}

/-- Callbacks that agree on scripts no longer than the rest of the script. -/
theorem parseOpIfNotif_congr {parse parse' : ParseCall} (isNotif : Bool) (payload : Bytes)
    (agree : ∀ origin branch state, branch.length ≤ payload.length →
      parse origin branch state = parse' origin branch state) :
    parseOpIfNotif parse isNotif origin payload state =
      parseOpIfNotif parse' isNotif origin payload state := by
  unfold parseOpIfNotif
  split_ifs
  · rfl
  · congr 1
    funext verification
    obtain ⟨rc, verified⟩ := verification
    cases scanConditional (payload.length + 1) payload 0 0 none with
    | none => rfl
    | some offsets =>
        obtain ⟨pElse, pEndif⟩ := offsets
        simp only
        cases selectBranch (isNotif != decide (rc = 0)) pElse pEndif with
        | none => rfl
        | some branch =>
            obtain ⟨start, length⟩ := branch
            simp only
            rw [agree _ _ _ (by simp)]

theorem parseByte_congr {parse parse' : ParseCall}
    (agree : ∀ origin branch state, branch.length ≤ p.length →
      parse origin branch state = parse' origin branch state) :
    parseByte parse env type op origin p state = parseByte parse' env type op origin p state := by
  unfold parseByte
  split_ifs
  · rfl
  · rfl
  · rfl
  · rfl
  · rfl
  · cases ScriptOpcode.ofByte op with
    | «if» => exact parseOpIfNotif_congr false p agree
    | notif => exact parseOpIfNotif_congr true p agree
    | _ => rfl

/-- A script run to its end or to a refusal. -/
def runScript (env : ScriptEnv) (type : TxScriptType) (origin : Option Nat) (p : Bytes)
    (state : ScriptState) : Exec (Bool × ScriptState) :=
  parseLoop env type (p.length + 1) origin p state

theorem parseLoop_enough {fuel : Nat} (enough : p.length < fuel) :
    parseLoop env type fuel origin p state = runScript env type origin p state := by
  suffices anyFuel : ∀ fuel fuel' type origin p state, p.length < fuel → p.length < fuel' →
      parseLoop env type fuel origin p state = parseLoop env type fuel' origin p state by
    exact anyFuel _ _ _ _ _ _ enough (Nat.lt_succ_self _)
  intro fuel
  induction fuel with
  | zero =>
      intro fuel' type origin p state enough
      exact absurd enough (Nat.not_lt_zero _)
  | succ fuel inductionHypothesis =>
      intro fuel' type origin p state enough enough'
      obtain ⟨fuel', rfl⟩ : ∃ previous, fuel' = previous + 1 := ⟨fuel' - 1, by omega⟩
      cases p with
      | nil => rfl
      | cons op p =>
          rw [List.length_cons] at enough enough'
          unfold parseLoop
          apply Exec.bind_congr_of
          · apply parseByte_congr
            intro origin branch state shorter
            rw [inductionHypothesis fuel' .unknown origin branch state (by omega) (by omega)]
          · rintro ⟨consumed, after⟩
            cases consumed with
            | none => rfl
            | some consumed =>
                have shorter : (p.drop consumed).length ≤ p.length := by simp
                exact inductionHypothesis _ _ _ _ _ (by omega) (by omega)

theorem scriptsParseUnknown_eq :
    scriptsParseUnknown env origin p state = (do
      Exec.assert (p ≠ [])
      let (finished, state) ← runScript env .unknown origin p state
      return (parsedLength p finished, state)) := rfl

/-- The loop without fuel: a word, then the rest of the script. -/
theorem runScript_cons :
    runScript env type origin (op :: p) state = (do
      let (consumed, after) ←
        parseByte (scriptsParseUnknown env) env type op (origin.map (· + 1)) p state
      match consumed with
      | none => return (false, after)
      | some consumed =>
          runScript env type (origin.map (· + 1 + consumed)) (p.drop consumed) after) := by
  rw [runScript, List.length_cons, parseLoop]
  apply Exec.bind_congr_of
  · apply parseByte_congr
    intro origin branch state shorter
    rw [parseLoop_enough (Nat.lt_succ_of_le shorter), ← scriptsParseUnknown_eq]
  · rintro ⟨consumed, after⟩
    cases consumed with
    | none => rfl
    | some consumed => exact parseLoop_enough (by rw [List.length_drop]; omega)

/-! ## Conditionals -/

/-- `false` for `OP_IF`, `true` for `OP_NOTIF`. -/
def conditionalOf (op : UInt8) : Option Bool :=
  if op = 0x63 then some false else if op = 0x64 then some true else none

namespace ScriptState

/-- The state with another value of `priv->if_statement_depth`. -/
def withDepth (state : ScriptState) (depth : Int) : ScriptState :=
  { state with ifStatementDepth := depth }

/-- `++priv->if_statement_depth` -/
def deeper (state : ScriptState) : ScriptState := state.withDepth (state.ifStatementDepth + 1)

end ScriptState

/-- What `parse_op_if_notif` settles before it runs anything: to fail, to go on after
`OP_ENDIF`, or to run a branch. -/
inductive Choice where
  | refuse
  | skip (pEndif : Nat)
  | branch (start length pEndif : Nat)
deriving DecidableEq, Repr

/-- The first part of `parse_op_if_notif`, up to the call of the parser. -/
def chooseBranch (isNotif : Bool) (p : Bytes) (state : ScriptState) :
    Exec (Choice × ScriptState) :=
  if maxIfStatementDepth < state.ifStatementDepth ∨ state.ifStatementDepth < 1 then
    .ok (.refuse, state)
  else do
    let (rc, state) ← scriptsVerify state
    match scanBranches p 0 0 none with
    | none => return (.refuse, state)
    | some (pElse, pEndif) =>
      match selectBranch (isNotif != decide (rc = 0)) pElse pEndif with
      | none => return (.skip pEndif, state)
      | some (start, length) => return (.branch start length pEndif, state)

/-- The end of `parse_op_if_notif`. -/
def closeConditional (pEndif : Nat) (state : ScriptState) : Exec (Option Nat × ScriptState) := do
  Exec.assert (0 ≤ state.ifStatementDepth - 1)
  return (some pEndif, state.withDepth (state.ifStatementDepth - 1))

/-- The rest of `parse_op_if_notif`, from its choice on. -/
def followChoice (parse : ParseCall) (origin : Option Nat) (p : Bytes)
    (chosen : Choice × ScriptState) : Exec (Option Nat × ScriptState) :=
  match chosen with
  | (.refuse, state) => .ok (none, state)
  | (.skip pEndif, state) => closeConditional pEndif state
  | (.branch start length pEndif, state) => do
      let (cb, state) ← parse (origin.map (· + start)) ((p.drop start).take length) state
      if cb ≠ length then return (none, state)
      else closeConditional pEndif state

theorem parseOpIfNotif_eq (parse : ParseCall) (isNotif : Bool) :
    parseOpIfNotif parse isNotif origin p state =
      (chooseBranch isNotif p state >>= followChoice parse origin p) := by
  unfold parseOpIfNotif chooseBranch
  split_ifs
  · rfl
  · rw [bind_assoc]
    apply Exec.bind_congr_of rfl
    rintro ⟨rc, verified⟩
    rw [scanBranches]
    cases scanConditional (p.length + 1) p 0 0 none with
    | none => rfl
    | some offsets =>
        obtain ⟨pElse, pEndif⟩ := offsets
        simp only
        cases selectBranch (isNotif != decide (rc = 0)) pElse pEndif with
        | none => rfl
        | some branch => rfl

theorem parseByte_conditional {isNotif : Bool} (conditional : conditionalOf op = some isNotif)
    (notTxin : type ≠ .txin) (parse : ParseCall) :
    parseByte parse env type op origin p state =
      (chooseBranch isNotif p state.deeper >>= followChoice parse origin p) := by
  rw [← parseOpIfNotif_eq]
  unfold conditionalOf at conditional
  split_ifs at conditional with isIf isNotif'
  · cases conditional
    subst isIf
    simp only [parseByte, if_neg notTxin]
    rfl
  · cases conditional
    subst isNotif'
    simp only [parseByte, if_neg notTxin]
    rfl

theorem isConditional_ofByte (op : UInt8) :
    (ScriptOpcode.ofByte op).isConditional = (conditionalOf op).isSome := by
  revert op
  exact forall_byte (by decide +kernel)

/-! ## Words and the conditional depth -/

namespace ScriptState

@[simp] theorem withDepth_self (state : ScriptState) :
    state.withDepth state.ifStatementDepth = state := rfl

@[simp] theorem withDepth_depth (state : ScriptState) (depth : Int) :
    (state.withDepth depth).ifStatementDepth = depth := rfl

@[simp] theorem withDepth_withDepth (state : ScriptState) (first second : Int) :
    (state.withDepth first).withDepth second = state.withDepth second := rfl

@[simp] theorem withDepth_items (state : ScriptState) (depth : Int) :
    (state.withDepth depth).items = state.items := rfl

@[simp] theorem dropTop_depth (state : ScriptState) :
    state.dropTop.ifStatementDepth = state.ifStatementDepth := rfl

end ScriptState

theorem atDepth_relation (env : ScriptEnv) (depth : Int) :
    WordRelation env fun left right => right = left.withDepth depth where
  mainStack := by
    rintro left right rfl
    rfl
  txin := by
    rintro left right rfl
    rfl
  dropTop := by
    rintro left right rfl
    rfl
  push := by
    rintro left right sdata rfl _
    rfl
  withStartPos := by
    rintro left right rfl position
    rfl
  digest := by
    rintro left right rfl hashType
    unfold getDigest ScriptState.withDepth
    apply Related.same_bind
    rintro ⟨digest, rawtx⟩ _
    exact ⟨rfl, rfl⟩

/-- A word outside conditionals neither reads nor writes the depth. -/
theorem parseByte_withDepth (word : type = .txin ∨ conditionalOf op = none) (parse : ParseCall)
    (depth : Int) :
    parseByte parse env type op origin p (state.withDepth depth) =
      (parseByte parse env type op origin p state >>= fun result =>
        pure (result.1, result.2.withDepth depth)) := by
  apply Related.eq_map (ScriptState.withDepth · depth)
  rw [parseByte, parseByte]
  split_ifs with zero push last txin small
  · exact ⟨rfl, rfl⟩
  · rfl
  · exact parseOpPushData_related (atDepth_relation env depth).toStackRelation op p rfl
  · exact ⟨rfl, rfl⟩
  · exact ⟨rfl, rfl⟩
  · have notConditional : (ScriptOpcode.ofByte op).isConditional = false := by
      rw [isConditional_ofByte, word.resolve_left txin]
      rfl
    exact parseOpcode_word_related (atDepth_relation env depth) notConditional parse parse origin p
      rfl

theorem parseByte_depth {parse : ParseCall} {result : Option Nat × ScriptState}
    (word : type = .txin ∨ conditionalOf op = none)
    (returns : parseByte parse env type op origin p state = .ok result) :
    result.2.ifStatementDepth = state.ifStatementDepth := by
  have same : parseByte parse env type op origin p (state.withDepth state.ifStatementDepth) = _ :=
    parseByte_withDepth word parse state.ifStatementDepth
  rw [ScriptState.withDepth_self, returns] at same
  rw [Exec.ok.inj same]
  rfl

/-- The choice of a branch leaves the depth alone. -/
theorem chooseBranch_frame {isNotif : Bool} {choice : Choice} {after : ScriptState}
    (chosen : chooseBranch isNotif p state = .ok (choice, after)) :
    (choice = .refuse ∧ after = state) ∨
      (1 ≤ state.ifStatementDepth ∧ after = state.dropTop) := by
  unfold chooseBranch at chosen
  split_ifs at chosen with outside
  · cases chosen
    exact .inl ⟨rfl, rfl⟩
  · obtain ⟨⟨rc, verified⟩, verifies, chosen⟩ := bind_eq_ok.1 chosen
    have frame := scriptsVerify_frame verifies
    refine .inr ⟨by omega, ?_⟩
    rw [← frame]
    simp only at chosen
    split at chosen
    · cases chosen
      rfl
    · split at chosen
      · cases chosen
        rfl
      · cases chosen
        rfl

theorem chooseBranch_depth {isNotif : Bool} {choice : Choice} {after : ScriptState}
    (chosen : chooseBranch isNotif p state = .ok (choice, after)) :
    after.ifStatementDepth = state.ifStatementDepth := by
  rcases chooseBranch_frame chosen with ⟨-, rfl⟩ | ⟨-, rfl⟩
  · rfl
  · rfl

/-- The chosen branch lies before `OP_ENDIF`. -/
theorem chooseBranch_inside {isNotif : Bool} {start length pEndif : Nat} {after : ScriptState}
    (chosen : chooseBranch isNotif p state = .ok (.branch start length pEndif, after)) :
    start + length < pEndif ∧ pEndif ≤ p.length := by
  unfold chooseBranch at chosen
  split_ifs at chosen with outside
  · cases chosen
  · obtain ⟨⟨rc, verified⟩, verifies, chosen⟩ := bind_eq_ok.1 chosen
    cases scanned : scanBranches p 0 0 none with
    | none =>
        rw [scanned] at chosen
        cases chosen
    | some offsets =>
        obtain ⟨pElse, scannedEndif⟩ := offsets
        rw [scanned] at chosen
        simp only at chosen
        cases selected : selectBranch (isNotif != decide (rc = 0)) pElse scannedEndif with
        | none =>
            rw [selected] at chosen
            cases chosen
        | some branch =>
            rw [selected] at chosen
            cases chosen
            exact selectBranch_inside scanned selected

end BitcoinClib.Script
