import BitcoinClib.Script.Run

/-!
Contract: pay-to-script-hash spends.

Owns:
- `Spends`, the two parse calls and the verification that accept an input;
- `TxinExecutes` and `TxoutExecutes`, that an item of the input script is handed to the
  parser as a redeem script;
- `P2shSound`, and the exact inputs for which it holds.

`scripts_parse` takes a leading `OP_0` of the input script as the mark of a redeem
script. It is not pushed, and the output script has not been looked at by then.
-/

namespace BitcoinClib.Script

open BitcoinClib.Lib
open BitcoinClib.Types
open BitcoinClib.Crypto
open BitcoinClib.Tx

/-! ## Spends -/

/-- `OP_HASH160 <hash> OP_EQUAL` -/
def p2shScript (hash : Uint160) : Bytes := 0xa9 :: 20 :: (hash.val ++ [0x87])

/-- A context on which nothing has been parsed, for an input whose transaction has just
been read. -/
structure FreshState (state : ScriptState) : Prop where
  stack : state.mainStack = satoshiScriptStackInit
  depth : state.ifStatementDepth = 0
  txin : state.txin = {}

/-- Both scripts parse in full and the final verification succeeds. -/
def Spends (env : ScriptEnv) (scriptSig script : Bytes) (state : ScriptState) : Prop :=
  ∃ afterTxin afterTxout final,
    scriptsParse env .txin scriptSig state = .ok (scriptSig.length, afterTxin) ∧
    scriptsParse env .txout script afterTxin = .ok (script.length, afterTxout) ∧
    scriptsVerify afterTxout = .ok (0, final)

/-- The items pushed by an input script; a leading `OP_0` is a mark and pushes nothing. -/
def inputPushes (scriptSig : Bytes) : Option (List ScriptData) :=
  pushItems (scriptSig.length + 1) (if scriptSig.headD 0 = 0 then scriptSig.drop 1 else scriptSig)

/-- The bytes `OP_HASH160` reads from an item. -/
def itemBytes (sdata : ScriptData) : Bytes :=
  match satoshiScriptDataGet sdata with
  | .ok data => data.getD []
  | _ => []

@[simp] theorem itemBytes_newPtr (data : Bytes) :
    itemBytes (satoshiScriptDataNewPtr data) = data := by
  cases data with
  | nil => rfl
  | cons byte data => simp [itemBytes, satoshiScriptDataGet, satoshiScriptDataNewPtr]

/-! ## Redeem scripts -/

/-- The state in which a redeem script is run: the item is popped and recorded. -/
def redeemState (state : ScriptState) (redeem : Bytes) : ScriptState :=
  { state.dropTop with
    txin := satoshiTxinSetRedeemScripts { state.txin with isP2sh := true } redeem }

/-- The post-processing step finds a redeem script on top of the stack. -/
def HandsToParser (state : ScriptState) (redeem : Bytes) : Prop :=
  ∃ sdata buffer, state.items.head? = some (some sdata) ∧
    ScriptDataType.varstr.value ≤ sdata.type.value ∧ sdata.value = .data buffer ∧
    redeem = (buffer.getD []).take sdata.size ∧ redeem ≠ []

/-- Parsing the input script runs its last item as a redeem script. -/
def TxinExecutes (env : ScriptEnv) (scriptSig : Bytes) (state : ScriptState) (redeem : Bytes) :
    Prop :=
  scriptSig.headD 0 = 0 ∧
    ∃ pushed, parseLoop env .txin (scriptSig.length + 1) none (scriptSig.drop 1) state =
        .ok (true, pushed) ∧
      HandsToParser pushed redeem

/-- A version-0 witness program of 32 bytes. -/
def IsP2wshProgram (script : Bytes) : Prop :=
  script.take 2 = [0, 32] ∧ 34 ≤ script.length

/-- Parsing the output script runs an item of the input script as a redeem script: the post
processing of a witness program finds no witness item on top of it. -/
def TxoutExecutes (env : ScriptEnv) (script : Bytes) (state : ScriptState) (redeem : Bytes) :
    Prop :=
  state.txin.isP2sh = false ∧
    ∃ items, flaggedWitnessItems env = .ok items ∧ (∀ item ∈ items, item.data = []) ∧
      ((script.headD 0 ≤ 16 ∧ IsP2wshProgram script ∧ HandsToParser state redeem) ∨
        (16 < script.headD 0 ∧ items ≠ [] ∧
          ∃ sdata program, state.items.head? = some (some sdata) ∧
            sdata.value = .data (some program) ∧ IsP2wshProgram (program.take sdata.size) ∧
            HandsToParser state.dropTop redeem))

/-- A spend of a P2SH output runs the hashed item over the items below it, and a spend of
another output runs no item of the input script. -/
structure P2shSound (env : ScriptEnv) (scriptSig script : Bytes) (state : ScriptState) :
    Prop where
  redeemed : ∀ hash, script = p2shScript hash → flaggedWitnessItems env = .ok [] →
    Spends env scriptSig script state →
    ∃ items redeem after final,
      inputPushes scriptSig = some (items ++ [satoshiScriptDataNewPtr redeem]) ∧
      hash160 env.crypto redeem = hash ∧
      TxinExecutes env scriptSig state redeem ∧
      scriptsParseUnknown env (some 0) redeem
        (redeemState (state.pushAll (items ++ [satoshiScriptDataNewPtr redeem])) redeem) =
          .ok (redeem.length, after) ∧
      scriptsVerify after = .ok (0, final)
  unredeemed : (∀ hash, script ≠ p2shScript hash) →
    (∀ redeem, ¬ TxinExecutes env scriptSig state redeem) ∧
      ∀ afterTxin, scriptsParse env .txin scriptSig state = .ok (scriptSig.length, afterTxin) →
        ∀ redeem, ¬ TxoutExecutes env script afterTxin redeem

/-- The inputs for which the mark and the output script agree.

A P2SH output must be spent by a marked input script, by pushes that do not end in the
hashed item, or by exactly as many pushes as the stack has free slots (the push of the
hash then overwrites the stack). Another output must be spent by an input script that is
not marked or does not end in data, and must not be a witness script hash that finds data
of the input script on top. -/
structure P2shFaithful (env : ScriptEnv) (scriptSig script : Bytes) (state : ScriptState) :
    Prop where
  marked : ∀ hash, script = p2shScript hash → flaggedWitnessItems env = .ok [] →
    scriptSig.headD 0 ≠ 0 → ∀ items last, inputPushes scriptSig = some (items ++ [last]) →
      (items ++ [last]).length ≠ stackAllocSize → hash160 env.crypto (itemBytes last) ≠ hash
  unmarked : (∀ hash, script ≠ p2shScript hash) →
    if scriptSig.headD 0 = 0 then
      ∀ items redeem, inputPushes scriptSig = some (items ++ [satoshiScriptDataNewPtr redeem]) →
        redeem = []
    else
      ∀ items, inputPushes scriptSig = some items →
        ∀ redeem, ¬ TxoutExecutes env script (state.pushAll items) redeem

/-! ## The P2SH output script -/

theorem parseOpHash_hash160 {env : ScriptEnv} {state : ScriptState} {sdata : ScriptData}
    {rest : List (Option ScriptData)} {data : Option Bytes}
    (items : state.items = some sdata :: rest) (get : satoshiScriptDataGet sdata = .ok data) :
    parseOpHash env .hash160 state =
      .ok (0, state.dropTop.push
        (satoshiScriptDataNewHash160 (hash160 env.crypto (data.getD [])))) := by
  rw [parseOpHash, ScriptState.pop_cons items]
  simp only [get, Exec.ok_bind, hashItem]
  rfl

/-- `OP_EQUAL` on a pushed string of 20 bytes above a computed hash. -/
theorem parseOpEqual_hash160 {state : ScriptState} {pushed : Bytes} {hash : Uint160}
    {rest : List (Option ScriptData)} (width : pushed.length = 20)
    (items : state.items = some (satoshiScriptDataNewPtr pushed) ::
      some (satoshiScriptDataNewHash160 hash) :: rest) :
    parseOpEqual state =
      .ok (0, state.dropTop.dropTop.push
        (satoshiScriptDataNewBoolean (pushed = hash.val))) := by
  have enough : ¬ state.mainStack.count < 2 := by
    rw [ScriptState.mainStack_count, items]
    simp
  have second : state.dropTop.pop = (some (satoshiScriptDataNewHash160 hash),
      state.dropTop.dropTop) :=
    ScriptState.pop_cons (by rw [ScriptState.dropTop_items, items]; rfl)
  have same : (memcmp pushed hash.val = 0) ↔ pushed = hash.val :=
    memcmp_eq_zero (by rw [width, hash.property])
  rw [parseOpEqual, parseOpEqualverify, if_neg enough, ScriptState.pop_cons items]
  simp only [second, satoshiScriptDataCompare_hash160 width]
  simp [freeItem, satoshiScriptDataNewPtr, satoshiScriptDataNewHash160, same]

/-- `OP_EQUAL` over a slot that was overwritten does not return. -/
theorem parseOpEqual_overwritten {state : ScriptState} {sdata : Option ScriptData}
    {rest : List (Option ScriptData)} (items : state.items = sdata :: none :: rest)
    (result : Int × ScriptState) : parseOpEqual state ≠ .ok result := by
  have enough : ¬ state.mainStack.count < 2 := by
    rw [ScriptState.mainStack_count, items]
    simp
  have second : state.dropTop.pop = (none, state.dropTop.dropTop) :=
    ScriptState.pop_cons (by rw [ScriptState.dropTop_items, items]; rfl)
  rw [parseOpEqual, parseOpEqualverify, if_neg enough, ScriptState.pop_cons items]
  simp only [second]
  cases sdata <;> simp [satoshiScriptDataCompare]

section OutputScript

variable {env : ScriptEnv} {fuel : Nat} {origin : Option Nat} {state : ScriptState}
  {sdata : ScriptData} {rest : List (Option ScriptData)} {data : Option Bytes}

/-- The stack has one block of slots and all of them are used. -/
def BlockFull (state : ScriptState) : Prop :=
  state.mainStack.count = stackAllocSize ∧ state.mainStack.maxSize = stackAllocSize

instance (state : ScriptState) : Decidable (BlockFull state) :=
  inferInstanceAs (Decidable (_ ∧ _))

/-- The output script up to its last word: the computed hash lies below the pushed one,
unless its slot was overwritten. -/
theorem parseLoop_p2sh_prepare (env : ScriptEnv) (fuel : Nat) (origin : Option Nat)
    (hash : Uint160) (items : state.items = some sdata :: rest)
    (get : satoshiScriptDataGet sdata = .ok data) :
    ∃ before, parseLoop env .txout (fuel + 4) origin (p2shScript hash) state =
        parseLoop env .txout (fuel + 2) (origin.map (· + 22)) [0x87] before ∧
      before.items.head? = some (some (satoshiScriptDataNewPtr hash.val)) ∧
      (¬ BlockFull state → before.items[1]? =
        some (some (satoshiScriptDataNewHash160 (hash160 env.crypto (data.getD []))))) ∧
      (BlockFull state → before.items[1]? = some none) := by
  obtain ⟨slots, size⟩ := ScriptState.dropTop_push items
    (satoshiScriptDataNewHash160 (hash160 env.crypto (data.getD [])))
  have below := stackPush_below slots (satoshiScriptDataNewPtr hash.val)
  have count : (state.dropTop.push (satoshiScriptDataNewHash160
      (hash160 env.crypto (data.getD [])))).mainStack.count = state.mainStack.count := by
    rw [ScriptState.mainStack_count, slots, ScriptState.mainStack_count, items]
    rfl
  rw [count, size] at below
  refine ⟨(state.dropTop.push (satoshiScriptDataNewHash160 (hash160 env.crypto
    (data.getD [])))).push (satoshiScriptDataNewPtr hash.val), ?_, ScriptState.push_head _ _,
    fun room => ?_, fun full => ?_⟩
  · have hashed : parseOpHash env (.ofByte 0xa9) state = _ := parseOpHash_hash160 items get
    rw [p2shScript, parseLoop_word (by decide) (by decide) (fun _ _ => rfl), hashed,
      Exec.ok_bind, if_pos rfl, parseLoop_push20 hash.property, Option.map_map]
    rfl
  · exact below.trans (congrArg some (if_neg room))
  · exact below.trans (congrArg some (if_pos full))

/-- With slots to spare the output script compares the hash of the top item. -/
theorem parseLoop_p2sh (env : ScriptEnv) (fuel : Nat) (origin : Option Nat) (hash : Uint160)
    (items : state.items = some sdata :: rest)
    (get : satoshiScriptDataGet sdata = .ok data) (room : ¬ BlockFull state) :
    ∃ after, parseLoop env .txout (fuel + 4) origin (p2shScript hash) state =
        .ok (true, after) ∧
      after.items.head? = some (some (satoshiScriptDataNewBoolean
        (hash.val = (hash160 env.crypto (data.getD [])).val))) := by
  obtain ⟨before, run, top, second, -⟩ :=
    parseLoop_p2sh_prepare env fuel origin hash items get
  obtain ⟨rest', slots⟩ : ∃ rest', before.items = some (satoshiScriptDataNewPtr hash.val) ::
      some (satoshiScriptDataNewHash160 (hash160 env.crypto (data.getD []))) :: rest' := by
    have second := second room
    match before.items, top, second with
    | _ :: _ :: rest', top, second =>
        cases top
        cases second
        exact ⟨rest', rfl⟩
  refine ⟨before.dropTop.dropTop.push (satoshiScriptDataNewBoolean
    (hash.val = (hash160 env.crypto (data.getD [])).val)), ?_, ScriptState.push_head _ _⟩
  rw [run, parseLoop_word (by decide) (by decide) (fun _ _ => rfl),
    parseOpEqual_hash160 hash.property slots, Exec.ok_bind, if_pos rfl, parseLoop_nil]

/-- Without a slot to spare the output script overwrites the computed hash. -/
theorem parseLoop_p2sh_full (hash : Uint160) (items : state.items = some sdata :: rest)
    (get : satoshiScriptDataGet sdata = .ok data) (full : BlockFull state)
    (result : Bool × ScriptState) :
    parseLoop env .txout (fuel + 4) origin (p2shScript hash) state ≠ .ok result := by
  obtain ⟨before, run, top, -, second⟩ :=
    parseLoop_p2sh_prepare env fuel origin hash items get
  obtain ⟨rest', slots⟩ : ∃ rest', before.items =
      some (satoshiScriptDataNewPtr hash.val) :: none :: rest' := by
    have second := second full
    match before.items, top, second with
    | _ :: _ :: rest', top, second =>
        cases top
        cases second
        exact ⟨rest', rfl⟩
  rw [run, parseLoop_word (by decide) (by decide) (fun _ _ => rfl)]
  intro returns
  obtain ⟨equal, stopped, -⟩ := Exec.bind_eq_ok.1 returns
  exact parseOpEqual_overwritten slots equal stopped

/-- What a successful run of the output script says about the stack it started on. -/
theorem parseLoop_p2sh_inversion (hash : Uint160) {after final : ScriptState}
    (run : parseLoop env .txout (fuel + 4) origin (p2shScript hash) state = .ok (true, after))
    (verified : scriptsVerify after = .ok (0, final)) :
    ∃ sdata rest data, state.items = some sdata :: rest ∧
      satoshiScriptDataGet sdata = .ok data ∧ ¬ BlockFull state ∧
      hash160 env.crypto (data.getD []) = hash := by
  have first := run
  rw [p2shScript, parseLoop_word (by decide) (by decide) (fun _ _ => rfl)] at first
  obtain ⟨⟨rc, hashed⟩, hashRun, next⟩ := Exec.bind_eq_ok.1 first
  match items : state.items with
  | [] =>
      rw [parseOpHash, ScriptState.pop_nil items] at hashRun
      cases hashRun
      cases next
  | none :: rest =>
      rw [parseOpHash, ScriptState.pop_cons items] at hashRun
      cases hashRun
      cases next
  | some sdata :: rest =>
      rw [parseOpHash, ScriptState.pop_cons items] at hashRun
      obtain ⟨data, get, -⟩ := Exec.bind_eq_ok.1 hashRun
      by_cases full : BlockFull state
      · exact absurd run (parseLoop_p2sh_full hash items get full _)
      · obtain ⟨after', run', top⟩ := parseLoop_p2sh env fuel origin hash items get full
        rw [run] at run'
        cases run'
        refine ⟨sdata, rest, data, rfl, get, full, ?_⟩
        by_contra different
        have unequal : ¬ hash.val = (hash160 env.crypto (data.getD [])).val := fun same =>
          different (Subtype.ext same.symm)
        rw [scriptsVerify_boolean top] at verified
        simp [unequal] at verified

end OutputScript

/-! ## Parse calls -/

theorem scriptsParse_txin_unmarked {env : ScriptEnv} {scriptSig : Bytes} {state : ScriptState}
    {items : List ScriptData} (unmarked : scriptSig.headD 0 ≠ 0)
    (pushes : inputPushes scriptSig = some items) :
    scriptsParse env .txin scriptSig state =
      .ok (scriptSig.length, state.pushAll items) := by
  have nonempty : scriptSig ≠ [] := by
    rintro rfl
    exact unmarked rfl
  rw [inputPushes, if_neg unmarked] at pushes
  simp only [scriptsParse, scriptsParseTxin, Exec.assert_of nonempty, Exec.ok_bind, unmarked,
    decide_false, Bool.false_eq_true, ↓reduceIte, parseLoop_txin_of_pushItems env none state pushes,
    Exec.pure_eq, Bool.true_eq_false]

/-- An input script that parses is made of pushes, and a marked one passes the post
processing. -/
theorem scriptsParse_txin_inversion {env : ScriptEnv} {scriptSig : Bytes}
    {state after : ScriptState}
    (returns : scriptsParse env .txin scriptSig state = .ok (scriptSig.length, after)) :
    ∃ items, inputPushes scriptSig = some items ∧
      (scriptSig.headD 0 ≠ 0 → after = state.pushAll items) ∧
      (scriptSig.headD 0 = 0 →
        parseLoop env .txin (scriptSig.length + 1) none (scriptSig.drop 1) state =
          .ok (true, state.pushAll items) ∧
        txinP2shScriptsPostProcess env (state.pushAll items) = .ok (0, after)) := by
  rw [scriptsParse, scriptsParseTxin] at returns
  obtain ⟨_, -, returns⟩ := Exec.bind_eq_ok.1 returns
  obtain ⟨⟨finished, pushed⟩, loop, returns⟩ := Exec.bind_eq_ok.1 returns
  have nonnegative : (-1 : Int) ≠ scriptSig.length := by omega
  cases finished with
  | false =>
      simp [nonnegative] at returns
  | true =>
      simp only [Bool.true_eq_false, ↓reduceIte] at returns
      by_cases marked : scriptSig.headD 0 = 0
      · simp only [marked, decide_true, ↓reduceIte] at loop returns
        obtain ⟨items, pushes⟩ := pushItems_of_parseLoop_txin
          (by rw [List.length_drop]; omega) loop
        have pushLoop := parseLoop_txin_of_pushItems env none state pushes
        rw [loop] at pushLoop
        cases pushLoop
        refine ⟨items, by rw [inputPushes, if_pos marked, pushes], fun unmarked =>
          absurd marked unmarked, fun _ => ⟨loop, ?_⟩⟩
        obtain ⟨⟨rc, final⟩, process, returns⟩ := Exec.bind_eq_ok.1 returns
        by_cases zero : rc = 0
        · simp only [zero] at returns
          cases returns
          rw [process, zero]
        · simp [zero, nonnegative] at returns
      · simp only [marked, decide_false, Bool.false_eq_true, ↓reduceIte] at loop returns
        obtain ⟨items, pushes⟩ := pushItems_of_parseLoop_txin (by omega) loop
        have pushLoop := parseLoop_txin_of_pushItems env none state pushes
        rw [loop] at pushLoop
        cases pushLoop
        cases returns
        exact ⟨items, by rw [inputPushes, if_neg marked, pushes], fun _ => rfl,
          fun isMarked => absurd isMarked marked⟩

/-- The post processing succeeds after a full run of the redeem script on top of the stack
that leaves a true item. -/
theorem txinP2shScriptsPostProcess_inversion {env : ScriptEnv} {state after : ScriptState}
    (returns : txinP2shScriptsPostProcess env state = .ok (0, after)) :
    ∃ sdata redeem run final, state.items.head? = some (some sdata) ∧
      HandsToParser state redeem ∧
      scriptsParseUnknown env (some 0) redeem (redeemState state redeem) =
        .ok (sdata.size, run) ∧
      scriptsVerify run = .ok (0, final) ∧ after = final.push sdata := by
  have popped : ({ state with txin := { state.txin with isP2sh := true } } : ScriptState).pop =
      (state.items.head?.join,
        { state.dropTop with txin := { state.txin with isP2sh := true } }) := rfl
  rw [txinP2shScriptsPostProcess] at returns
  obtain ⟨_, -, returns⟩ := Exec.bind_eq_ok.1 returns
  simp only [popped] at returns
  cases top : state.items.head?.join with
  | none =>
      simp [top] at returns
  | some sdata =>
      simp only [top] at returns
      split_ifs at returns with inPlace
      · cases returns
      · obtain ⟨buffer, ptr, returns⟩ := Exec.bind_eq_ok.1 returns
        obtain ⟨⟨cb, run⟩, parsed, returns⟩ := Exec.bind_eq_ok.1 returns
        simp only at returns
        split_ifs at returns with short
        · cases returns
        · obtain ⟨⟨rc, final⟩, verified, returns⟩ := Exec.bind_eq_ok.1 returns
          have nonempty : (buffer.getD []).take sdata.size ≠ [] := by
            intro empty
            rw [empty] at parsed
            cases parsed
          simp only at returns
          split_ifs at returns with zero
          · cases returns
            rw [zero] at verified
            rw [not_not.1 short] at parsed
            have head : state.items.head? = some (some sdata) := Option.join_eq_some_iff.1 top
            exact ⟨sdata, _, run, final, head,
              ⟨sdata, buffer, head, not_lt.1 inPlace, ScriptData.dataPtr_eq_ok.1 ptr, rfl, nonempty⟩,
              parsed, verified, rfl⟩
          · cases returns
            exact absurd rfl zero

/-- Before the output script of a P2SH output is run, only the recorded redeem scripts of
the input can change. -/
theorem scriptsParse_txout_p2sh {env : ScriptEnv} (hash : Uint160) (state : ScriptState)
    (validIndex : env.txinIndex < env.tx.txins.length)
    (nonSegwit : flaggedWitnessItems env = .ok []) :
    ∃ started, started.mainStack = state.mainStack ∧
      scriptsParse env .txout (p2shScript hash) state =
        (parseLoop env .txout (20 + 4) none (p2shScript hash) started >>= fun result =>
          pure (parsedLength (p2shScript hash) result.1, result.2)) := by
  have length : (p2shScript hash).length = 23 := by
    simp [p2shScript, hash.property]
  have nonempty : p2shScript hash ≠ [] := List.cons_ne_nil _ _
  by_cases isP2sh : state.txin.isP2sh = true
  · refine ⟨state, rfl, ?_⟩
    simp only [scriptsParse, scriptsParseTxout, txoutScriptsPreProcess,
      Exec.assert_of nonempty, Exec.assert_of validIndex, Exec.ok_bind, isP2sh, ↓reduceIte,
      Exec.pure_eq, length]
  · refine ⟨{ state with txin := { state.txin with
      redeemScripts := some (state.txin.redeemScripts.getD (p2shScript hash)) } }, rfl, ?_⟩
    have legacy : 16 < (p2shScript hash).headD 0 := by
      rw [p2shScript, List.headD_cons]
      decide
    simp only [scriptsParse, scriptsParseTxout, txoutScriptsPreProcess,
      Exec.assert_of nonempty, Exec.assert_of validIndex, Exec.ok_bind, isP2sh, nonSegwit,
      legacy, ↓reduceIte, Exec.pure_eq, length]
    rfl

theorem parsedLength_eq_length {payload : Bytes} {finished : Bool}
    (full : parsedLength payload finished = payload.length) : finished = true := by
  cases finished with
  | true => rfl
  | false =>
      simp only [parsedLength, Bool.false_eq_true, ↓reduceIte] at full
      omega

section PayToScriptHash

variable {env : ScriptEnv} {scriptSig : Bytes} {state : ScriptState} {hash : Uint160}

/-- What an accepted P2SH spend says about the stack after the input script. -/
theorem topHash_of_txout {afterTxin afterTxout final : ScriptState}
    (validIndex : env.txinIndex < env.tx.txins.length)
    (nonSegwit : flaggedWitnessItems env = .ok [])
    (parsed : scriptsParse env .txout (p2shScript hash) afterTxin =
      .ok ((p2shScript hash).length, afterTxout))
    (verified : scriptsVerify afterTxout = .ok (0, final)) :
    ∃ sdata, afterTxin.items.head? = some (some sdata) ∧ ¬ BlockFull afterTxin ∧
      hash160 env.crypto (itemBytes sdata) = hash := by
  obtain ⟨started, stack, run⟩ := scriptsParse_txout_p2sh hash afterTxin validIndex nonSegwit
  rw [run] at parsed
  obtain ⟨⟨finished, after⟩, loop, returns⟩ := Exec.bind_eq_ok.1 parsed
  simp only [Exec.pure_eq, Exec.ok.injEq, Prod.mk.injEq] at returns
  obtain ⟨full, rfl⟩ := returns
  rw [parsedLength_eq_length full] at loop
  obtain ⟨sdata, rest, data, items, get, room, hashed⟩ :=
    parseLoop_p2sh_inversion hash loop verified
  have sameItems : started.items = afterTxin.items := by
    rw [ScriptState.items, stack]
    rfl
  refine ⟨sdata, by rw [← sameItems, items]; rfl, ?_, by rw [itemBytes, get]; exact hashed⟩
  rw [BlockFull, stack] at room
  exact room

/-- A P2SH spend goes through when the top item hashes to the script and there is a slot to
spare. -/
theorem txout_of_topHash {afterTxin : ScriptState} {sdata : ScriptData}
    {rest : List (Option ScriptData)} {data : Option Bytes}
    (validIndex : env.txinIndex < env.tx.txins.length)
    (nonSegwit : flaggedWitnessItems env = .ok [])
    (items : afterTxin.items = some sdata :: rest) (get : satoshiScriptDataGet sdata = .ok data)
    (room : ¬ BlockFull afterTxin) (hashed : hash160 env.crypto (data.getD []) = hash) :
    ∃ afterTxout final,
      scriptsParse env .txout (p2shScript hash) afterTxin =
        .ok ((p2shScript hash).length, afterTxout) ∧
      scriptsVerify afterTxout = .ok (0, final) := by
  obtain ⟨started, stack, run⟩ := scriptsParse_txout_p2sh hash afterTxin validIndex nonSegwit
  have sameItems : started.items = some sdata :: rest := by
    rw [ScriptState.items, stack]
    exact items
  have roomStarted : ¬ BlockFull started := by
    rw [BlockFull, stack]
    exact room
  obtain ⟨after, loop, top⟩ := parseLoop_p2sh env 20 none hash sameItems get roomStarted
  refine ⟨after, after.dropTop, by rw [run, loop]; rfl, ?_⟩
  rw [scriptsVerify_boolean top, hashed]
  simp

theorem FreshState.items (fresh : FreshState state) : state.items = [] := by
  rw [ScriptState.items, fresh.stack]
  rfl

/-- On a fresh context the block is full after exactly as many pushes as it has slots. -/
theorem FreshState.blockFull_iff (fresh : FreshState state) (items : List ScriptData) :
    BlockFull (state.pushAll items) ↔ items.length = stackAllocSize := by
  have empty : state.mainStack.count = 0 := by
    rw [fresh.stack]
    rfl
  have size : state.mainStack.maxSize = stackAllocSize := by
    rw [fresh.stack]
    rfl
  have count := ScriptState.pushAll_count state items
  constructor
  · rintro ⟨full, -⟩
    omega
  · intro full
    exact ⟨by omega, ((ScriptState.pushAll_of_room (by omega)).1).trans size⟩

/-- The items of an input script can be read back. -/
theorem get_of_inputPushes {items : List ScriptData} {sdata : ScriptData}
    (pushes : inputPushes scriptSig = some items) (member : sdata ∈ items) :
    ∃ data, satoshiScriptDataGet sdata = .ok data := by
  rcases pushItems_mem pushes member with rfl | ⟨data, rfl⟩
  · exact ⟨_, rfl⟩
  · exact ⟨_, rfl⟩

/-- An unmarked spend of a P2SH output compares a hash and runs nothing. -/
theorem spends_unmarked_iff (fresh : FreshState state)
    (validIndex : env.txinIndex < env.tx.txins.length)
    (nonSegwit : flaggedWitnessItems env = .ok []) (unmarked : scriptSig.headD 0 ≠ 0) :
    Spends env scriptSig (p2shScript hash) state ↔
      ∃ items last, inputPushes scriptSig = some (items ++ [last]) ∧
        (items ++ [last]).length ≠ stackAllocSize ∧
        hash160 env.crypto (itemBytes last) = hash := by
  constructor
  · rintro ⟨afterTxin, afterTxout, final, parsedTxin, parsedTxout, verified⟩
    obtain ⟨items, pushes, pushed, -⟩ := scriptsParse_txin_inversion parsedTxin
    obtain rfl := pushed unmarked
    obtain ⟨sdata, top, room, hashed⟩ :=
      topHash_of_txout validIndex nonSegwit parsedTxout verified
    rcases List.eq_nil_or_concat' items with rfl | ⟨init, last, rfl⟩
    · have empty : (state.pushAll []).items = [] := fresh.items
      rw [empty] at top
      cases top
    · rw [ScriptState.pushAll_concat, ScriptState.push_head] at top
      cases top
      exact ⟨init, sdata, pushes, fun full => room ((fresh.blockFull_iff _).2 full), hashed⟩
  · rintro ⟨init, last, pushes, room, hashed⟩
    obtain ⟨data, get⟩ := get_of_inputPushes pushes (by simp : last ∈ init ++ [last])
    have hashedData : hash160 env.crypto (data.getD []) = hash := by
      rw [itemBytes, get] at hashed
      exact hashed
    obtain ⟨rest, items⟩ : ∃ rest, (state.pushAll (init ++ [last])).items = some last :: rest := by
      rw [ScriptState.pushAll_concat]
      exact ⟨_, rfl⟩
    obtain ⟨afterTxout, final, parsed, verified⟩ := txout_of_topHash validIndex nonSegwit items
      get (fun full => room ((fresh.blockFull_iff _).1 full)) hashedData
    exact ⟨_, afterTxout, final, scriptsParse_txin_unmarked unmarked pushes, parsed, verified⟩

/-- What is handed to the parser after the pushes of an input script is its last item. -/
theorem handsToParser_pushAll_iff (fresh : FreshState state) {items : List ScriptData}
    (pushes : inputPushes scriptSig = some items) (redeem : Bytes) :
    HandsToParser (state.pushAll items) redeem ↔
      redeem ≠ [] ∧ ∃ init, items = init ++ [satoshiScriptDataNewPtr redeem] := by
  constructor
  · rintro ⟨sdata, buffer, top, pointer, stored, rfl, nonempty⟩
    rcases List.eq_nil_or_concat' items with rfl | ⟨init, last, rfl⟩
    · have empty : (state.pushAll []).items = [] := fresh.items
      rw [empty] at top
      cases top
    · rw [ScriptState.pushAll_concat, ScriptState.push_head] at top
      cases top
      rcases pushItems_mem pushes (by simp : sdata ∈ init ++ [sdata]) with rfl | ⟨data, rfl⟩
      · exact absurd pointer (by decide)
      · refine ⟨nonempty, init, ?_⟩
        cases stored
        cases data with
        | nil => exact absurd rfl nonempty
        | cons byte data => simp [satoshiScriptDataNewPtr]
  · rintro ⟨nonempty, init, rfl⟩
    refine ⟨satoshiScriptDataNewPtr redeem, some redeem, ?_, show (10 : Int) ≤ 12 by decide,
      ?_, ?_, nonempty⟩
    · rw [ScriptState.pushAll_concat, ScriptState.push_head]
    · simp [satoshiScriptDataNewPtr, List.length_pos_of_ne_nil nonempty]
    · simp [satoshiScriptDataNewPtr]

/-- A marked input script runs its last item, when that is data. -/
theorem txinExecutes_iff (fresh : FreshState state) (redeem : Bytes) :
    TxinExecutes env scriptSig state redeem ↔
      scriptSig.headD 0 = 0 ∧ redeem ≠ [] ∧
        ∃ init, inputPushes scriptSig = some (init ++ [satoshiScriptDataNewPtr redeem]) := by
  constructor
  · rintro ⟨marked, pushed, loop, hands⟩
    obtain ⟨items, pushes⟩ := pushItems_of_parseLoop_txin
      (by rw [List.length_drop]; omega) loop
    have pushLoop := parseLoop_txin_of_pushItems env none state pushes
    rw [loop] at pushLoop
    cases pushLoop
    have inputs : inputPushes scriptSig = some items := by
      rw [inputPushes, if_pos marked, pushes]
    obtain ⟨nonempty, init, rfl⟩ := (handsToParser_pushAll_iff fresh inputs redeem).1 hands
    exact ⟨marked, nonempty, init, inputs⟩
  · rintro ⟨marked, nonempty, init, inputs⟩
    have pushes := inputs
    rw [inputPushes, if_pos marked] at pushes
    exact ⟨marked, _, parseLoop_txin_of_pushItems env none state pushes,
      (handsToParser_pushAll_iff fresh inputs redeem).2 ⟨nonempty, init, rfl⟩⟩

/-- A marked spend of a P2SH output runs the item whose hash is compared. -/
theorem redeemed_of_marked (fresh : FreshState state)
    (validIndex : env.txinIndex < env.tx.txins.length)
    (nonSegwit : flaggedWitnessItems env = .ok []) (marked : scriptSig.headD 0 = 0)
    (spends : Spends env scriptSig (p2shScript hash) state) :
    ∃ items redeem after final,
      inputPushes scriptSig = some (items ++ [satoshiScriptDataNewPtr redeem]) ∧
      hash160 env.crypto redeem = hash ∧
      TxinExecutes env scriptSig state redeem ∧
      scriptsParseUnknown env (some 0) redeem
        (redeemState (state.pushAll (items ++ [satoshiScriptDataNewPtr redeem])) redeem) =
          .ok (redeem.length, after) ∧
      scriptsVerify after = .ok (0, final) := by
  obtain ⟨afterTxin, afterTxout, final, parsedTxin, parsedTxout, verified⟩ := spends
  obtain ⟨items, pushes, -, processed⟩ := scriptsParse_txin_inversion parsedTxin
  obtain ⟨loop, process⟩ := processed marked
  obtain ⟨sdata, redeem, run, ran, top, hands, parsed, accepted, rfl⟩ :=
    txinP2shScriptsPostProcess_inversion process
  obtain ⟨nonempty, init, rfl⟩ := (handsToParser_pushAll_iff fresh pushes redeem).1 hands
  rw [ScriptState.pushAll_concat, ScriptState.push_head] at top
  cases top
  obtain ⟨sdata, top, -, hashed⟩ := topHash_of_txout validIndex nonSegwit parsedTxout verified
  rw [ScriptState.push_head] at top
  cases top
  refine ⟨init, redeem, run, ran, pushes, ?_, ⟨marked, _, loop, hands⟩, parsed, accepted⟩
  rw [← hashed, itemBytes_newPtr]

/-- The spend of an output is sound exactly when mark and output agree. -/
theorem p2shSound_iff (script : Bytes) (fresh : FreshState state)
    (validIndex : env.txinIndex < env.tx.txins.length) :
    P2shSound env scriptSig script state ↔ P2shFaithful env scriptSig script state := by
  constructor
  · intro sound
    refine ⟨fun hash form nonSegwit unmarked items last pushes room hashed => ?_, fun other => ?_⟩
    · subst form
      have spends : Spends env scriptSig (p2shScript hash) state :=
        (spends_unmarked_iff fresh validIndex nonSegwit unmarked).2
          ⟨items, last, pushes, room, hashed⟩
      obtain ⟨_, _, _, _, -, -, executes, -⟩ := sound.redeemed hash rfl nonSegwit spends
      exact unmarked executes.1
    · obtain ⟨noTxin, noTxout⟩ := sound.unredeemed other
      split_ifs with marked
      · intro items redeem pushes
        by_contra nonempty
        exact noTxin redeem ((txinExecutes_iff fresh redeem).2 ⟨marked, nonempty, items, pushes⟩)
      · exact fun items pushes => noTxout _ (scriptsParse_txin_unmarked marked pushes)
  · intro faithful
    refine ⟨fun hash form nonSegwit spends => ?_, fun other => ?_⟩
    · subst form
      by_cases marked : scriptSig.headD 0 = 0
      · exact redeemed_of_marked fresh validIndex nonSegwit marked spends
      · obtain ⟨items, last, pushes, room, hashed⟩ :=
          (spends_unmarked_iff fresh validIndex nonSegwit marked).1 spends
        exact absurd hashed (faithful.marked hash rfl nonSegwit marked items last pushes room)
    · have agrees := faithful.unmarked other
      split_ifs at agrees with marked
      · have noTxin : ∀ redeem, ¬ TxinExecutes env scriptSig state redeem := by
          intro redeem executes
          obtain ⟨-, nonempty, init, pushes⟩ := (txinExecutes_iff fresh redeem).1 executes
          exact nonempty (agrees init redeem pushes)
        refine ⟨noTxin, fun afterTxin parsed => ?_⟩
        obtain ⟨items, pushes, -, processed⟩ := scriptsParse_txin_inversion parsed
        obtain ⟨loop, process⟩ := processed marked
        obtain ⟨_, redeem, _, _, _, hands, -⟩ := txinP2shScriptsPostProcess_inversion process
        exact absurd ⟨marked, _, loop, hands⟩ (noTxin redeem)
      · refine ⟨fun redeem executes => marked executes.1, fun afterTxin parsed => ?_⟩
        obtain ⟨items, pushes, pushed, -⟩ := scriptsParse_txin_inversion parsed
        rw [pushed marked]
        exact agrees items pushes

end PayToScriptHash

/-- A context on which nothing has been parsed, for the sample input. -/
def sampleState : ScriptState where
  mainStack := satoshiScriptStackInit
  ifStatementDepth := 0
  txin := {}
  utxoFlags := txoutTypeLegacy
  rawtx := ⟨[], [], 0, uint256Zero⟩

theorem sampleState_fresh : FreshState sampleState := ⟨rfl, rfl, rfl⟩

/-- The redeem script `OP_0`, which leaves a false item, pushed without a mark. -/
theorem p2shSound_iff_sample :
    P2shSound sampleEnv [1, 0] (p2shScript (hash160 sampleCrypto [0])) sampleState ↔
      P2shFaithful sampleEnv [1, 0] (p2shScript (hash160 sampleCrypto [0])) sampleState :=
  p2shSound_iff _ sampleState_fresh (by decide)

/-- The hash of a redeem script that fails is enough to spend the output. -/
theorem unmarkedPush_not_p2shSound :
    Spends sampleEnv [1, 0] (p2shScript (hash160 sampleCrypto [0])) sampleState ∧
      ¬ P2shSound sampleEnv [1, 0] (p2shScript (hash160 sampleCrypto [0])) sampleState := by
  have spends : Spends sampleEnv [1, 0] (p2shScript (hash160 sampleCrypto [0])) sampleState :=
    (spends_unmarked_iff sampleState_fresh (by decide) rfl (by decide)).2
      ⟨[], satoshiScriptDataNewPtr [0], rfl, by decide, by rw [itemBytes_newPtr]; rfl⟩
  refine ⟨spends, fun sound => ?_⟩
  obtain ⟨_, _, _, _, -, -, executes, -⟩ := sound.redeemed _ rfl rfl spends
  exact absurd executes.1 (by decide)

end BitcoinClib.Script
