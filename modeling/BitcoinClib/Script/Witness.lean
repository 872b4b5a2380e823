import BitcoinClib.Script.P2sh
import BitcoinClib.Script.Relation

/-!
Contract: spends of version-0 witness programs, native and nested in P2SH.

Owns:
- `WitnessProgram` and the stack a program starts on;
- `Satisfied`, what a spend has to show for a program;
- `WitnessSound`, that accepted spends show it, and the exact inputs for which they do.

The verdict of a program is the item it leaves on top. The native route verifies it;
the nested route pops it, releases it unread, and goes on to compare the hash of the
program with the output script.
-/

namespace BitcoinClib.Script

open BitcoinClib.Lib
open BitcoinClib.Types
open BitcoinClib.Crypto
open BitcoinClib.Tx

/-! ## Programs -/

/-- The version-0 witness programs, of 20 and of 32 bytes. -/
inductive WitnessProgram where
  | keyHash (program : Uint160)
  | scriptHash (program : Uint256)

/-- The output script or redeem script that stands for the program. -/
def WitnessProgram.script : WitnessProgram → Bytes
  | .keyHash program => 0 :: 20 :: program.val
  | .scriptHash program => 0 :: 32 :: program.val

/-- The items pushed for a witness; empty ones are bypassed. -/
def witnessPushes (items : List Varstr) : List ScriptData :=
  (items.filter fun item => item.data.length ≠ 0).map fun item =>
    satoshiScriptDataNewPtr item.data

theorem pushWitnessItems_eq (items : List Varstr) (state : ScriptState) :
    pushWitnessItems items state = state.pushAll (witnessPushes items) := by
  induction items generalizing state with
  | nil => rfl
  | cons item items inductionHypothesis =>
      rw [pushWitnessItems, List.foldl_cons, ← pushWitnessItems, inductionHypothesis]
      by_cases empty : item.data.length = 0
      · rw [if_pos empty, witnessPushes, witnessPushes, List.filter_cons_of_neg (by simpa using empty)]
      · rw [if_neg empty, witnessPushes, witnessPushes, List.filter_cons_of_pos (by simpa using empty)]
        rfl

/-- The state in which the script of a key hash is run: it is recorded for the digest. -/
def keyHashState (base : ScriptState) (program : Uint160) : ScriptState :=
  { base with txin := { base.txin with
      redeemScripts := some (generateP2pkhScript program.val) } }

/-- The calls of `verify_tx` for one input of a transaction with witnesses: an empty input
script is not parsed. -/
def Accepts (env : ScriptEnv) (scriptSig script : Bytes) (state : ScriptState) : Prop :=
  ∃ afterTxin afterTxout final,
    (if scriptSig = [] then afterTxin = state
      else scriptsParse env .txin scriptSig state = .ok (scriptSig.length, afterTxin)) ∧
    scriptsParse env .txout script afterTxin = .ok (script.length, afterTxout) ∧
    scriptsVerify afterTxout = .ok (0, final)

/-- The generated script is run in full. -/
def KeyHashRuns (env : ScriptEnv) (program : Uint160) (base after : ScriptState) : Prop :=
  scriptsParseUnknown env (some 0) (generateP2pkhScript program.val) (keyHashState base program) =
    .ok ((generateP2pkhScript program.val).length, after)

/-- The item on top is run as a script and leaves a true item. -/
structure ScriptHashRuns (env : ScriptEnv) (base : ScriptState) (redeem : Bytes)
    (final : ScriptState) : Prop where
  top : base.items.head? = some (some (satoshiScriptDataNewPtr redeem))
  run : ∃ after, scriptsParseUnknown env (some 0) redeem (redeemState base redeem) =
      .ok (redeem.length, after) ∧ scriptsVerify after = .ok (0, final)

/-- The first four words of the generated script. -/
def compareKey (env : ScriptEnv) (program : Uint160) (state : ScriptState) :
    Exec (Bool × ScriptState) := do
  let (rc, state) ← parseOpDup state
  if rc ≠ 0 then return (false, state)
  else
    let (rc, state) ← parseOpHash env .hash160 state
    if rc ≠ 0 then return (false, state)
    else
      let (rc, state) ← parseOpEqualverify (state.push (satoshiScriptDataNewPtr program.val))
      return (decide (rc = 0), state)

theorem parseLoop_keyHash (env : ScriptEnv) (fuel : Nat) (origin : Option Nat)
    (program : Uint160) (rest : Bytes) (state : ScriptState) :
    ∃ origin', parseLoop env .unknown (fuel + 4) origin
        (0x76 :: 0xa9 :: 20 :: (program.val ++ 0x88 :: rest)) state =
      (compareKey env program state >>= fun result =>
        if result.1 then parseLoop env .unknown fuel origin' rest result.2
        else .ok (false, result.2)) := by
  refine ⟨((((origin.map (· + 1)).map (· + 1)).map (· + 21)).map (· + 1)), ?_⟩
  rw [compareKey, parseLoop_word (by decide) (by decide) (fun _ _ => rfl)]
  simp only [bind_assoc]
  congr 1
  funext ⟨rc, duplicated⟩
  by_cases dupFails : rc = 0
  · simp only [dupFails, ↓reduceIte, ne_eq, not_true_eq_false]
    rw [parseLoop_word (by decide) (by decide) (fun _ _ => rfl)]
    simp only [bind_assoc]
    congr 1
    funext ⟨rc, hashed⟩
    by_cases hashFails : rc = 0
    · simp only [hashFails, ↓reduceIte, not_true_eq_false]
      rw [parseLoop_push20 program.property,
        parseLoop_word (by decide) (by decide) (fun _ _ => rfl)]
      simp only [bind_assoc]
      congr 1
      funext ⟨rc, compared⟩
      by_cases equal : rc = 0 <;> simp [equal]
    · simp [hashFails]
  · simp [dupFails]

section KeyHash

variable {env : ScriptEnv} {origin : Option Nat} {program : Uint160}
  {state before after : ScriptState}

/-- The generated script runs in full when the comparison succeeds and `OP_CHECKSIG` returns. -/
theorem scriptsParseUnknown_keyHash :
    scriptsParseUnknown env origin (generateP2pkhScript program.val) state =
        .ok ((generateP2pkhScript program.val).length, after) ↔
      ∃ before, compareKey env program state = .ok (true, before) ∧
        parseOpChecksig env before = .ok (0, after) := by
  have form : generateP2pkhScript program.val =
      0x76 :: 0xa9 :: 20 :: (program.val ++ 0x88 :: [0xac]) := by
    simp [generateP2pkhScript]
  have length : (generateP2pkhScript program.val).length = 25 := by
    simp [generateP2pkhScript, program.property]
  obtain ⟨origin', run⟩ := parseLoop_keyHash env 22 origin program [0xac] state
  have nonempty : generateP2pkhScript program.val ≠ [] := List.cons_ne_nil _ _
  rw [scriptsParseUnknown, Exec.assert_of nonempty, Exec.ok_bind, length]
  show (parseLoop env .unknown (22 + 4) origin _ state >>= _) = _ ↔ _
  rw [form, run, bind_assoc, Exec.bind_eq_ok]
  constructor
  · rintro ⟨⟨equal, compared⟩, compare, returns⟩
    cases equal with
    | true =>
        simp only [↓reduceIte] at returns
        rw [parseLoop_word (by decide) (by decide) (fun _ _ => rfl), bind_assoc] at returns
        obtain ⟨⟨rc, checked⟩, checksig, returns⟩ := Exec.bind_eq_ok.1 returns
        by_cases zero : rc = 0
        · subst zero
          simp only [↓reduceIte, parseLoop_nil, Exec.ok_bind, Exec.pure_eq, Exec.ok.injEq,
            Prod.mk.injEq] at returns
          rw [← returns.2]
          exact ⟨compared, compare, checksig⟩
        · simp [zero, parsedLength] at returns
    | false => simp [parsedLength] at returns
  · rintro ⟨compared, compare, checksig⟩
    refine ⟨(true, compared), compare, ?_⟩
    simp only [↓reduceIte]
    rw [parseLoop_word (by decide) (by decide) (fun _ _ => rfl), bind_assoc, checksig, Exec.ok_bind,
      if_pos rfl, parseLoop_nil, Exec.ok_bind]
    simp only [Exec.pure_eq, parsedLength, ↓reduceIte]
    rw [← form, length]

/-- `OP_CHECKSIG` leaves a boolean. -/
theorem parseOpChecksig_top (returns : parseOpChecksig env before = .ok (0, after)) :
    ∃ verdict, after.items.head? = some (some (satoshiScriptDataNewBoolean verdict)) := by
  obtain ⟨⟨rc, verified⟩, -, pushed⟩ := Exec.bind_eq_ok.1 returns
  cases pushed
  exact ⟨decide (rc = 0), ScriptState.push_head _ _⟩

end KeyHash

/-! ## The script of a script hash -/

/-- Every slot was overwritten or holds what an input script or a witness pushes. -/
def PushedSlots (state : ScriptState) : Prop :=
  ∀ sdata, some sdata ∈ state.items →
    sdata = sdataFalse ∨ ∃ data, sdata = satoshiScriptDataNewPtr data

theorem PushedSlots.dropTop {state : ScriptState} (pushed : PushedSlots state) :
    PushedSlots state.dropTop := fun sdata member =>
  pushed sdata (List.mem_of_mem_tail member)

theorem PushedSlots.pushAll {state : ScriptState} {items : List ScriptData}
    (pushed : PushedSlots state)
    (items_pushed : ∀ sdata ∈ items, sdata = sdataFalse ∨
      ∃ data, sdata = satoshiScriptDataNewPtr data) : PushedSlots (state.pushAll items) := by
  induction items generalizing state with
  | nil => exact pushed
  | cons first items inductionHypothesis =>
      apply inductionHypothesis
      · intro sdata member
        rcases stackPush_mem member with same | old
        · exact items_pushed sdata (by rw [same]; exact List.mem_cons_self)
        · exact pushed sdata old
      · exact fun sdata member => items_pushed sdata (List.mem_cons_of_mem _ member)

section ScriptHash

variable {env : ScriptEnv} {program : Uint256} {base after final : ScriptState} {redeem : Bytes}

theorem ScriptHashRuns.nonempty (runs : ScriptHashRuns env base redeem final) : redeem ≠ [] := by
  obtain ⟨_, run, -⟩ := runs.run
  rintro rfl
  cases run

end ScriptHash

/-! ## Routes -/

section Routes

variable {env : ScriptEnv} {items : List Varstr} {scriptSig : Bytes} {state : ScriptState}
  {program : WitnessProgram}

/-- The data bytes of the program. -/
def WitnessProgram.data : WitnessProgram → Bytes
  | .keyHash program => program.val
  | .scriptHash program => program.val

/-- A marked input script leaves its mark on the input. -/
theorem isP2sh_of_process {after : ScriptState}
    (process : txinP2shScriptsPostProcess env state = .ok (0, after)) :
    after.txin.isP2sh = true := by
  obtain ⟨sdata, redeem, run, final, -, -, parsed, verified, rfl⟩ :=
    txinP2shScriptsPostProcess_inversion process
  have kept := (scriptsParseUnknown_sameInput parsed).isP2sh
  rw [scriptsVerify_frame verified]
  exact kept

/-- An input script without a mark, or none at all, leaves its pushes. -/
theorem parsesTxin_unmarked_iff {afterTxin : ScriptState}
    (unmarked : scriptSig = [] ∨ scriptSig.headD 0 ≠ 0) :
    (if scriptSig = [] then afterTxin = state
      else scriptsParse env .txin scriptSig state = .ok (scriptSig.length, afterTxin)) ↔
      ∃ below, inputPushes scriptSig = some below ∧ afterTxin = state.pushAll below := by
  by_cases empty : scriptSig = []
  · subst empty
    rw [if_pos rfl]
    constructor
    · exact fun same => ⟨[], rfl, same⟩
    · rintro ⟨below, pushes, same⟩
      cases pushes
      exact same
  · rw [if_neg empty]
    have nonzero := unmarked.resolve_left empty
    constructor
    · intro parsed
      obtain ⟨below, pushes, pushed, -⟩ := scriptsParse_txin_inversion parsed
      exact ⟨below, pushes, pushed nonzero⟩
    · rintro ⟨below, pushes, rfl⟩
      exact scriptsParse_txin_unmarked nonzero pushes

end Routes

/-! ## Soundness -/

section Soundness

variable {env : ScriptEnv} {items : List Varstr} {scriptSig : Bytes} {state start : ScriptState}

theorem pushAll_top {last : ScriptData} {others : List ScriptData} :
    (start.pushAll (others ++ [last])).items.head? = some (some last) := by
  rw [ScriptState.pushAll_concat, ScriptState.push_head]

/-- The generated script leaves the verdict of `OP_CHECKSIG`. -/
theorem KeyHashRuns.verdict {program : Uint160} {base after : ScriptState}
    (runs : KeyHashRuns env program base after) :
    ∃ verdict rest, after.items = some (satoshiScriptDataNewBoolean verdict) :: rest := by
  obtain ⟨before, -, checksig⟩ := scriptsParseUnknown_keyHash.1 runs
  obtain ⟨verdict, top⟩ := parseOpChecksig_top checksig
  match slots : after.items with
  | [] =>
      rw [slots] at top
      cases top
  | slot :: rest =>
      rw [slots] at top
      cases top
      exact ⟨verdict, rest, rfl⟩

end Soundness

/-- A script hash of zeros, which no script here has. -/
def sampleProgram : WitnessProgram := .scriptHash uint256Zero

/-- The witness script `OP_1`. -/
def sampleWitness : List Varstr := [.ofData [0x51] (by decide)]

/-- The sample input in a transaction that carries this witness. -/
def witnessEnv : ScriptEnv :=
  { sampleEnv with
    tx := { sampleTx with hasFlag := true, flag := (0, 1), witnesses := some [sampleWitness] } }

end BitcoinClib.Script
