import BitcoinClib.Script.Reach
import BitcoinClib.Script.Vectors

/-!
Contract: what a script leaves on the stack, and when it counts as true.

Owns:
- `StackReached`, the states that scripts, parse calls and verifications lead to;
- that every item on such a stack stands for a byte vector (`StackReached.items`);
- `castToBool`, Bitcoin's truth of a byte vector, and when `scripts_verify` agrees with it.

`scripts_verify` is also what `OP_VERIFY`, `OP_IF` and `OP_NOTIF` ask.
-/

namespace BitcoinClib.Script

open BitcoinClib.Lib
open BitcoinClib.Lib.Exec
open BitcoinClib.Types
open BitcoinClib.Crypto
open BitcoinClib.Tx

/-! ## Items of a stack -/

/-- Every item stands for a byte vector. -/
def HoldsVectors (state : ScriptState) : Prop :=
  ∀ sdata, some sdata ∈ state.items → ∃ vector, ItemVector sdata vector

theorem HoldsVectors.dropTop {state : ScriptState} (holds : HoldsVectors state) :
    HoldsVectors state.dropTop := by
  intro sdata present
  rw [ScriptState.dropTop_items] at present
  exact holds sdata (List.mem_of_mem_tail present)

theorem HoldsVectors.push {state : ScriptState} {pushed : ScriptData} {vector : Bytes}
    (holds : HoldsVectors state) (stands : ItemVector pushed vector) :
    HoldsVectors (state.push pushed) := by
  intro sdata present
  rcases stackPush_mem present with rfl | old
  · exact ⟨vector, stands⟩
  · exact holds sdata old

theorem HoldsVectors.same {state other : ScriptState} (holds : HoldsVectors state)
    (same : other.items = state.items) : HoldsVectors other := by
  intro sdata present
  rw [same] at present
  exact holds sdata present

/-- What a word pushes stands for a byte vector. -/
theorem HoldsVectors.produced {state : ScriptState} {pushed : ScriptData}
    (holds : HoldsVectors state) (produced : Produced state pushed) :
    ∃ vector, ItemVector pushed vector := by
  cases produced with
  | boolean value => exact ⟨_, itemVector_boolean value⟩
  | small value positive bounded => exact ⟨_, .smallInteger ⟨positive, bounded⟩⟩
  | data data => exact ⟨_, .pushed data⟩
  | hash256 hash => exact ⟨_, .hash256 hash⟩
  | hash160 hash => exact ⟨_, .hash160 hash⟩
  | @copy sdata _ rest top cloned =>
      obtain ⟨vector, stands⟩ := holds sdata (by rw [top]; exact List.mem_cons_self)
      by_cases empty : sdata = satoshiScriptDataNewPtr []
      · -- a string of length zero has no buffer to copy
        rw [empty] at cloned
        cases cloned
      · obtain ⟨copy, copies, standsToo⟩ := satoshiScriptDataClone_of_itemVector stands empty
        rw [copies] at cloned
        cases cloned
        exact ⟨vector, standsToo⟩

theorem holdsVectors_relation (env : ScriptEnv) :
    CallRelation env fun left right => left = right ∧ HoldsVectors left where
  mainStack := fun related => congrArg _ related.1
  txin := fun related => congrArg _ related.1
  dropTop := fun related => ⟨congrArg _ related.1, related.2.dropTop⟩
  push := by
    rintro left right sdata ⟨rfl, holds⟩ produced
    obtain ⟨vector, stands⟩ := holds.produced produced
    exact ⟨rfl, holds.push stands⟩
  withStartPos := by
    rintro left right ⟨rfl, holds⟩ position
    exact ⟨rfl, holds.same rfl⟩
  digest := by
    rintro left right ⟨rfl, holds⟩ hashType
    cases digests : getDigest env left hashType with
    | ok result =>
        refine ⟨rfl, rfl, holds.same ?_⟩
        rw [getDigest_frame digests]
        rfl
    | fault cause => rfl
    | timeout => trivial
  depth := fun related => congrArg _ related.1
  withDepth := by
    rintro left right ⟨rfl, holds⟩ depth
    exact ⟨rfl, holds.same rfl⟩
  putBack := by
    rintro left right sdata left' right' ⟨rfl, holds⟩ present ⟨rfl, holds'⟩
    obtain ⟨vector, stands⟩ := holds sdata present
    exact ⟨rfl, holds'.push stands⟩
  withTxin := by
    rintro left right ⟨rfl, holds⟩ txin
    exact ⟨rfl, holds.same rfl⟩
  withNested := by
    rintro left right ⟨rfl, holds⟩
    exact ⟨rfl, holds.same rfl⟩

/-- The states that scripts lead to: a word inside a script, the end of a parse call or of a
verification, and the same stack with another input selected. -/
inductive StackReached : ScriptState → Prop
  | fresh {state : ScriptState} (empty : state.items = []) : StackReached state
  | during {env : ScriptEnv} {level : Nat} {here there : ControlPoint}
      (before : StackReached here.state) (leads : Leads env level here there) :
      StackReached there.state
  | parsed {env : ScriptEnv} {type : TxScriptType} {payload : Bytes} {cb : Int}
      {state after : ScriptState} (before : StackReached state)
      (returns : scriptsParse env type payload state = .ok (cb, after)) : StackReached after
  | verified {rc : Int} {state after : ScriptState} (before : StackReached state)
      (returns : scriptsVerify state = .ok (rc, after)) : StackReached after
  | selected {state after : ScriptState} (before : StackReached state)
      (same : after.items = state.items) : StackReached after

theorem StackReached.items {state : ScriptState} (reached : StackReached state) :
    HoldsVectors state := by
  induction reached with
  | fresh empty =>
      intro sdata present
      rw [empty] at present
      cases present
  | @during env level here there before leads inductionHypothesis =>
      exact leads.keeps (holdsVectors_relation env).toRunRelation inductionHypothesis
  | @parsed env type payload cb state after before returns inductionHypothesis =>
      have run := scriptsParse_related (holdsVectors_relation env) type payload
        ⟨rfl, inductionHypothesis⟩
      rw [returns] at run
      exact run.2.2
  | verified before returns inductionHypothesis =>
      rw [scriptsVerify_frame returns]
      exact inductionHypothesis.dropTop
  | selected before same inductionHypothesis => exact inductionHypothesis.same same

/-! ## Truth -/

/-- Bitcoin's truth of a byte vector: some byte is not zero, a final sign byte apart. -/
def castToBool : Bytes → Bool
  | [] => false
  | [last] => last ≠ 0 && last ≠ 0x80
  | byte :: rest => byte ≠ 0 || castToBool rest

theorem toInt8_eq_zero (byte : UInt8) : byte.toInt8.toInt = 0 ↔ byte = 0 := by
  revert byte
  exact forall_byte (by decide +kernel)

/-- `scripts_verify` reads the truth of booleans and small integers; any other item is false. -/
theorem isTrueItem_of_itemVector {sdata : ScriptData} {vector : Bytes}
    (stands : ItemVector sdata vector) :
    isTrueItem sdata = .ok (if sdata.type = .bool ∨ sdata.type = .uint8 then castToBool vector
      else false) := by
  cases stands with
  | pushed => rfl
  | @smallInteger value range =>
      have positive : value ≠ 0 := by
        rintro rfl
        exact absurd range.1 (by decide)
      have notSign : value ≠ 0x80 := by
        rintro rfl
        exact absurd range.2 (by decide)
      simp [isTrueItem, satoshiScriptDataNewUint8, ScriptData.b, castToBool, positive, notSign,
        toInt8_eq_zero]
  | isTrue => rfl
  | isFalse => rfl
  | hash160 => rfl
  | hash256 => rfl

/-- A verification returns on any stack of byte vectors. -/
theorem scriptsVerify_returns {state : ScriptState} (holds : HoldsVectors state) :
    ∃ rc, scriptsVerify state = .ok (rc, state.dropTop) := by
  rw [scriptsVerify, ScriptState.pop_eq]
  cases top : state.items.head?.join with
  | none => exact ⟨-1, rfl⟩
  | some sdata =>
      obtain ⟨vector, stands⟩ := holds sdata (mem_of_top top)
      simp only [isTrueItem_of_itemVector stands, Exec.ok_bind]
      exact ⟨_, rfl⟩

/-- On every stack that scripts lead to, `scripts_verify` reports the truth of the byte vector
on top exactly when the top is a boolean, a small integer, or false. -/
theorem scriptsVerify_truth_iff {state : ScriptState} {sdata : ScriptData}
    (reached : StackReached state) (top : state.items.head? = some (some sdata)) :
    ∃ vector, ItemVector sdata vector ∧
      (scriptsVerify state = .ok (if castToBool vector then 0 else -1, state.dropTop) ↔
        sdata.type = .bool ∨ sdata.type = .uint8 ∨ castToBool vector = false) := by
  have present : some sdata ∈ state.items := mem_of_top (by rw [top]; rfl)
  obtain ⟨vector, stands⟩ := reached.items sdata present
  refine ⟨vector, stands, ?_⟩
  have verdict : scriptsVerify state =
      .ok (if (if sdata.type = .bool ∨ sdata.type = .uint8 then castToBool vector else false)
        then 0 else -1, state.dropTop) := by
    rw [scriptsVerify, ScriptState.pop_eq, top]
    simp only [Option.join_some, isTrueItem_of_itemVector stands, Exec.ok_bind, Exec.pure_eq]
  rw [verdict, ← or_assoc]
  by_cases inPlace : sdata.type = .bool ∨ sdata.type = .uint8
  · simp [inPlace]
  · rw [if_neg inPlace]
    cases castToBool vector with
    | true => simp [inPlace]
    | false => simp

/-- The small integer one, on top after `OP_1`. -/
theorem scriptsVerify_truth_iff_one :
    ∃ after, scriptsParse sampleEnv .unknown [0x51] sampleState = .ok (1, after) ∧
      ∃ vector, ItemVector (satoshiScriptDataNewUint8 1) vector ∧
        (scriptsVerify after = .ok (if castToBool vector then 0 else -1, after.dropTop) ↔
          (satoshiScriptDataNewUint8 1).type = .bool ∨
            (satoshiScriptDataNewUint8 1).type = .uint8 ∨ castToBool vector = false) := by
  have parsed : scriptsParse sampleEnv .unknown [0x51] sampleState =
      .ok (1, sampleState.push (satoshiScriptDataNewUint8 1)) := rfl
  have fresh : StackReached sampleState := .fresh rfl
  exact ⟨_, parsed, scriptsVerify_truth_iff (.parsed fresh parsed) rfl⟩

/-- The byte one as pushed data is true for Bitcoin and false here. -/
theorem pushedOne_not_true :
    ∃ after, scriptsParse sampleEnv .unknown [0x01, 0x01] sampleState = .ok (2, after) ∧
      StackReached after ∧ after.items.head? = some (some (satoshiScriptDataNewPtr [1])) ∧
      ItemVector (satoshiScriptDataNewPtr [1]) [1] ∧ castToBool [1] = true ∧
      scriptsVerify after = .ok (-1, after.dropTop) := by
  have parsed : scriptsParse sampleEnv .unknown [0x01, 0x01] sampleState =
      .ok (2, sampleState.push (satoshiScriptDataNewPtr [1])) := rfl
  have fresh : StackReached sampleState := .fresh rfl
  exact ⟨_, parsed, .parsed fresh parsed, rfl, .pushed [1], rfl, rfl⟩

end BitcoinClib.Script
