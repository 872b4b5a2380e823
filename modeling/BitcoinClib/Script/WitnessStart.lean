import BitcoinClib.Script.Starts
import BitcoinClib.Script.Stack
import BitcoinClib.Script.Witness

/-!
Contract: the stack on which a witness program starts.

Owns:
- `StandsFor`, an item of the stack for an item of the witness;
- `StartsOnWitness`, that a run starts on the witness items and nothing else;
- the exact inputs for which a witness program starts so.

Does not own: what the program computes.

The items are pushed on what earlier inputs and the input script left, empty ones are
bypassed, and a push that outgrows the array overwrites its oldest slots.
-/

namespace BitcoinClib.Script

open BitcoinClib.Lib
open BitcoinClib.Lib.Exec
open BitcoinClib.Types
open BitcoinClib.Crypto
open BitcoinClib.Tx

/-! ## Pushes on an empty stack -/

namespace ScriptState

/-- Slots that growth has overwritten stay so. -/
theorem push_cleared {state : ScriptState} (sdata : ScriptData) (cleared : none ∈ state.items) :
    none ∈ (state.push sdata).items := by
  have positive := List.length_pos_of_mem cleared
  apply List.mem_cons_of_mem
  unfold satoshiScriptStackResize
  split_ifs with enough
  · exact cleared
  · apply List.mem_append_right
    rw [List.mem_replicate]
    change 0 < state.mainStack.items.length at positive
    exact ⟨by omega, rfl⟩

theorem pushAll_cleared {state : ScriptState} (items : List ScriptData)
    (cleared : none ∈ state.items) : none ∈ (state.pushAll items).items := by
  induction items generalizing state with
  | nil => exact cleared
  | cons sdata items inductionHypothesis => exact inductionHypothesis (push_cleared sdata cleared)

/-- Pushes that outgrow the array overwrite some of its slots. -/
theorem pushAll_outgrown {state : ScriptState} {items : List ScriptData}
    (allocated : 0 < state.mainStack.maxSize)
    (outgrown : state.mainStack.maxSize < state.mainStack.count + items.length) :
    none ∈ (state.pushAll items).items := by
  induction items generalizing state with
  | nil =>
      have fits := state.mainStack.fits
      exact absurd outgrown (Nat.not_lt_of_le fits)
  | cons sdata items inductionHypothesis =>
      rw [List.length_cons] at outgrown
      by_cases room : state.mainStack.count < state.mainStack.maxSize
      · have size : (state.push sdata).mainStack.maxSize = state.mainStack.maxSize :=
          stackPush_maxSize_of_room sdata room
        have count : (state.push sdata).mainStack.count = state.mainStack.count + 1 := by
          rw [mainStack_count, push_items_of_room sdata room, List.length_cons, mainStack_count]
        exact inductionHypothesis (by omega) (by omega)
      · have fits : state.mainStack.count ≤ state.mainStack.maxSize := state.mainStack.fits
        have full := stackPush_full sdata (Nat.le_antisymm fits (Nat.le_of_not_lt room)) allocated
        exact pushAll_cleared items full

/-- The slots an empty stack has, or gets with its first push. -/
def capacity (state : ScriptState) : Nat := max stackAllocSize state.mainStack.maxSize

/-- The first push allocates what is missing. -/
theorem push_of_empty {state : ScriptState} (sdata : ScriptData) (empty : state.items = []) :
    (state.push sdata).items = [some sdata] ∧
      (state.push sdata).mainStack.maxSize = state.capacity := by
  have count : state.mainStack.count = 0 := by rw [mainStack_count, empty, List.length_nil]
  have slots : state.mainStack.items = [] := empty
  have block : stackRoundUp (state.mainStack.count + 1) = stackAllocSize := by
    rw [count]
    rfl
  unfold push stackPush satoshiScriptStackResize capacity
  simp only [block, items, slots]
  split_ifs with enough
  · exact ⟨by simp only [slots], (max_eq_right enough).symm⟩
  · refine ⟨?_, (max_eq_left (Nat.le_of_not_le enough)).symm⟩
    simp only [List.take_nil, List.length_nil, Nat.zero_sub, List.replicate_zero,
      List.append_nil]

theorem capacity_of_maxSize {left right : ScriptState}
    (size : left.mainStack.maxSize = right.capacity) : left.capacity = right.capacity := by
  rw [capacity, size, capacity, ← max_assoc, max_self]

/-- On an empty stack the pushed items are all there exactly when they fit. -/
theorem pushAll_of_empty {state : ScriptState} (items : List ScriptData)
    (empty : state.items = []) :
    (items.length ≤ state.capacity → (state.pushAll items).items = (items.map some).reverse) ∧
      (state.capacity < items.length → none ∈ (state.pushAll items).items) := by
  cases items with
  | nil => exact ⟨fun _ => empty, fun outgrown => absurd outgrown (Nat.not_lt_zero _)⟩
  | cons sdata items =>
      obtain ⟨slots, size⟩ := push_of_empty sdata empty
      have count : (state.push sdata).mainStack.count = 1 := by
        rw [mainStack_count, slots, List.length_singleton]
      have allocated : 0 < (state.push sdata).mainStack.maxSize := by
        rw [size]
        exact lt_of_lt_of_le (by decide) (le_max_left stackAllocSize _)
      rw [List.length_cons]
      constructor
      · intro fits
        have room : (state.push sdata).mainStack.count + items.length ≤
            (state.push sdata).mainStack.maxSize := by omega
        have pushed := (pushAll_of_room room).2
        rw [slots] at pushed
        rw [List.map_cons, List.reverse_cons]
        exact pushed
      · intro outgrown
        have grows : (state.push sdata).mainStack.maxSize <
            (state.push sdata).mainStack.count + items.length := by omega
        have cleared : none ∈ ((state.push sdata).pushAll items).items :=
          pushAll_outgrown allocated grows
        exact cleared

end ScriptState

/-! ## Starts -/

/-- An item of the stack stands for an item of the witness: a pointer to its bytes, or for an
empty one the false constant. -/
def StandsFor (slot : Option ScriptData) (item : Varstr) : Prop :=
  slot = some (satoshiScriptDataNewPtr item.data) ∨ item.data = [] ∧ slot = some sdataFalse

theorem StandsFor.ne_none {slot : Option ScriptData} {item : Varstr}
    (stands : StandsFor slot item) :
    slot ≠ none := by
  rcases stands with rfl | ⟨-, rfl⟩
  · exact Option.some_ne_none _
  · exact Option.some_ne_none _

/-- The state on which the witness is pushed: a nested program is popped first. -/
def beneathWitness (payload : Bytes) (state : ScriptState) : ScriptState :=
  if 16 < payload.headD 0 then
    ScriptState.dropTop { state with utxoFlags := state.utxoFlags ||| txoutTypeP2shSegwitFlags }
  else state

/-- The witness items a program is to find on the stack: the script of a script hash is popped
from them. -/
def witnessOperands (program : Bytes) (items : List Varstr) : List Varstr :=
  if IsKeyHashProgram program then items else items.dropLast

/-- The run of a program starts on the witness items alone. -/
structure StartsOnWitness (payload program : Bytes) (items : List Varstr) (state : ScriptState)
    (start : ControlPoint) : Prop where
  beneath : (beneathWitness payload state).items = []
  slots : List.Forall₂ StandsFor start.state.items (witnessOperands program items).reverse
  script : ¬ IsKeyHashProgram program →
    ∃ script, items.getLast? = some script ∧ start.rest = script.data

/-- The inputs whose witness is alone on the stack. -/
structure WitnessAlone (payload scriptSig : Bytes) (items : List Varstr) (state : ScriptState) :
    Prop where
  /-- What is on the stack before the input, and what the input script pushes, is the nested
  program at most. -/
  pushes : ∃ pushes, inputPushes scriptSig = some pushes ∧
    state.items.length + pushes.length = if 16 < payload.headD 0 then 1 else 0
  nonempty : ∀ item ∈ items, item.data ≠ []
  fits : items.length ≤ state.capacity

variable {env : ScriptEnv} {payload scriptSig program : Bytes} {items : List Varstr}
  {state afterTxin called : ScriptState} {start : ControlPoint}

/-- A witness program is only called for an input without the mark of a redeem script, and a
nested one only if there is a program to pop. -/
theorem segwitCall_cases (witness : flaggedWitnessItems env = .ok items)
    (calls : segwitCall env payload state = some (program, called)) :
    state.txin.isP2sh = false ∧
      called = (beneathWitness payload state).pushAll (witnessPushes items) ∧
      (16 < payload.headD 0 → state.items ≠ []) := by
  unfold segwitCall at calls
  by_cases isP2sh : state.txin.isP2sh = true
  · rw [if_pos isP2sh] at calls
    cases calls
  rw [if_neg isP2sh, witness] at calls
  refine ⟨by simpa using isP2sh, ?_⟩
  unfold beneathWitness
  by_cases nested : 16 < payload.headD 0
  · simp only [if_pos nested] at calls ⊢
    by_cases bare : items = []
    · rw [if_pos bare] at calls
      cases calls
    rw [if_neg bare] at calls
    split at calls
    case h_2 => cases calls
    case h_1 top =>
      split_ifs at calls
      cases calls
      refine ⟨pushWitnessItems_eq _ _, fun _ empty => ?_⟩
      rw [empty] at top
      cases top
  · simp only [if_neg nested] at calls ⊢
    cases calls
    exact ⟨pushWitnessItems_eq _ _, fun impossible => absurd impossible nested⟩

/-- A program of 20 bytes runs on the stack it was called on, one of 32 bytes on what is below
its script. -/
theorem segwitStart_cases (starts : segwitStart program called = some start) :
    (IsKeyHashProgram program ∧ start.state.items = called.items) ∨
    (¬ IsKeyHashProgram program ∧ ∃ sdata, called.items = some sdata :: start.state.items ∧
      ∀ data, sdata = satoshiScriptDataNewPtr data → start.rest = data) := by
  match program with
  | [] => cases starts
  | [_] => cases starts
  | versionByte :: programLength :: p =>
      rw [segwitStart] at starts
      split_ifs at starts with version short keyHash scriptHash
      · cases starts
        refine .inl ⟨⟨?_, ?_⟩, rfl⟩
        · rw [not_not.1 version, keyHash]
          rfl
        · rw [keyHash] at short
          have enough : 20 ≤ p.length := by simpa using short
          rw [List.length_cons, List.length_cons]
          omega
      · refine .inr ⟨?_, ?_⟩
        · rintro ⟨marks, -⟩
          have same : programLength = 20 := by simpa using (List.cons.inj marks).2
          exact keyHash same
        · unfold redeemStart at starts
          split at starts
          case h_2 => cases starts
          case h_1 sdata rest top =>
            split_ifs at starts
            split at starts
            case h_2 => cases starts
            case h_1 buffer pointer =>
              cases starts
              refine ⟨sdata, ?_, ?_⟩
              · show called.items = some sdata :: called.items.tail
                rw [top, List.tail_cons]
              · rintro data rfl
                have stored : ScriptValue.data (if 0 < data.length then some data else none) =
                    .data buffer := pointer
                show (buffer.getD []).take data.length = data
                cases stored
                cases data with
                | nil => rfl
                | cons byte data =>
                    have present := List.length_pos_of_ne_nil (List.cons_ne_nil byte data)
                    rw [if_pos present, Option.getD_some, List.take_length]

/-! ## Operands -/

theorem witnessPushes_length_le (items : List Varstr) :
    (witnessPushes items).length ≤ items.length := by
  rw [witnessPushes, List.length_map]
  exact List.length_filter_le _ _

/-- No item is bypassed exactly when none is empty. -/
theorem witnessPushes_length_iff (items : List Varstr) :
    (witnessPushes items).length = items.length ↔ ∀ item ∈ items, item.data ≠ [] := by
  rw [witnessPushes, List.length_map, List.length_filter_eq_length_iff]
  simp

theorem witnessPushes_of_nonempty (nonempty : ∀ item ∈ items, item.data ≠ []) :
    witnessPushes items = items.map fun item => satoshiScriptDataNewPtr item.data := by
  have kept : items.filter (fun item => item.data.length ≠ 0) = items := by
    rw [List.filter_eq_self]
    intro item member
    simpa using nonempty item member
  rw [witnessPushes, kept]

theorem standsFor_map (items : List Varstr) :
    List.Forall₂ StandsFor (items.map fun item => some (satoshiScriptDataNewPtr item.data))
      items := by
  induction items with
  | nil => exact .nil
  | cons item items inductionHypothesis => exact .cons (.inl rfl) inductionHypothesis

theorem not_mem_none_of_standsFor {slots : List (Option ScriptData)}
    (stands : List.Forall₂ StandsFor slots items) : none ∉ slots := by
  induction stands with
  | nil => exact List.not_mem_nil
  | cons first rest inductionHypothesis =>
      rw [List.mem_cons, not_or]
      exact ⟨first.ne_none.symm, inductionHypothesis⟩

/-- On an empty stack a program finds its operands exactly when no item is empty and all
items fit. -/
theorem slots_iff {base : ScriptState} (empty : base.items = [])
    (calledOn : called = base.pushAll (witnessPushes items))
    (starts : segwitStart program called = some start) :
    List.Forall₂ StandsFor start.state.items (witnessOperands program items).reverse ↔
      (∀ item ∈ items, item.data ≠ []) ∧ items.length ≤ base.capacity := by
  obtain ⟨fitting, outgrown⟩ := ScriptState.pushAll_of_empty (witnessPushes items) empty
  rw [← calledOn] at fitting outgrown
  have count : called.items.length = (witnessPushes items).length := by
    have counted := ScriptState.pushAll_count base (witnessPushes items)
    rw [← calledOn, ScriptState.mainStack_count, ScriptState.mainStack_count, empty,
      List.length_nil, Nat.zero_add] at counted
    exact counted
  have bypassed := witnessPushes_length_le items
  constructor
  · intro stands
    have lengths := stands.length_eq
    have present := not_mem_none_of_standsFor stands
    rw [List.length_reverse] at lengths
    have whole : (witnessPushes items).length = items.length ∧ none ∉ called.items := by
      rcases segwitStart_cases starts with ⟨keyHash, slots⟩ | ⟨scriptHash, sdata, slots, -⟩
      · rw [witnessOperands, if_pos keyHash, slots, count] at lengths
        rw [slots] at present
        exact ⟨lengths, present⟩
      · rw [witnessOperands, if_neg scriptHash, List.length_dropLast] at lengths
        have taken := congrArg List.length slots
        rw [count, List.length_cons] at taken
        refine ⟨by omega, ?_⟩
        rw [slots, List.mem_cons, not_or]
        exact ⟨(Option.some_ne_none sdata).symm, present⟩
    refine ⟨(witnessPushes_length_iff items).1 whole.1, ?_⟩
    rw [← whole.1]
    exact Nat.le_of_not_lt fun grows => whole.2 (outgrown grows)
  · rintro ⟨nonempty, fits⟩
    have pushes := witnessPushes_of_nonempty nonempty
    have slots := fitting (by rw [pushes, List.length_map]; exact fits)
    rw [pushes, List.map_map] at slots
    rcases segwitStart_cases starts with ⟨keyHash, same⟩ | ⟨scriptHash, sdata, below, -⟩
    · rw [witnessOperands, if_pos keyHash, same, slots]
      exact List.rel_reverse (standsFor_map items)
    · have rest : start.state.items =
          (items.dropLast.map fun item => some (satoshiScriptDataNewPtr item.data)).reverse := by
        have tail := congrArg List.tail (below.symm.trans slots)
        rw [List.tail_cons, List.tail_reverse, ← List.map_dropLast] at tail
        exact tail
      rw [witnessOperands, if_neg scriptHash, rest]
      exact List.rel_reverse (standsFor_map items.dropLast)

/-- The script of a script hash is then the last item. -/
theorem script_of_slots {base : ScriptState} (empty : base.items = [])
    (calledOn : called = base.pushAll (witnessPushes items))
    (starts : segwitStart program called = some start) (scriptHash : ¬ IsKeyHashProgram program)
    (nonempty : ∀ item ∈ items, item.data ≠ []) :
    ∃ script, items.getLast? = some script ∧ start.rest = script.data := by
  rcases segwitStart_cases starts with ⟨keyHash, -⟩ | ⟨-, sdata, below, reads⟩
  · exact absurd keyHash scriptHash
  rcases List.eq_nil_or_concat' items with none | ⟨others, script, rfl⟩
  · rw [none] at calledOn
    have bare : called.items = [] := by
      rw [calledOn]
      exact empty
    rw [bare] at below
    cases below
  · refine ⟨script, List.getLast?_concat, reads script.data ?_⟩
    have top : called.items.head? = some (some (satoshiScriptDataNewPtr script.data)) := by
      rw [calledOn, witnessPushes_of_nonempty nonempty, List.map_append, List.map_singleton]
      exact pushAll_top
    rw [below, List.head?_cons] at top
    exact Option.some.inj (Option.some.inj top)

/-! ## From the input script on -/

/-- An input script that marks no redeem script leaves its pushes. -/
theorem pushes_of_parsedTxin (notP2sh : afterTxin.txin.isP2sh = false)
    (parsed : if scriptSig = [] then afterTxin = state
      else scriptsParse env .txin scriptSig state = .ok (scriptSig.length, afterTxin)) :
    ∃ pushes, inputPushes scriptSig = some pushes ∧ afterTxin = state.pushAll pushes := by
  by_cases unmarked : scriptSig = [] ∨ scriptSig.headD 0 ≠ 0
  · exact (parsesTxin_unmarked_iff unmarked).1 parsed
  · obtain ⟨nonempty, marked⟩ := not_or.1 unmarked
    rw [if_neg nonempty] at parsed
    obtain ⟨_, -, -, processed⟩ := scriptsParse_txin_inversion parsed
    have isP2sh := isP2sh_of_process (processed (not_not.1 marked)).2
    rw [notP2sh] at isP2sh
    cases isP2sh

/-- Nothing lies beneath the witness exactly when there was at most a program to pop. -/
theorem beneathWitness_empty_iff (popped : 16 < payload.headD 0 → afterTxin.items ≠ []) :
    (beneathWitness payload afterTxin).items = [] ↔
      afterTxin.items.length = if 16 < payload.headD 0 then 1 else 0 := by
  unfold beneathWitness
  by_cases nested : 16 < payload.headD 0
  · rw [if_pos nested, if_pos nested, ScriptState.dropTop_items]
    show afterTxin.items.tail = [] ↔ _
    have held := List.length_pos_of_ne_nil (popped nested)
    rw [← List.length_eq_zero_iff, List.length_tail]
    omega
  · rw [if_neg nested, if_neg nested, List.length_eq_zero_iff]

/-- Pushing and popping a single program changes no capacity. -/
theorem beneathWitness_capacity {pushes : List ScriptData}
    (alone : state.items.length + pushes.length = if 16 < payload.headD 0 then 1 else 0) :
    (beneathWitness payload (state.pushAll pushes)).capacity = state.capacity := by
  unfold beneathWitness
  by_cases nested : 16 < payload.headD 0
  · rw [if_pos nested] at alone ⊢
    show (state.pushAll pushes).capacity = state.capacity
    cases pushes with
    | nil => rfl
    | cons sdata pushes =>
        rw [List.length_cons] at alone
        have single : pushes = [] := List.eq_nil_of_length_eq_zero (by omega)
        have empty : state.items = [] := List.eq_nil_of_length_eq_zero (by omega)
        rw [single]
        exact ScriptState.capacity_of_maxSize (ScriptState.push_of_empty sdata empty).2
  · rw [if_neg nested] at alone ⊢
    have none : pushes = [] := List.eq_nil_of_length_eq_zero (by omega)
    rw [none]
    rfl

/-- A witness program starts on its witness exactly when nothing else was pushed, no witness
item is empty, and the array is not outgrown. -/
theorem startsOnWitness_iff
    (parsed : if scriptSig = [] then afterTxin = state
      else scriptsParse env .txin scriptSig state = .ok (scriptSig.length, afterTxin))
    (witness : flaggedWitnessItems env = .ok items)
    (calls : segwitCall env payload afterTxin = some (program, called))
    (starts : segwitStart program called = some start) :
    StartsOnWitness payload program items afterTxin start ↔
      WitnessAlone payload scriptSig items state := by
  obtain ⟨notP2sh, calledOn, popped⟩ := segwitCall_cases witness calls
  obtain ⟨pushes, pushed, rfl⟩ := pushes_of_parsedTxin notP2sh parsed
  have count : (state.pushAll pushes).items.length = state.items.length + pushes.length :=
    ScriptState.pushAll_count state pushes
  have beneath := beneathWitness_empty_iff popped
  rw [count] at beneath
  constructor
  · rintro ⟨empty, slots, -⟩
    have alone := beneath.1 empty
    obtain ⟨nonempty, fits⟩ := (slots_iff empty calledOn starts).1 slots
    rw [beneathWitness_capacity alone] at fits
    exact ⟨⟨pushes, pushed, alone⟩, nonempty, fits⟩
  · rintro ⟨⟨others, pushed', alone⟩, nonempty, fits⟩
    obtain rfl := Option.some.inj (pushed.symm.trans pushed')
    have empty := beneath.2 alone
    rw [← beneathWitness_capacity alone] at fits
    exact ⟨empty, (slots_iff empty calledOn starts).2 ⟨nonempty, fits⟩,
      fun scriptHash => script_of_slots empty calledOn starts scriptHash nonempty⟩

/-- The run of the sample witness script, for an input that brings these items. -/
def sampleStart (items : List Varstr) : ControlPoint :=
  ⟨.unknown, some 0, [0x51], redeemState (sampleState.pushAll (witnessPushes items)) [0x51]⟩

theorem startsOnWitness_iff_sample :
    StartsOnWitness sampleProgram.script sampleProgram.script sampleWitness sampleState
        (sampleStart sampleWitness) ↔
      WitnessAlone sampleProgram.script [] sampleWitness sampleState := by
  have parsed : if ([] : Bytes) = [] then sampleState = sampleState
      else scriptsParse witnessEnv .txin [] sampleState =
        .ok (([] : Bytes).length, sampleState) := by decide
  have calls : segwitCall witnessEnv sampleProgram.script sampleState =
      some (sampleProgram.script, sampleState.pushAll (witnessPushes sampleWitness)) := rfl
  have starts : segwitStart sampleProgram.script
      (sampleState.pushAll (witnessPushes sampleWitness)) = some (sampleStart sampleWitness) := rfl
  exact startsOnWitness_iff parsed rfl calls starts

/-- An empty item before the sample witness script. -/
def emptyItemWitness : List Varstr := .ofData [] Varstr.nil_small :: sampleWitness

/-- The sample input in a transaction that carries this witness. -/
def emptyItemEnv : ScriptEnv :=
  { witnessEnv with tx := { witnessEnv.tx with witnesses := some [emptyItemWitness] } }

/-- The witness script does not find the empty item. -/
theorem emptyItem_not_startsOnWitness :
    segwitCall emptyItemEnv sampleProgram.script sampleState =
        some (sampleProgram.script, sampleState.pushAll (witnessPushes emptyItemWitness)) ∧
      segwitStart sampleProgram.script (sampleState.pushAll (witnessPushes emptyItemWitness)) =
        some (sampleStart emptyItemWitness) ∧
      ¬ StartsOnWitness sampleProgram.script sampleProgram.script emptyItemWitness sampleState
        (sampleStart emptyItemWitness) := by
  refine ⟨rfl, rfl, ?_⟩
  rintro ⟨-, slots, -⟩
  exact absurd slots.length_eq (by decide)

end BitcoinClib.Script
