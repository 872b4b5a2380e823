import BitcoinClib.Script.Parse

/-!
Contract: rules for running scripts through the opcode loop.

Owns:
- one rule for the end of a script, and one for each word that occurs in a standard
  output script;
- `pushItems`, the items an input script pushes, and the run of such a script.

Every rule speaks about a loop with at least one unit of fuel left and about a type
other than `txin`, unless it is about pushes.
-/

namespace BitcoinClib.Script

open BitcoinClib.Lib
open BitcoinClib.Types
open BitcoinClib.Crypto
open BitcoinClib.Tx

variable {env : ScriptEnv} {type : TxScriptType} {fuel : Nat} {origin : Option Nat}
  {p : Bytes} {state : ScriptState}

/-! ## Single words -/

theorem parseLoop_nil : parseLoop env type (fuel + 1) origin [] state = .ok (true, state) := rfl

/-- A word above the small integers whose function has a return code. -/
theorem parseLoop_word {op : UInt8} {run : Exec (Int × ScriptState)} (notTxin : type ≠ .txin)
    (word : 0x60 < op)
    (dispatch : ∀ parse origin, parseOpcode parse env (.ofByte op) origin p state =
      ofReturnCode run) :
    parseLoop env type (fuel + 1) origin (op :: p) state =
      (run >>= fun result =>
        if result.1 = 0 then parseLoop env type fuel (origin.map (· + 1)) p result.2
        else .ok (false, result.2)) := by
  have notZero : op ≠ 0 := by
    rintro rfl
    exact absurd word (by decide)
  have notPush : ¬ op ≤ 0x4e := fun push => absurd (UInt8.lt_of_lt_of_le word push) (by decide)
  have notSmall : ¬ (0x51 ≤ op ∧ op ≤ 0x60) := fun small => absurd word (UInt8.not_lt.2 small.2)
  simp only [parseLoop, parseByte, if_neg notZero, if_neg notPush, if_neg notTxin,
    if_neg notSmall, dispatch, ofReturnCode, bind_assoc]
  congr
  funext ⟨rc, after⟩
  by_cases zero : rc = 0
  · simp [zero]
  · simp [zero]

/-- A push whose word is its length. -/
theorem parseLoop_push {op : UInt8} {data : Bytes} (nonzero : op ≠ 0) (direct : op < 0x4c)
    (width : data.length = op.toNat) :
    parseLoop env type (fuel + 1) origin (op :: (data ++ p)) state =
      parseLoop env type fuel (origin.map (· + 1 + op.toNat)) p
        (state.push (satoshiScriptDataNewPtr data)) := by
  have whole : (data ++ p).take op.toNat = data := List.take_left' width
  have rest : (data ++ p).drop op.toNat = p := List.drop_left' width
  have push : op ≤ 0x4e := UInt8.le_of_lt (UInt8.lt_trans direct (by decide))
  have notLong : ∀ long : UInt8, 0x4c ≤ long → op ≠ long := fun long above =>
    UInt8.ne_of_lt (UInt8.lt_of_lt_of_le direct above)
  have pushed : parseOpPushData op (data ++ p) state =
      (some op.toNat, state.push (satoshiScriptDataNewPtr data)) := by
    simp [parseOpPushData, pushDataSize, whole, width, notLong 0x4c (by decide),
      notLong 0x4d (by decide), notLong 0x4e (by decide)]
  simp [parseLoop, parseByte, pushed, rest, nonzero, push, notLong 0x4e (by decide)]

/-- A push of 20 bytes. -/
theorem parseLoop_push20 {hash : Bytes} (width : hash.length = 20) :
    parseLoop env type (fuel + 1) origin (20 :: (hash ++ p)) state =
      parseLoop env type fuel (origin.map (· + 21)) p
        (state.push (satoshiScriptDataNewPtr hash)) := by
  rw [parseLoop_push (by decide) (by decide) width]
  rfl

/-! ## Input scripts -/

/-- The items pushed by a script of pushes, in order; `none` when it holds anything else,
announces more bytes than it has, or uses `OP_PUSHDATA4`. -/
def pushItems : Nat → Bytes → Option (List ScriptData)
  | 0, _ => none
  | _ + 1, [] => some []
  | fuel + 1, op :: p =>
      if op = 0 then (pushItems fuel p).map (sdataFalse :: ·)
      else if op < 0x4e then
        match pushDataSize op p with
        | none => none
        | some (dataSize, offset) =>
            if p.length < offset + dataSize then none
            else (pushItems fuel (p.drop (offset + dataSize))).map
              (satoshiScriptDataNewPtr ((p.drop offset).take dataSize) :: ·)
      else none

/-- An input script pushes the false constant and data. -/
theorem pushItems_mem {items : List ScriptData} (pushes : pushItems fuel p = some items)
    {sdata : ScriptData} (member : sdata ∈ items) :
    sdata = sdataFalse ∨ ∃ data, sdata = satoshiScriptDataNewPtr data := by
  induction fuel generalizing p items with
  | zero => cases pushes
  | succ fuel inductionHypothesis =>
      cases p with
      | nil =>
          cases pushes
          cases member
      | cons op p =>
          rw [pushItems] at pushes
          split_ifs at pushes with zero below
          · obtain ⟨rest, others, rfl⟩ := Option.map_eq_some_iff.1 pushes
            rcases List.mem_cons.1 member with rfl | later
            · exact .inl rfl
            · exact inductionHypothesis others later
          · cases sizes : pushDataSize op p with
            | none => simp [sizes] at pushes
            | some sizes' =>
                simp only [sizes] at pushes
                split_ifs at pushes with short
                obtain ⟨rest, others, rfl⟩ := Option.map_eq_some_iff.1 pushes
                rcases List.mem_cons.1 member with rfl | later
                · exact .inr ⟨_, rfl⟩
                · exact inductionHypothesis others later

namespace ScriptState

/-- The state after a list of pushes. -/
def pushAll (state : ScriptState) (items : List ScriptData) : ScriptState :=
  items.foldl ScriptState.push state

theorem pushAll_concat (state : ScriptState) (items : List ScriptData) (last : ScriptData) :
    state.pushAll (items ++ [last]) = (state.pushAll items).push last := by
  simp [pushAll]

theorem pushAll_count (state : ScriptState) (items : List ScriptData) :
    (state.pushAll items).mainStack.count = state.mainStack.count + items.length := by
  induction items generalizing state with
  | nil => rfl
  | cons sdata items inductionHypothesis =>
      have pushed : (state.push sdata).mainStack.count = state.mainStack.count + 1 := by
        simp [push, stackPush, ScriptStack.count]
      rw [pushAll, List.foldl_cons, ← pushAll, inductionHypothesis, pushed, List.length_cons]
      omega

/-- As long as there are free slots nothing grows and nothing moves. -/
theorem pushAll_of_room {state : ScriptState} {items : List ScriptData}
    (room : state.mainStack.count + items.length ≤ state.mainStack.maxSize) :
    (state.pushAll items).mainStack.maxSize = state.mainStack.maxSize ∧
      (state.pushAll items).items = (items.map some).reverse ++ state.items := by
  induction items generalizing state with
  | nil => exact ⟨rfl, rfl⟩
  | cons sdata items inductionHypothesis =>
      rw [List.length_cons] at room
      have free : state.mainStack.count < state.mainStack.maxSize := by omega
      have size : (state.push sdata).mainStack.maxSize = state.mainStack.maxSize :=
        stackPush_maxSize_of_room sdata free
      have slots := push_items_of_room sdata free
      have count : (state.push sdata).mainStack.count = state.mainStack.count + 1 := by
        rw [mainStack_count, slots, List.length_cons, mainStack_count]
      have roomAfter : (state.push sdata).mainStack.count + items.length ≤
          (state.push sdata).mainStack.maxSize := by omega
      obtain ⟨sizes, contents⟩ := inductionHypothesis roomAfter
      refine ⟨sizes.trans size, ?_⟩
      rw [pushAll, List.foldl_cons, ← pushAll, contents, slots]
      simp

end ScriptState

/-- One pass of the push-only loop. -/
theorem parseLoop_txin_cons (op : UInt8) :
    parseLoop env .txin (fuel + 1) origin (op :: p) state =
      if op = 0 then parseLoop env .txin fuel (origin.map (· + 1)) p (state.push sdataFalse)
      else if op < 0x4e then
        match pushDataSize op p with
        | none => .ok (false, state)
        | some (dataSize, offset) =>
            if p.length < offset + dataSize then .ok (false, state)
            else parseLoop env .txin fuel (origin.map (· + 1 + (offset + dataSize)))
              (p.drop (offset + dataSize))
              (state.push (satoshiScriptDataNewPtr ((p.drop offset).take dataSize)))
      else if op = 0x4e then .fault .assertion
      else .ok (false, state) := by
  by_cases zero : op = 0
  · simp [parseLoop, parseByte, zero]
  by_cases below : op < 0x4e
  · have push : op ≤ 0x4e := UInt8.le_of_lt below
    have notLast : op ≠ 0x4e := UInt8.ne_of_lt below
    simp only [parseLoop, parseByte, if_neg zero, if_pos push, if_neg notLast, if_pos below,
      parseOpPushData]
    cases pushDataSize op p with
    | none => rfl
    | some sizes =>
        simp only
        split <;> simp
  by_cases last : op = 0x4e
  · simp [parseLoop, parseByte, last]
  · have notPush : ¬ op ≤ 0x4e := fun push =>
      below (UInt8.lt_of_le_of_ne push last)
    simp [parseLoop, parseByte, zero, notPush, below, last]

/-- The push-only loop over a script of pushes. -/
theorem parseLoop_txin_of_pushItems (env : ScriptEnv) (origin : Option Nat)
    (state : ScriptState) {items : List ScriptData} (pushes : pushItems fuel p = some items) :
    parseLoop env .txin fuel origin p state = .ok (true, state.pushAll items) := by
  induction fuel generalizing origin p state items with
  | zero => cases pushes
  | succ fuel inductionHypothesis =>
      cases p with
      | nil =>
          cases pushes
          rfl
      | cons op p =>
          rw [parseLoop_txin_cons]
          rw [pushItems] at pushes
          split_ifs at pushes ⊢ with zero below
          · obtain ⟨rest, others, rfl⟩ := Option.map_eq_some_iff.1 pushes
            exact inductionHypothesis _ _ others
          · cases sizes : pushDataSize op p with
            | none => simp [sizes] at pushes
            | some sizes' =>
                obtain ⟨dataSize, offset⟩ := sizes'
                simp only [sizes] at pushes ⊢
                split_ifs at pushes ⊢ with short
                obtain ⟨rest, others, rfl⟩ := Option.map_eq_some_iff.1 pushes
                exact inductionHypothesis _ _ others

/-- With enough fuel, a push-only loop that reaches the end ran over a script of pushes. -/
theorem pushItems_of_parseLoop_txin {after : ScriptState} (enough : p.length < fuel)
    (returns : parseLoop env .txin fuel origin p state = .ok (true, after)) :
    ∃ items, pushItems fuel p = some items := by
  induction fuel generalizing origin p state with
  | zero => omega
  | succ fuel inductionHypothesis =>
      cases p with
      | nil => exact ⟨[], rfl⟩
      | cons op p =>
          rw [List.length_cons] at enough
          rw [parseLoop_txin_cons] at returns
          rw [pushItems]
          split_ifs at returns ⊢ with zero below last
          · obtain ⟨items, rest⟩ := inductionHypothesis (by omega) returns
            exact ⟨_, by rw [rest]; rfl⟩
          · cases sizes : pushDataSize op p with
            | none => simp [sizes] at returns
            | some sizes' =>
                obtain ⟨dataSize, offset⟩ := sizes'
                simp only [sizes] at returns ⊢
                split_ifs at returns ⊢ with short
                · cases returns
                · obtain ⟨items, rest⟩ := inductionHypothesis
                    (by rw [List.length_drop]; omega) returns
                  exact ⟨_, by rw [rest]; rfl⟩
          · cases returns

end BitcoinClib.Script
