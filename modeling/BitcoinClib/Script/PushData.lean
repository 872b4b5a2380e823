import BitcoinClib.Lib.SelfDelimiting
import BitcoinClib.Script.Conditionals
import BitcoinClib.Script.Growth
import BitcoinClib.Tx.CodecRules

/-!
Contract: the grammar of push data in input scripts.

Owns:
- `satoshi_script_pushdata_code_from_varstr`;
- `PushToken`, the pushes an input script is made of, their bytes and their items;
- the input scripts that are accepted are the sequences of these pushes, each in one way;
- when the stack grows by the items of the pushes.

Does not own: scripts with the P2SH mark.
-/

namespace BitcoinClib.Script

open BitcoinClib.Lib
open BitcoinClib.Types
open BitcoinClib.Crypto
open BitcoinClib.Tx

/-! ## The encoder -/

/-- `satoshi_script_pushdata_code_from_varstr`: the bytes written to the buffer. -/
def satoshiScriptPushdataCodeFromVarstr (vscripts : Varstr) : Bytes :=
  -- `uint32_t length`
  let length := varintGet vscripts.vch % 2 ^ 32
  if length < 0x4c then vscripts.vch.take (length + 1)
  else
    let code : Bytes :=
      if length > 0xffff then 0x4e :: leBytes 4 length
      else if length > 0xff then 0x4d :: leBytes 2 length
      else 0x4c :: leBytes 1 length
    code ++ (vscripts.vch.drop (varintSize vscripts.vch)).take length

/-- A string of a script, with a minimal prefix. -/
structure Pushable (vscripts : Varstr) : Prop where
  canonical : vscripts.vint = varintSetData vscripts.data.length
  nonempty : 0 < vscripts.data.length
  short : vscripts.data.length < 2 ^ 16

/-! ## Tokens -/

/-- `OP_0`, or a push that announces its data in one of the accepted forms. -/
inductive PushToken where
  | opFalse
  | push (content : DataPush) (short : content.form ≠ .pushdata4)

namespace PushToken

/-- The bytes of a push. -/
def encode : PushToken → Bytes
  | opFalse => [0]
  | push content _ => content.encode

/-- The item of a push. -/
def item : PushToken → ScriptData
  | opFalse => sdataFalse
  | push content _ => satoshiScriptDataNewPtr content.data

end PushToken

/-- The form an opcode stands for. -/
def formOf (op : UInt8) : PushForm :=
  if op = 0x4c then .pushdata1
  else if op = 0x4d then .pushdata2
  else if op = 0x4e then .pushdata4
  else .direct

theorem formOf_opcode {form : PushForm} {length : Nat} (admitted : form.admits length) :
    formOf (form.opcode length) = form := by
  cases form with
  | direct =>
      have small : length < 0x4c := admitted.2
      have apart : ∀ long : UInt8, 0x4c ≤ long.toNat → UInt8.ofNat length ≠ long := by
        intro long above same
        rw [← same, UInt8.toNat_ofNat'] at above
        omega
      show formOf (UInt8.ofNat length) = .direct
      rw [formOf, if_neg (apart _ (by decide)), if_neg (apart _ (by decide)),
        if_neg (apart _ (by decide))]
  | pushdata1 => rfl
  | pushdata2 => rfl
  | pushdata4 => rfl

theorem form_of_opcode {content : DataPush} {op : UInt8} {rest : Bytes}
    (encoded : content.encode = op :: rest) : content.form = formOf op := by
  obtain ⟨form, data, admitted⟩ := content
  have opcode : form.opcode data.length = op := (List.cons.inj encoded).1
  rw [← opcode, formOf_opcode admitted]

/-- The first push of a text is determined. -/
theorem dataPush_reads {first second : DataPush} {rest rest' : Bytes}
    (same : first.encode ++ rest = second.encode ++ rest') : first = second ∧ rest = rest' := by
  obtain ⟨op, field, encoded, -, -, -, announced⟩ := pushDataSize_dataPush first
  obtain ⟨op', field', encoded', -, -, -, announced'⟩ := pushDataSize_dataPush second
  rw [encoded, encoded', List.cons_append, List.cons_append] at same
  obtain ⟨rfl, tail⟩ := List.cons.inj same
  have sizes := announced rest
  rw [tail, announced' rest'] at sizes
  obtain ⟨dataLength, fieldLength⟩ := Prod.ext_iff.1 (Option.some.inj sizes)
  rw [List.append_assoc, List.append_assoc] at tail
  obtain ⟨-, dataTail⟩ := List.append_inj tail fieldLength.symm
  obtain ⟨sameData, sameRest⟩ := List.append_inj dataTail dataLength.symm
  have sameForm := (form_of_opcode encoded).trans (form_of_opcode encoded').symm
  obtain ⟨form, data, admitted⟩ := first
  obtain ⟨form', data', admitted'⟩ := second
  have forms : form = form' := sameForm
  have datas : data = data' := sameData
  subst forms
  subst datas
  exact ⟨rfl, sameRest⟩

/-- Every push can be told from what follows it. -/
theorem pushToken_selfDelimiting : SelfDelimiting PushToken.encode where
  nonempty := by
    intro token
    cases token with
    | opFalse => exact List.cons_ne_nil _ _
    | push content short =>
        obtain ⟨op, field, encoded, -⟩ := pushDataSize_dataPush content
        rw [PushToken.encode, encoded]
        exact List.cons_ne_nil _ _
  reads := by
    intro first second rest rest' same
    cases first with
    | opFalse =>
        cases second with
        | opFalse => exact ⟨rfl, (List.cons.inj same).2⟩
        | push content short =>
            obtain ⟨op, field, encoded, nonzero, -⟩ := pushDataSize_dataPush content
            rw [PushToken.encode, PushToken.encode, encoded] at same
            exact absurd (List.cons.inj same).1.symm nonzero
    | push content short =>
        cases second with
        | opFalse =>
            obtain ⟨op, field, encoded, nonzero, -⟩ := pushDataSize_dataPush content
            rw [PushToken.encode, PushToken.encode, encoded] at same
            exact absurd (List.cons.inj same).1 nonzero
        | push content' short' =>
            obtain ⟨rfl, tail⟩ := dataPush_reads same
            exact ⟨rfl, tail⟩

/-! ## Input scripts -/

variable {fuel : Nat} {p : Bytes} {tokens : List PushToken} {items : List ScriptData}

/-- One push of an input script. -/
theorem pushItems_token (token : PushToken) :
    pushItems (fuel + 1) (token.encode ++ p) = (pushItems fuel p).map (token.item :: ·) := by
  cases token with
  | opFalse => rfl
  | push content short =>
      obtain ⟨op, field, encoded, nonzero, push, long, announced⟩ := pushDataSize_dataPush content
      have below : op < 0x4e := UInt8.lt_of_le_of_ne push fun last => short (long.1 last)
      have inside : ¬ (field ++ content.data ++ p).length < field.length + content.data.length := by
        simp only [List.length_append]
        omega
      have after : (field ++ content.data ++ p).drop (field.length + content.data.length) = p := by
        rw [← List.length_append, List.drop_left]
      have data : ((field ++ content.data ++ p).drop field.length).take content.data.length =
          content.data := by
        rw [List.append_assoc, List.drop_left, List.take_left]
      rw [PushToken.encode, encoded, List.cons_append, pushItems, if_neg nonzero, if_pos below,
        announced]
      dsimp only
      rw [if_neg inside, after, data]
      rfl

/-- A sequence of pushes is an input script of their items. -/
theorem pushItems_tokens : ∀ {tokens : List PushToken} {fuel : Nat}, tokens.length < fuel →
    pushItems fuel (tokens.flatMap PushToken.encode) = some (tokens.map PushToken.item)
  | _, 0, enough => absurd enough (Nat.not_lt_zero _)
  | [], _ + 1, _ => rfl
  | token :: tokens, fuel + 1, enough => by
      rw [List.flatMap_cons, pushItems_token, pushItems_tokens (Nat.lt_of_succ_lt_succ enough)]
      rfl

/-- An input script is a sequence of pushes. -/
theorem exists_tokens : ∀ {fuel : Nat} {p : Bytes} {items : List ScriptData},
    pushItems fuel p = some items →
      ∃ tokens : List PushToken, tokens.flatMap PushToken.encode = p ∧
        tokens.map PushToken.item = items
  | 0, _, _, pushes => nomatch pushes
  | _ + 1, [], items, pushes => ⟨[], rfl, Option.some.inj pushes⟩
  | fuel + 1, op :: p, items, pushes => by
      have first : ∃ (token : PushToken) (rest : Bytes), op :: p = token.encode ++ rest := by
        rw [pushItems] at pushes
        split_ifs at pushes with zero below
        · exact ⟨.opFalse, p, by rw [zero]; rfl⟩
        · cases announced : pushDataSize op p with
          | none => simp [announced] at pushes
          | some sizes =>
              simp only [announced] at pushes
              split_ifs at pushes with beyond
              obtain ⟨content, split⟩ := exists_dataPush zero (UInt8.le_of_lt below) announced
                (Nat.le_of_not_lt beyond)
              obtain ⟨op', field, encoded, -, -, long, -⟩ := pushDataSize_dataPush content
              have same : op = op' := by
                rw [encoded] at split
                exact (List.cons.inj split).1
              refine ⟨.push content fun isLong => ?_, _, split⟩
              rw [same, long.2 isLong] at below
              exact absurd below (by decide)
      obtain ⟨token, rest, split⟩ := first
      rw [split, pushItems_token] at pushes
      obtain ⟨others, restPushes, rfl⟩ := Option.map_eq_some_iff.1 pushes
      obtain ⟨tokens, encoded, pushed⟩ := exists_tokens restPushes
      refine ⟨token :: tokens, ?_, ?_⟩
      · rw [List.flatMap_cons, encoded, split]
      · rw [List.map_cons, pushed]

/-- A script has as many bytes as pushes at least. -/
theorem length_le_encode (tokens : List PushToken) :
    tokens.length ≤ (tokens.flatMap PushToken.encode).length := by
  induction tokens with
  | nil => exact Nat.le_refl 0
  | cons token tokens inductionHypothesis =>
      have positive := List.length_pos_iff.2 (pushToken_selfDelimiting.nonempty token)
      rw [List.flatMap_cons, List.length_append, List.length_cons]
      omega

variable {env : ScriptEnv} {state start : ScriptState} {payload : Bytes}

/-- A script of pushes without the P2SH mark is accepted, and its items are pushed. -/
theorem scriptsParse_tokens (unmarked : payload.headD 0 ≠ 0)
    (encoded : tokens.flatMap PushToken.encode = payload) :
    scriptsParse env .txin payload state =
      .ok (payload.length, state.pushAll (tokens.map PushToken.item)) := by
  apply scriptsParse_txin_unmarked unmarked
  rw [inputPushes, if_neg unmarked, ← encoded]
  exact pushItems_tokens (Nat.lt_succ_of_le (length_le_encode tokens))

/-- An accepted script without the P2SH mark is a sequence of pushes. -/
theorem tokens_of_accepted {rc : Int} {after : ScriptState} (unmarked : payload.headD 0 ≠ 0)
    (returns : scriptsParse env .txin payload state = .ok (rc, after)) (accepted : rc ≠ -1) :
    ∃ tokens : List PushToken, tokens.flatMap PushToken.encode = payload ∧
      rc = payload.length ∧ after = state.pushAll (tokens.map PushToken.item) := by
  have consumed : rc = payload.length := by
    rw [scriptsParse, scriptsParseTxin] at returns
    obtain ⟨_, -, returns⟩ := Exec.bind_eq_ok.1 returns
    obtain ⟨⟨finished, pushed⟩, -, returns⟩ := Exec.bind_eq_ok.1 returns
    have notMarked : decide (payload.headD 0 = 0) = false := decide_eq_false unmarked
    rw [notMarked] at returns
    cases finished with
    | false => exact absurd (Prod.ext_iff.1 (Exec.ok.inj returns)).1.symm accepted
    | true => exact (Prod.ext_iff.1 (Exec.ok.inj returns)).1.symm
  subst consumed
  obtain ⟨items, pushes, state', -⟩ := scriptsParse_txin_inversion returns
  rw [inputPushes, if_neg unmarked] at pushes
  obtain ⟨tokens, encoded, rfl⟩ := exists_tokens pushes
  exact ⟨tokens, encoded, rfl, state' unmarked⟩

theorem pushAll_mainStack (state : ScriptState) (items : List ScriptData) :
    (state.pushAll items).mainStack = state.mainStack.pushMany items := by
  induction items generalizing state with
  | nil => rfl
  | cons sdata items inductionHypothesis => exact inductionHypothesis (state.push sdata)

/-! ## The grammar -/

/-- Accepted scripts are sequences of pushes in one way, and the stack grows by their items. -/
def PushGrammar (env : ScriptEnv) (payload : Bytes) (state : ScriptState) : Prop :=
  ∀ rc after, scriptsParse env .txin payload state = .ok (rc, after) → rc ≠ -1 →
    ∃ tokens : List PushToken, tokens.flatMap PushToken.encode = payload ∧
      (∀ other : List PushToken, other.flatMap PushToken.encode = payload → other = tokens) ∧
      after.items = ((tokens.map PushToken.item).map some).reverse ++ state.items

theorem pushGrammar_iff (unmarked : payload.headD 0 ≠ 0) :
    PushGrammar env payload state ↔
      ∀ tokens : List PushToken, tokens.flatMap PushToken.encode = payload →
        state.mainStack.HasRoom tokens.length := by
  have slots : ∀ tokens : List PushToken,
      (state.pushAll (tokens.map PushToken.item)).items =
          ((tokens.map PushToken.item).map some).reverse ++ state.items ↔
        state.mainStack.HasRoom tokens.length := by
    intro tokens
    have many := pushMany_items_iff (tokens.map PushToken.item) state.mainStack
    rw [List.length_map] at many
    show (state.pushAll (tokens.map PushToken.item)).mainStack.items = _ ↔ _
    rw [pushAll_mainStack]
    exact many
  constructor
  · intro grammar tokens encoded
    obtain ⟨tokens', -, unique, grows⟩ :=
      grammar _ _ (scriptsParse_tokens unmarked encoded) (by omega)
    exact (slots tokens).1 (unique tokens encoded ▸ grows)
  · intro room rc after returns accepted
    obtain ⟨tokens, encoded, -, rfl⟩ := tokens_of_accepted unmarked returns accepted
    refine ⟨tokens, encoded, ?_, (slots tokens).2 (room tokens encoded)⟩
    intro other encoded'
    exact pushToken_selfDelimiting.flatMap_injective (encoded'.trans encoded.symm)

/-! ## Encoded strings -/

/-- The encoder writes a push of the string. -/
theorem pushdataCode_token {vscripts : Varstr} (pushable : Pushable vscripts) :
    ∃ token : PushToken, satoshiScriptPushdataCodeFromVarstr vscripts = token.encode ∧
      token.item = satoshiScriptDataNewPtr vscripts.data ∧ token.encode.headD 0 ≠ 0 := by
  obtain ⟨canonical, nonempty, short⟩ := pushable
  have someVint : vscripts.vint ≠ [] := canonical ▸ varintSetData_ne_nil _
  have announced : varintGet vscripts.vch = vscripts.data.length :=
    (varintGet_append vscripts.vint_size someVint _).trans vscripts.vint_value
  have prefixSize : varintSize vscripts.vch = vscripts.vint.length :=
    (varintSize_append someVint _).trans vscripts.vint_size
  have small : vscripts.data.length % 2 ^ 32 = vscripts.data.length :=
    Nat.mod_eq_of_lt (by omega)
  have payload : (vscripts.vch.drop vscripts.vint.length).take vscripts.data.length =
      vscripts.data := by
    rw [Varstr.vch, List.drop_left, List.take_length]
  rw [satoshiScriptPushdataCodeFromVarstr, announced, small, prefixSize, payload]
  split
  next direct =>
    have digit : vscripts.data.length % 256 = vscripts.data.length := Nat.mod_eq_of_lt (by omega)
    have vint : vscripts.vint = [UInt8.ofNat vscripts.data.length] := by
      rw [canonical, varintSetData, if_pos (by omega), leBytes, leBytes, digit]
    have whole : vscripts.vch.take (vscripts.data.length + 1) =
        UInt8.ofNat vscripts.data.length :: vscripts.data := by
      rw [Varstr.vch, vint, List.singleton_append, List.take_succ_cons, List.take_length]
    refine ⟨.push ⟨.direct, vscripts.data, nonempty, direct⟩ (by simp), whole, rfl, ?_⟩
    intro zero
    have value : (UInt8.ofNat vscripts.data.length).toNat = 0 := congrArg UInt8.toNat zero
    rw [UInt8.toNat_ofNat'] at value
    omega
  next long =>
    rw [if_neg (by omega)]
    split
    next two =>
      have opcode : (0x4d : UInt8) ≠ 0 := by decide
      exact ⟨.push ⟨.pushdata2, vscripts.data, short⟩ (by simp), rfl, rfl, opcode⟩
    next one =>
      have fits : vscripts.data.length < 256 ^ 1 := by omega
      have opcode : (0x4c : UInt8) ≠ 0 := by decide
      exact ⟨.push ⟨.pushdata1, vscripts.data, fits⟩ (by simp), rfl, rfl, opcode⟩

theorem pushdataCodes_tokens : ∀ {strings : List Varstr}, (∀ string ∈ strings, Pushable string) →
    ∃ tokens : List PushToken, strings.flatMap satoshiScriptPushdataCodeFromVarstr =
        tokens.flatMap PushToken.encode ∧
      tokens.map PushToken.item = strings.map fun string => satoshiScriptDataNewPtr string.data
  | [], _ => ⟨[], rfl, rfl⟩
  | string :: strings, pushable => by
      obtain ⟨token, encoded, item, -⟩ := pushdataCode_token (pushable string List.mem_cons_self)
      obtain ⟨tokens, encodedRest, itemsRest⟩ := pushdataCodes_tokens
        fun other member => pushable other (List.mem_cons_of_mem _ member)
      refine ⟨token :: tokens, ?_, ?_⟩
      · rw [List.flatMap_cons, List.flatMap_cons, encoded, encodedRest]
      · rw [List.map_cons, List.map_cons, item, itemsRest]

/-- Encoded strings are parsed back on an empty stack. -/
theorem scriptsParse_pushdataCodes {strings : List Varstr}
    (pushable : ∀ string ∈ strings, Pushable string) (some_ : strings ≠ [])
    (few : strings.length ≤ 64) (empty : start.items = []) :
    ∃ after, scriptsParse env .txin (strings.flatMap satoshiScriptPushdataCodeFromVarstr) start =
        .ok ((strings.flatMap satoshiScriptPushdataCodeFromVarstr).length, after) ∧
      after.items =
        (strings.map fun string => some (satoshiScriptDataNewPtr string.data)).reverse := by
  obtain ⟨tokens, encoded, pushed⟩ := pushdataCodes_tokens pushable
  have unmarked : (strings.flatMap satoshiScriptPushdataCodeFromVarstr).headD 0 ≠ 0 := by
    obtain ⟨string, others, rfl⟩ := List.exists_cons_of_ne_nil some_
    obtain ⟨token, written, -, nonzero⟩ := pushdataCode_token (pushable string List.mem_cons_self)
    obtain ⟨op, field, split⟩ :=
      List.exists_cons_of_ne_nil (pushToken_selfDelimiting.nonempty token)
    rw [split] at nonzero
    rw [List.flatMap_cons, written, split]
    exact nonzero
  have count : start.mainStack.count = 0 := List.length_eq_zero_iff.2 empty
  have room : start.mainStack.HasRoom (tokens.map PushToken.item).length := by
    left
    rw [count, pushed, List.length_map, Nat.zero_add]
    exact Nat.le_trans few (Nat.le_max_right _ _)
  refine ⟨_, scriptsParse_tokens unmarked encoded.symm, ?_⟩
  show (start.pushAll (tokens.map PushToken.item)).mainStack.items = _
  rw [pushAll_mainStack, (pushMany_items_iff _ _).2 room]
  have none_ : start.mainStack.items = [] := empty
  rw [none_, List.append_nil, pushed, List.map_map]
  rfl

/-- Encoded strings are always parsed back, and an accepted script is read in one way; the stack
grows by its items exactly when it has room for them. -/
theorem pushData_grammar_iff {strings : List Varstr}
    (pushable : ∀ string ∈ strings, Pushable string) (some_ : strings ≠ [])
    (few : strings.length ≤ 64) (empty : start.items = []) (unmarked : payload.headD 0 ≠ 0) :
    (∃ after, scriptsParse env .txin (strings.flatMap satoshiScriptPushdataCodeFromVarstr) start =
        .ok ((strings.flatMap satoshiScriptPushdataCodeFromVarstr).length, after) ∧
      after.items =
        (strings.map fun string => some (satoshiScriptDataNewPtr string.data)).reverse) ∧
    (PushGrammar env payload state ↔
      ∀ tokens : List PushToken, tokens.flatMap PushToken.encode = payload →
        state.mainStack.HasRoom tokens.length) :=
  ⟨scriptsParse_pushdataCodes pushable some_ few empty, pushGrammar_iff unmarked⟩

/-- A string of one byte. -/
def sampleString : Varstr := .ofData [7] (by decide)

theorem sampleString_pushable : ∀ string ∈ [sampleString], Pushable string := by
  intro string member
  rw [List.mem_singleton.1 member]
  exact ⟨rfl, by decide, by decide⟩

theorem pushData_grammar_iff_sample :
    (∃ after, scriptsParse sampleEnv .txin
          ([sampleString].flatMap satoshiScriptPushdataCodeFromVarstr) sampleState =
        .ok (([sampleString].flatMap satoshiScriptPushdataCodeFromVarstr).length, after) ∧
      after.items =
        ([sampleString].map fun string => some (satoshiScriptDataNewPtr string.data)).reverse) ∧
    (PushGrammar sampleEnv [1, 7] sampleState ↔
      ∀ tokens : List PushToken, tokens.flatMap PushToken.encode = [1, 7] →
        sampleState.mainStack.HasRoom tokens.length) :=
  pushData_grammar_iff sampleString_pushable (List.cons_ne_nil _ _) (by decide) rfl (by decide)

/-- A push of one byte. -/
def sampleToken : PushToken := .push ⟨.direct, [7], by decide, by decide⟩ (by decide)

/-- 65 pushes on a stack with 64 slots. -/
theorem manyPushes_not_pushGrammar :
    ¬ PushGrammar sampleEnv ((List.replicate 65 sampleToken).flatMap PushToken.encode)
      sampleState := by
  have unmarked : ((List.replicate 65 sampleToken).flatMap PushToken.encode).headD 0 ≠ 0 := by
    decide
  intro grammar
  have room := (pushGrammar_iff unmarked).1 grammar (List.replicate 65 sampleToken) rfl
  rw [List.length_replicate] at room
  exact absurd room (by decide)

end BitcoinClib.Script
