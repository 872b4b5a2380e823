import BitcoinClib.Lib.Exec
import BitcoinClib.Types.Bytes

/-!
Contract: script values and the script stack of `satoshi-script.c`.

Owns:
- `ScriptData`, the tagged union `satoshi_script_data_t`, with its setter,
  getter, comparison, clone and release functions;
- `ScriptStack`, the array behind `satoshi_script_stack_t`, with its growth
  rule;
- the read of the union through its `b` and `data` members.

The union is kept as the bytes that were last written to it. Reading `data`
from a value that holds no pointer, or `b` from a value that holds a pointer,
has no meaning in the model and is a fault.
-/

namespace BitcoinClib.Script

open BitcoinClib.Lib
open BitcoinClib.Types

/-- `enum satoshi_script_data_type` -/
inductive ScriptDataType where
  | unknown | null | bool | opCode | varint
  | uint8 | uint16 | uint32 | uint64
  | hash256 | hash160
  | varstr | uchars | pointer
deriving DecidableEq, Repr

/-- The position of the tag in the enumeration, which starts at `-1`. -/
def ScriptDataType.value : ScriptDataType → Int
  | unknown => -1
  | null => 0
  | bool => 1
  | opCode => 2
  | varint => 3
  | uint8 => 4
  | uint16 => 5
  | uint32 => 6
  | uint64 => 7
  | hash256 => 8
  | hash160 => 9
  | varstr => 10
  | uchars => 11
  | pointer => 12

/-- What the 32-byte union of `satoshi_script_data_t` holds. -/
inductive ScriptValue where
  /-- bytes stored in place: `b`, `u64`, `h256`, `h160` -/
  | inline (bytes : Bytes)
  /-- the `data` member: NULL, or a buffer and its contents -/
  | data (buffer : Option Bytes)
deriving DecidableEq, Repr

/-- `satoshi_script_data_t`. `isStatic` marks the two shared boolean constants,
which live outside the allocator. -/
structure ScriptData where
  type : ScriptDataType
  value : ScriptValue
  size : Nat
  isStatic : Bool
deriving DecidableEq, Repr

/-- `s_sdata_true` -/
def sdataTrue : ScriptData := ⟨.bool, .inline [1], 1, true⟩

/-- `s_sdata_false` -/
def sdataFalse : ScriptData := ⟨.bool, .inline [0], 1, true⟩

/-- `satoshi_script_data_new_boolean` -/
def satoshiScriptDataNewBoolean (value : Bool) : ScriptData :=
  if value then sdataTrue else sdataFalse

namespace ScriptData

/-- Read `sdata->data` in order to follow it. A NULL result is the caller's to
check; a value stored in place is no address. -/
def dataPtr (sdata : ScriptData) : Exec (Option Bytes) :=
  match sdata.value with
  | .data buffer => .ok buffer
  | .inline _ => .fault .pointer

/-- Read the signed byte `sdata->b`. The low byte of an address is unspecified. -/
def b (sdata : ScriptData) : Exec Int :=
  match sdata.value with
  | .inline bytes => .ok (bytes.headD 0).toInt8.toInt
  | .data _ => .fault .pointer

theorem dataPtr_eq_ok {sdata : ScriptData} {buffer : Option Bytes} :
    sdata.dataPtr = .ok buffer ↔ sdata.value = .data buffer := by
  unfold dataPtr
  cases sdata.value with
  | inline bytes => simp
  | data stored => simp

end ScriptData

/-! ## Set, get, clone -/

/-- `satoshi_script_data_set` on a zeroed record. Every tag of the enumeration has a
case, so the source's `return -1` for an unknown one is never reached. -/
def satoshiScriptDataSet (type : ScriptDataType) (data : Option Bytes) (size : Nat) :
    Exec ScriptData :=
  match type, data with
  | .unknown, _ => .fault .assertion
  | .null, _ => .ok ⟨.null, .inline [], 0, false⟩
  | _, none => .fault .assertion
  | .bool, some data => .ok ⟨.bool, .inline (data.take 1), 1, false⟩
  | .opCode, some data => .ok ⟨.opCode, .inline (data.take 1), 1, false⟩
  | .varint, some data =>
      .ok ⟨.varint, .inline (leBytes 8 (varintGet data)), varintSize data, false⟩
  | .varstr, some data => do
      let vintSize := varintSize data
      let length := varintGet data
      Exec.assert (size = 0 ∨ vintSize + length ≤ size)
      if vintSize = 0 ∨ data.length < vintSize + length then Exec.fault .bounds
      else
        let buffer := if 0 < length then some ((data.drop vintSize).take length) else none
        -- the size of the string is overwritten by the size of the whole varstr
        return ⟨.varstr, .data buffer, vintSize + length, false⟩
  | .uint8, some data => .ok ⟨.uint8, .inline (data.take 1), 1, false⟩
  | .uint16, some data => .ok ⟨.uint16, .inline (data.take 2), 2, false⟩
  | .uint32, some data => .ok ⟨.uint32, .inline (data.take 4), 4, false⟩
  | .uint64, some data => .ok ⟨.uint64, .inline (data.take 8), 8, false⟩
  | .hash256, some data => .ok ⟨.hash256, .inline (data.take 32), 32, false⟩
  | .hash160, some data => .ok ⟨.hash160, .inline (data.take 20), 20, false⟩
  | .uchars, some data => .ok ⟨.uchars, .data (some data), size, false⟩
  | .pointer, some data =>
      .ok ⟨.pointer, .data (if 0 < size then some (data.take size) else none), size, false⟩

/-- The record `satoshi_script_data_new(satoshi_script_data_type_pointer, …)` returns
for a buffer it is given in full. -/
def satoshiScriptDataNewPtr (data : Bytes) : ScriptData :=
  ⟨.pointer, .data (if 0 < data.length then some data else none), data.length, false⟩

/-- The record `satoshi_script_data_new(satoshi_script_data_type_uint8, &op_code, 1)` returns. -/
def satoshiScriptDataNewUint8 (value : UInt8) : ScriptData :=
  ⟨.uint8, .inline [value], 1, false⟩

/-- The record `satoshi_script_data_new(satoshi_script_data_type_hash256, hash, 32)` returns. -/
def satoshiScriptDataNewHash256 (hash : Uint256) : ScriptData :=
  ⟨.hash256, .inline hash.val, 32, false⟩

/-- The record `satoshi_script_data_new(satoshi_script_data_type_hash160, hash, 20)` returns. -/
def satoshiScriptDataNewHash160 (hash : Uint160) : ScriptData :=
  ⟨.hash160, .inline hash.val, 20, false⟩

theorem satoshiScriptDataSet_pointer (data : Bytes) :
    satoshiScriptDataSet .pointer (some data) data.length =
      .ok (satoshiScriptDataNewPtr data) := by
  simp [satoshiScriptDataSet, satoshiScriptDataNewPtr]

/-- The data `varstr_set` leaves in a new string: nothing is copied from NULL. -/
def varstrData (buffer : Option Bytes) (size : Nat) : Exec Bytes :=
  match buffer with
  | some data => if size ≤ data.length then .ok (data.take size) else .fault .bounds
  | none => if size = 0 then .ok [] else .fault .uninitialised

/-- `satoshi_script_data_get` into a NULL output pointer: the bytes written, with
`none` where the output pointer and the length stay as they were. -/
def satoshiScriptDataGet (sdata : ScriptData) : Exec (Option Bytes) :=
  match sdata.type, sdata.value with
  | .unknown, _ => .fault .assertion
  | .null, _ => .ok none
  | .bool, .inline bytes => .ok (some [bytes.headD 0])
  | .opCode, .inline bytes => .ok (some [bytes.headD 0])
  | .varint, .inline bytes => .ok (some (varintSetData (leValue (bytes.take 8))))
  | .uint8, .inline bytes => .ok (some (leBytes 8 (leValue (bytes.take 8))))
  | .uint16, .inline bytes => .ok (some (leBytes 8 (leValue (bytes.take 8))))
  | .uint32, .inline bytes => .ok (some (leBytes 8 (leValue (bytes.take 8))))
  | .uint64, .inline bytes => .ok (some (leBytes 8 (leValue (bytes.take 8))))
  | .hash256, .inline bytes => .ok (some (bytes.take 32))
  | .hash160, .inline bytes => .ok (some (bytes.take 20))
  | .varstr, .data buffer => do
      let data ← varstrData buffer sdata.size
      return some (varintSetData sdata.size ++ data)
  | .uchars, .data buffer => .ok (some ((buffer.getD []).take sdata.size))
  | .pointer, .data buffer => .ok (some ((buffer.getD []).take sdata.size))
  | _, _ => .fault .pointer

/-- `satoshi_script_data_clone` -/
def satoshiScriptDataClone (sdata : ScriptData) : Exec ScriptData :=
  match sdata.type with
  | .unknown => .fault .assertion
  | .varstr | .pointer => do
      let buffer ← sdata.dataPtr
      satoshiScriptDataSet sdata.type buffer sdata.size
  | _ => .ok { sdata with isStatic := false }

/-! ## Compare and release -/

/-- The sign of `memcmp` on two strings of one length. -/
def memcmp : Bytes → Bytes → Int
  | [], _ => 0
  | _, [] => 0
  | left :: lefts, right :: rights =>
      if left = right then memcmp lefts rights
      else if left < right then -1 else 1

/-- The first bytes of the zeroed union after `bytes` were stored in it. -/
def unionBytes (bytes : Bytes) (count : Nat) : Bytes :=
  (bytes ++ List.replicate 32 0).take count

/-- `scripts_data_get_ptr`: the size, and the bytes the pointer designates. -/
def scriptsDataGetPtr (sdata : ScriptData) : Int × Bytes :=
  match sdata.type with
  | .unknown => (-1, [])
  | .null => (0, [])
  | _ =>
    match sdata.value with
    | .inline bytes => (sdata.size, unionBytes bytes sdata.size)
    | .data buffer => (sdata.size, (buffer.getD []).take sdata.size)

/-- `satoshi_script_data_compare`; NULL operands fail its assertion. -/
def satoshiScriptDataCompare (sdata1 sdata2 : Option ScriptData) : Exec Int :=
  match sdata1, sdata2 with
  | some sdata1, some sdata2 =>
      let (cb1, data1) := scriptsDataGetPtr sdata1
      let (cb2, data2) := scriptsDataGetPtr sdata2
      if cb1 ≤ 0 ∨ cb2 ≤ 0 ∨ cb1 ≠ cb2 then .ok (-1)
      else .ok (memcmp data1 data2)
  | _, _ => .fault .assertion

theorem memcmp_eq_zero {left right : Bytes} (sameLength : left.length = right.length) :
    memcmp left right = 0 ↔ left = right := by
  induction left generalizing right with
  | nil =>
      cases right with
      | nil => simp [memcmp]
      | cons byte rest => simp at sameLength
  | cons byte rest inductionHypothesis =>
      cases right with
      | nil => simp at sameLength
      | cons other others =>
          have restLength : rest.length = others.length := by simpa using sameLength
          by_cases same : byte = other
          · subst same
            simpa [memcmp] using inductionHypothesis restLength
          · simp only [memcmp, List.cons.injEq, same, false_and, iff_false, ↓reduceIte]
            split_ifs <;> simp

/-- A pushed string of 20 bytes equals a computed hash when the bytes are the same. -/
theorem satoshiScriptDataCompare_hash160 {pushed : Bytes} (width : pushed.length = 20)
    (hash : Uint160) :
    satoshiScriptDataCompare (some (satoshiScriptDataNewPtr pushed))
      (some (satoshiScriptDataNewHash160 hash)) = .ok (memcmp pushed hash.val) := by
  have wholePushed : pushed.take 20 = pushed := List.take_of_length_le (by rw [width])
  have wholeHash : unionBytes hash.val 20 = hash.val := by
    rw [unionBytes, List.take_left' hash.property]
  simp [satoshiScriptDataCompare, scriptsDataGetPtr, satoshiScriptDataNewPtr,
    satoshiScriptDataNewHash160, width, wholePushed, wholeHash]

/-- `free(sdata)` on a popped item: the shared constants were not allocated. -/
def freeItem (sdata : ScriptData) : Exec Unit :=
  if sdata.isStatic then .fault .invalidFree else .ok ()

/-! ## Stack -/

/-- `SATOSHI_SCRIPT_STACK_ALLOC_SIZE` -/
def stackAllocSize : Nat := 64

/-- `satoshi_script_stack_t`. `items` lists `data[count-1], …, data[0]`, the top of
the stack first; a slot can hold NULL. The array has room for its items and grows
in whole blocks. -/
@[ext] structure ScriptStack where
  items : List (Option ScriptData)
  maxSize : Nat
  fits : items.length ≤ maxSize
  aligned : stackAllocSize ∣ maxSize
deriving DecidableEq, Repr

namespace ScriptStack

/-- `stack->count` -/
def count (stack : ScriptStack) : Nat := stack.items.length

/-- The zeroed record. -/
def zero : ScriptStack := ⟨[], 0, Nat.le_refl 0, Nat.dvd_zero _⟩

end ScriptStack

/-- The size `satoshi_script_stack_resize` allocates for a requested one. -/
def stackRoundUp (newSize : Nat) : Nat :=
  if newSize = 0 then stackAllocSize
  else (newSize + stackAllocSize - 1) / stackAllocSize * stackAllocSize

theorem le_stackRoundUp (newSize : Nat) : newSize ≤ stackRoundUp newSize := by
  unfold stackRoundUp stackAllocSize
  split_ifs <;> omega

theorem stackRoundUp_aligned (newSize : Nat) : stackAllocSize ∣ stackRoundUp newSize := by
  unfold stackRoundUp
  split_ifs
  · exact Nat.dvd_refl _
  · exact Nat.dvd_mul_left _ _

/-- Rounding up does not pass an aligned bound. -/
theorem stackRoundUp_le {newSize maxSize : Nat} (positive : 0 < newSize)
    (aligned : stackAllocSize ∣ maxSize) (fits : newSize ≤ maxSize) :
    stackRoundUp newSize ≤ maxSize := by
  obtain ⟨blocks, rfl⟩ := aligned
  unfold stackRoundUp stackAllocSize at *
  rw [if_neg (by omega)]
  omega

/-- `satoshi_script_stack_resize`: the requested size is rounded up to a multiple of
the allocation size. On growth, `memset` is applied from the start of the array
and not from its old end, so the oldest slots are overwritten with NULL. -/
def satoshiScriptStackResize (stack : ScriptStack) (newSize : Nat) : ScriptStack :=
  if enough : stackRoundUp newSize ≤ stack.maxSize then stack
  else
    let kept := stack.items.length - (stackRoundUp newSize - stack.maxSize)
    { items := stack.items.take kept ++ List.replicate (stack.items.length - kept) none
      maxSize := stackRoundUp newSize
      fits := by
        have old := stack.fits
        simp only [List.length_append, List.length_take, List.length_replicate]
        omega
      aligned := stackRoundUp_aligned newSize }

theorem satoshiScriptStackResize_of_fits {stack : ScriptStack} {newSize : Nat}
    (positive : 0 < newSize) (fits : newSize ≤ stack.maxSize) :
    satoshiScriptStackResize stack newSize = stack :=
  dif_pos (stackRoundUp_le positive stack.aligned fits)

theorem le_satoshiScriptStackResize_maxSize (stack : ScriptStack) (newSize : Nat) :
    newSize ≤ (satoshiScriptStackResize stack newSize).maxSize := by
  unfold satoshiScriptStackResize
  split_ifs with enough
  · exact Nat.le_trans (le_stackRoundUp newSize) enough
  · exact le_stackRoundUp newSize

@[simp] theorem satoshiScriptStackResize_count (stack : ScriptStack) (newSize : Nat) :
    (satoshiScriptStackResize stack newSize).items.length = stack.items.length := by
  unfold satoshiScriptStackResize
  split_ifs
  · rfl
  · simp only [List.length_append, List.length_take, List.length_replicate]
    omega

/-- `satoshi_script_stack_init(stack, 0, …)` -/
def satoshiScriptStackInit : ScriptStack := satoshiScriptStackResize .zero 0

/-- `stack_push`; its return code is always `0`. -/
def stackPush (stack : ScriptStack) (sdata : ScriptData) : ScriptStack :=
  let grown := satoshiScriptStackResize stack (stack.count + 1)
  { items := some sdata :: grown.items
    maxSize := grown.maxSize
    fits := by
      have room := le_satoshiScriptStackResize_maxSize stack (stack.count + 1)
      rw [List.length_cons, satoshiScriptStackResize_count]
      exact room
    aligned := grown.aligned }

/-- `stack_pop`: NULL when the stack is empty or the slot holds NULL. -/
def stackPop (stack : ScriptStack) : Option ScriptData × ScriptStack :=
  (stack.items.head?.join,
    { stack with
      items := stack.items.tail
      fits := Nat.le_trans (by simp) stack.fits })

/-- A push with a free slot left moves nothing. -/
theorem stackPush_items_of_room {stack : ScriptStack} (sdata : ScriptData)
    (room : stack.count < stack.maxSize) :
    (stackPush stack sdata).items = some sdata :: stack.items := by
  simp only [stackPush, satoshiScriptStackResize_of_fits (Nat.succ_pos _) room]

theorem stackPush_maxSize_of_room {stack : ScriptStack} (sdata : ScriptData)
    (room : stack.count < stack.maxSize) :
    (stackPush stack sdata).maxSize = stack.maxSize := by
  simp only [stackPush, satoshiScriptStackResize_of_fits (Nat.succ_pos _) room]

/-- A push adds its item and otherwise only loses some. -/
theorem stackPush_mem {stack : ScriptStack} {pushed sdata : ScriptData}
    (member : some sdata ∈ (stackPush stack pushed).items) :
    sdata = pushed ∨ some sdata ∈ stack.items := by
  rcases List.mem_cons.1 member with same | old
  · exact .inl (Option.some.inj same)
  · refine .inr ?_
    unfold satoshiScriptStackResize at old
    split_ifs at old
    · exact old
    · rcases List.mem_append.1 old with kept | cleared
      · exact List.mem_of_mem_take kept
      · cases (List.mem_replicate.1 cleared).2

/-- A full array is a whole number of blocks, and one more is allocated; the oldest block is
overwritten. -/
theorem satoshiScriptStackResize_of_full {stack : ScriptStack}
    (full : stack.count = stack.maxSize) :
    (satoshiScriptStackResize stack (stack.count + 1)).items =
        stack.items.take (stack.items.length - stackAllocSize) ++
          List.replicate (stack.items.length - (stack.items.length - stackAllocSize)) none ∧
      (satoshiScriptStackResize stack (stack.count + 1)).maxSize =
        stack.maxSize + stackAllocSize := by
  obtain ⟨blocks, aligned⟩ := stack.aligned
  have grown : stackRoundUp (stack.count + 1) = stack.maxSize + stackAllocSize := by
    unfold stackRoundUp stackAllocSize at *
    rw [if_neg (Nat.succ_ne_zero _)]
    omega
  unfold satoshiScriptStackResize
  rw [dif_neg (by rw [grown]; unfold stackAllocSize; omega)]
  simp only [grown, Nat.add_sub_cancel_left, and_self]

/-- What lies below a pushed item, down to one block: the former items, unless the array had
exactly one block and no free slot. Then growth overwrites the whole block. -/
theorem stackPush_getElem? {stack : ScriptStack} (sdata : ScriptData) {index : Nat}
    (recent : index < stackAllocSize) (inside : index < stack.items.length) :
    (stackPush stack sdata).items[index + 1]? =
      if stack.count = stackAllocSize ∧ stack.maxSize = stackAllocSize then some none
      else stack.items[index]? := by
  have fits := stack.fits
  have count : stack.count = stack.items.length := rfl
  by_cases room : stack.count < stack.maxSize
  · rw [stackPush_items_of_room sdata room, if_neg (by omega), List.getElem?_cons_succ]
  · obtain ⟨blocks, aligned⟩ := stack.aligned
    have full : stack.count = stack.maxSize := by omega
    have resized := (satoshiScriptStackResize_of_full full).1
    rw [stackPush, List.getElem?_cons_succ, resized]
    by_cases single : stack.items.length = stackAllocSize
    · rw [if_pos ⟨by omega, by omega⟩, single, Nat.sub_self, List.take_zero, List.nil_append,
        Nat.sub_zero, List.getElem?_replicate_of_lt recent]
    · have kept : index < stack.items.length - stackAllocSize := by
        unfold stackAllocSize at *
        omega
      rw [if_neg (fun both => single (count ▸ both.1)), List.getElem?_append_left
        (by rw [List.length_take]; omega), List.getElem?_take_of_lt kept]

/-- What lies below a pushed item is the former top. -/
theorem stackPush_below {stack : ScriptStack} {top : Option ScriptData}
    {rest : List (Option ScriptData)} (items : stack.items = top :: rest) (sdata : ScriptData) :
    (stackPush stack sdata).items[1]? =
      some (if stack.count = stackAllocSize ∧ stack.maxSize = stackAllocSize then none
        else top) := by
  have inside : 0 < stack.items.length := by
    rw [items]
    exact Nat.succ_pos _
  rw [stackPush_getElem? sdata (by decide) inside, items]
  split_ifs <;> rfl

@[simp] theorem stackPop_fst (stack : ScriptStack) :
    (stackPop stack).1 = stack.items.head?.join := rfl

@[simp] theorem stackPop_items (stack : ScriptStack) :
    (stackPop stack).2.items = stack.items.tail := rfl

@[simp] theorem stackPop_maxSize (stack : ScriptStack) :
    (stackPop stack).2.maxSize = stack.maxSize := rfl

end BitcoinClib.Script
