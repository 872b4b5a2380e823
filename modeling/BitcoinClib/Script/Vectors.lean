import BitcoinClib.Script.P2sh
import Mathlib.Data.List.Forall2

/-!
Contract: the script machine against Bitcoin's stack of byte vectors.

Owns:
- `ScriptWord`, the words without a branch, a signature or a verification of their
  own, with their encoding and their meaning on byte vectors;
- `ItemVector`, the byte vector an item of the stack stands for;
- `Regular`, the condition under which one word keeps to that meaning;
- the simulation of a sequence of words by `scripts_parse`.

The meaning on byte vectors is that of Bitcoin's script and not that of the source.
The two differ for the shared boolean constants, for empty strings, for small
integers that are hashed, and where the stack grows.
-/

namespace BitcoinClib.Script

open BitcoinClib.Lib
open BitcoinClib.Types
open BitcoinClib.Crypto
open BitcoinClib.Tx

/-! ## Words -/

/-- How the length of a push is announced. -/
inductive PushForm where
  | direct | pushdata1 | pushdata2 | pushdata4
deriving DecidableEq, Repr

namespace PushForm

/-- The lengths a form can announce. -/
def admits : PushForm → Nat → Prop
  | direct, length => 0 < length ∧ length < 0x4c
  | pushdata1, length => length < 256 ^ 1
  | pushdata2, length => length < 256 ^ 2
  | pushdata4, length => length < 256 ^ 4

/-- The opcode. -/
def opcode : PushForm → Nat → UInt8
  | direct, length => UInt8.ofNat length
  | pushdata1, _ => 0x4c
  | pushdata2, _ => 0x4d
  | pushdata4, _ => 0x4e

/-- The length field after the opcode. -/
def lengthField : PushForm → Nat → Bytes
  | direct, _ => []
  | pushdata1, length => leBytes 1 length
  | pushdata2, length => leBytes 2 length
  | pushdata4, length => leBytes 4 length

end PushForm

/-- A push whose form can announce its data. -/
structure DataPush where
  form : PushForm
  data : Bytes
  admitted : form.admits data.length

/-- The hash words. -/
inductive HashWord where
  | ripemd160 | sha256 | hash160 | hash256
deriving DecidableEq, Repr

namespace HashWord

def opcode : HashWord → UInt8
  | ripemd160 => 0xa6
  | sha256 => 0xa8
  | hash160 => 0xa9
  | hash256 => 0xaa

/-- The string a hash word leaves for a string. -/
def digest (crypto : CryptoBackend) : HashWord → Bytes → Bytes
  | ripemd160, data => (crypto.ripemd160 data).val
  | sha256, data => (crypto.sha256 data).val
  | hash160, data => (Crypto.hash160 crypto data).val
  | hash256, data => (Crypto.hash256 crypto data).val

end HashWord

/-- A word of a straight-line script. -/
inductive ScriptWord where
  | push (content : DataPush)
  | zero
  | smallInteger (value : UInt8) (range : 1 ≤ value ∧ value ≤ 16)
  | dup
  | equal
  | equalverify
  | hash (word : HashWord)

namespace ScriptWord

/-- The bytes of a word. -/
def encode : ScriptWord → Bytes
  | push ⟨form, data, _⟩ => form.opcode data.length :: (form.lengthField data.length ++ data)
  | zero => [0x00]
  | smallInteger value _ => [0x50 + value]
  | dup => [0x76]
  | equal => [0x87]
  | equalverify => [0x88]
  | hash word => [word.opcode]

/-- The meaning of a word on Bitcoin's stack, the top first; `none` is failure. -/
def eval (crypto : CryptoBackend) : ScriptWord → List Bytes → Option (List Bytes)
  | push content, vectors => some (content.data :: vectors)
  | zero, vectors => some ([] :: vectors)
  | smallInteger value _, vectors => some ([value] :: vectors)
  | dup, top :: vectors => some (top :: top :: vectors)
  | equal, first :: second :: vectors =>
      some ((if first = second then [1] else []) :: vectors)
  | equalverify, first :: second :: vectors => if first = second then some vectors else none
  | hash word, top :: vectors => some (word.digest crypto top :: vectors)
  | _, _ => none

/-- The words an input script may hold. -/
def isPush : ScriptWord → Prop
  | push _ | zero => True
  | _ => False

end ScriptWord

/-- The bytes of a sequence of words. -/
def encodeWords (words : List ScriptWord) : Bytes := words.flatMap ScriptWord.encode

/-- The meaning of a sequence of words. -/
def evalWords (crypto : CryptoBackend) : List ScriptWord → List Bytes → Option (List Bytes)
  | [], vectors => some vectors
  | word :: words, vectors => (word.eval crypto vectors).bind (evalWords crypto words)

/-! ## Items -/

/-- The byte vector Bitcoin's script assigns to an item. -/
inductive ItemVector : ScriptData → Bytes → Prop
  | pushed (data : Bytes) : ItemVector (satoshiScriptDataNewPtr data) data
  | smallInteger {value : UInt8} (range : 1 ≤ value ∧ value ≤ 16) :
      ItemVector (satoshiScriptDataNewUint8 value) [value]
  | isTrue (isStatic : Bool) : ItemVector ⟨.bool, .inline [1], 1, isStatic⟩ [1]
  | isFalse (isStatic : Bool) : ItemVector ⟨.bool, .inline [0], 1, isStatic⟩ []
  | hash160 (hash : Uint160) : ItemVector (satoshiScriptDataNewHash160 hash) hash.val
  | hash256 (hash : Uint256) : ItemVector (satoshiScriptDataNewHash256 hash) hash.val

/-- A slot that holds an item standing for a byte vector. -/
inductive SlotVector : Option ScriptData → Bytes → Prop
  | item {sdata : ScriptData} {vector : Bytes} (stands : ItemVector sdata vector) :
      SlotVector (some sdata) vector

/-- The slots stand for the byte vectors, position by position. -/
def Represents (slots : List (Option ScriptData)) (vectors : List Bytes) : Prop :=
  List.Forall₂ SlotVector slots vectors

theorem represents_cons {slots : List (Option ScriptData)} {vector : Bytes}
    {vectors : List Bytes} (represents : Represents slots (vector :: vectors)) :
    ∃ sdata rest, slots = some sdata :: rest ∧ ItemVector sdata vector ∧
      Represents rest vectors := by
  cases represents with
  | cons stands others =>
      cases stands with
      | item stands => exact ⟨_, _, rfl, stands, others⟩

namespace ScriptData

/-- The result of `OP_0` or of a failed comparison, or a copy of it. -/
def IsFalse (sdata : ScriptData) : Prop := sdata.type = .bool ∧ sdata.value = .inline [0]

instance (sdata : ScriptData) : Decidable sdata.IsFalse :=
  inferInstanceAs (Decidable (_ ∧ _))

/-- What the getter returns for the item is the byte vector it stands for. -/
def Hashable (sdata : ScriptData) : Prop := sdata.type ≠ .uint8 ∧ ¬ sdata.IsFalse

/-- The pushes that meet the constant false: its byte vector, and its byte in memory. -/
def MeetsFalse (sdata : ScriptData) : Prop :=
  sdata = satoshiScriptDataNewPtr [] ∨ sdata = satoshiScriptDataNewPtr [0]

/-- Two items whose comparison in memory is that of their byte vectors, and which can be
released afterwards. -/
structure Comparable (first second : ScriptData) : Prop where
  firstOwned : first.isStatic = false
  secondOwned : second.isStatic = false
  notBothEmpty : ¬ (first = satoshiScriptDataNewPtr [] ∧ second = satoshiScriptDataNewPtr [])
  firstFalse : first.IsFalse → ¬ second.MeetsFalse
  secondFalse : second.IsFalse → ¬ first.MeetsFalse

end ScriptData

theorem itemVector_boolean (verdict : Bool) :
    ItemVector (satoshiScriptDataNewBoolean verdict) (if verdict then [1] else []) := by
  cases verdict with
  | false => exact .isFalse true
  | true => exact .isTrue true

/-- The bytes the comparison and the hashes find in an item: those of its byte vector, except
for the constant false. -/
theorem scriptsDataGetPtr_of_itemVector {sdata : ScriptData} {vector : Bytes}
    (stands : ItemVector sdata vector) (notFalse : ¬ sdata.IsFalse) :
    scriptsDataGetPtr sdata = ((vector.length : Int), vector) := by
  cases stands with
  | pushed =>
      by_cases nonempty : 0 < vector.length
      · simp [scriptsDataGetPtr, satoshiScriptDataNewPtr, nonempty]
      · have empty : vector = [] := List.eq_nil_of_length_eq_zero (by omega)
        subst empty
        rfl
  | smallInteger => rfl
  | isTrue => rfl
  | isFalse => exact absurd ⟨rfl, rfl⟩ notFalse
  | hash160 hash =>
      have whole : unionBytes hash.val 20 = hash.val := by
        rw [unionBytes, List.take_left' hash.property]
      simp [scriptsDataGetPtr, satoshiScriptDataNewHash160, whole, hash.property]
  | hash256 hash =>
      have whole : unionBytes hash.val 32 = hash.val := by
        rw [unionBytes, List.take_left' hash.property]
      simp [scriptsDataGetPtr, satoshiScriptDataNewHash256, whole, hash.property]

theorem scriptsDataGetPtr_of_isFalse {sdata : ScriptData} {vector : Bytes}
    (stands : ItemVector sdata vector) (isFalse : sdata.IsFalse) :
    scriptsDataGetPtr sdata = (1, [0]) ∧ vector = [] := by
  cases stands with
  | pushed => exact nomatch isFalse.1
  | smallInteger => exact nomatch isFalse.1
  | isTrue => exact nomatch isFalse.2
  | isFalse => exact ⟨rfl, rfl⟩
  | hash160 => exact nomatch isFalse.1
  | hash256 => exact nomatch isFalse.1

/-- Apart from the constant false, only a push stands for the empty string or a zero byte. -/
theorem eq_newPtr_of_itemVector {sdata : ScriptData} {vector : Bytes}
    (stands : ItemVector sdata vector) (notFalse : ¬ sdata.IsFalse)
    (zeros : vector = [] ∨ vector = [0]) : sdata = satoshiScriptDataNewPtr vector := by
  cases stands with
  | pushed => rfl
  | @smallInteger value range =>
      have isZero : value = 0 := by simpa using zeros
      subst isZero
      exact absurd range.1 (by decide)
  | isTrue => simp at zeros
  | isFalse => exact absurd ⟨rfl, rfl⟩ notFalse
  | hash160 hash =>
      have width := hash.property
      rcases zeros with empty | single
      · simp [empty] at width
      · simp [single] at width
  | hash256 hash =>
      have width := hash.property
      rcases zeros with empty | single
      · simp [empty] at width
      · simp [single] at width

theorem satoshiScriptDataGet_of_itemVector {sdata : ScriptData} {vector : Bytes}
    (stands : ItemVector sdata vector) (hashable : sdata.Hashable) :
    satoshiScriptDataGet sdata = .ok (some vector) := by
  cases stands with
  | pushed =>
      by_cases nonempty : 0 < vector.length
      · simp [satoshiScriptDataGet, satoshiScriptDataNewPtr, nonempty]
      · have empty : vector = [] := List.eq_nil_of_length_eq_zero (by omega)
        subst empty
        rfl
  | smallInteger => exact absurd rfl hashable.1
  | isTrue => rfl
  | isFalse => exact absurd ⟨rfl, rfl⟩ hashable.2
  | hash160 hash =>
      have whole : hash.val.take 20 = hash.val := List.take_of_length_le (by rw [hash.property])
      simp [satoshiScriptDataGet, satoshiScriptDataNewHash160, whole]
  | hash256 hash =>
      have whole : hash.val.take 32 = hash.val := List.take_of_length_le (by rw [hash.property])
      simp [satoshiScriptDataGet, satoshiScriptDataNewHash256, whole]

/-- A copy stands for the same byte vector; an empty string has no copy. -/
theorem satoshiScriptDataClone_of_itemVector {sdata : ScriptData} {vector : Bytes}
    (stands : ItemVector sdata vector) (nonempty : sdata ≠ satoshiScriptDataNewPtr []) :
    ∃ copy, satoshiScriptDataClone sdata = .ok copy ∧ ItemVector copy vector := by
  cases stands with
  | pushed =>
      have positive : 0 < vector.length := by
        refine List.length_pos_iff.2 fun empty => nonempty ?_
        rw [empty]
      refine ⟨satoshiScriptDataNewPtr vector, ?_, .pushed vector⟩
      rw [← satoshiScriptDataSet_pointer]
      simp [satoshiScriptDataClone, satoshiScriptDataNewPtr, ScriptData.dataPtr, positive]
  | smallInteger range => exact ⟨_, rfl, .smallInteger range⟩
  | isTrue => exact ⟨_, rfl, .isTrue false⟩
  | isFalse => exact ⟨_, rfl, .isFalse false⟩
  | hash160 hash => exact ⟨_, rfl, .hash160 hash⟩
  | hash256 hash => exact ⟨_, rfl, .hash256 hash⟩

/-- The comparison finds equal strings equal, unless they are empty. -/
theorem satoshiScriptDataCompare_of_bytes {first second : ScriptData} (left right : Bytes)
    (firstBytes : scriptsDataGetPtr first = ((left.length : Int), left))
    (secondBytes : scriptsDataGetPtr second = ((right.length : Int), right)) :
    ∃ rc, satoshiScriptDataCompare (some first) (some second) = .ok rc ∧
      (rc = 0 ↔ left = right ∧ left ≠ []) := by
  simp only [satoshiScriptDataCompare, firstBytes, secondBytes]
  split_ifs with differ
  · refine ⟨-1, rfl, ?_⟩
    constructor
    · intro impossible
      cases impossible
    · rintro ⟨rfl, nonempty⟩
      have positive := List.length_pos_iff.2 nonempty
      omega
  · have sameLength : left.length = right.length := by omega
    have nonempty : left ≠ [] := List.length_pos_iff.1 (by omega)
    exact ⟨_, rfl, (memcmp_eq_zero sameLength).trans ⟨fun same => ⟨same, nonempty⟩, And.left⟩⟩

/-- The comparison of comparable items is that of their byte vectors. -/
theorem satoshiScriptDataCompare_of_itemVector {first second : ScriptData} {left right : Bytes}
    (firstStands : ItemVector first left) (secondStands : ItemVector second right)
    (comparable : first.Comparable second) :
    ∃ rc, satoshiScriptDataCompare (some first) (some second) = .ok rc ∧
      (rc = 0 ↔ left = right) := by
  by_cases firstFalse : first.IsFalse
  · obtain ⟨firstBytes, rfl⟩ := scriptsDataGetPtr_of_isFalse firstStands firstFalse
    by_cases secondFalse : second.IsFalse
    · obtain ⟨secondBytes, rfl⟩ := scriptsDataGetPtr_of_isFalse secondStands secondFalse
      obtain ⟨rc, compares, verdict⟩ :=
        satoshiScriptDataCompare_of_bytes [0] [0] firstBytes secondBytes
      exact ⟨rc, compares, by simp [verdict]⟩
    · have secondBytes := scriptsDataGetPtr_of_itemVector secondStands secondFalse
      obtain ⟨rc, compares, verdict⟩ :=
        satoshiScriptDataCompare_of_bytes [0] right firstBytes secondBytes
      have notZeros : ¬ (right = [] ∨ right = [0]) := by
        intro zeros
        have isPush := eq_newPtr_of_itemVector secondStands secondFalse zeros
        apply comparable.firstFalse firstFalse
        rcases zeros with rfl | rfl
        · exact .inl isPush
        · exact .inr isPush
      refine ⟨rc, compares, verdict.trans ⟨?_, ?_⟩⟩
      · rintro ⟨same, -⟩
        exact absurd (.inr same.symm) notZeros
      · intro same
        exact absurd (.inl same.symm) notZeros
  · have firstBytes := scriptsDataGetPtr_of_itemVector firstStands firstFalse
    by_cases secondFalse : second.IsFalse
    · obtain ⟨secondBytes, rfl⟩ := scriptsDataGetPtr_of_isFalse secondStands secondFalse
      obtain ⟨rc, compares, verdict⟩ :=
        satoshiScriptDataCompare_of_bytes left [0] firstBytes secondBytes
      have notZeros : ¬ (left = [] ∨ left = [0]) := by
        intro zeros
        have isPush := eq_newPtr_of_itemVector firstStands firstFalse zeros
        apply comparable.secondFalse secondFalse
        rcases zeros with rfl | rfl
        · exact .inl isPush
        · exact .inr isPush
      refine ⟨rc, compares, verdict.trans ⟨?_, ?_⟩⟩
      · rintro ⟨same, -⟩
        exact absurd (.inr same) notZeros
      · intro same
        exact absurd (.inl same) notZeros
    · have secondBytes := scriptsDataGetPtr_of_itemVector secondStands secondFalse
      obtain ⟨rc, compares, verdict⟩ :=
        satoshiScriptDataCompare_of_bytes left right firstBytes secondBytes
      refine ⟨rc, compares, verdict.trans ⟨And.left, fun same => ⟨same, ?_⟩⟩⟩
      rintro rfl
      refine comparable.notBothEmpty ⟨eq_newPtr_of_itemVector firstStands firstFalse (.inl rfl), ?_⟩
      rw [eq_newPtr_of_itemVector secondStands secondFalse (.inl same.symm), ← same]

/-! ## Regular steps -/

namespace ScriptState

/-- A push moves nothing: there is a free slot, or no item yet. -/
def HasRoom (state : ScriptState) : Prop :=
  state.mainStack.count < state.mainStack.maxSize ∨ state.mainStack.count = 0

theorem push_items_of_hasRoom {state : ScriptState} (sdata : ScriptData)
    (room : state.HasRoom) : (state.push sdata).items = some sdata :: state.items := by
  rcases room with free | empty
  · exact push_items_of_room sdata free
  · have noItems : state.items = [] := List.eq_nil_of_length_eq_zero empty
    have count := satoshiScriptStackResize_count state.mainStack (state.mainStack.count + 1)
    have noSlots : (satoshiScriptStackResize state.mainStack
        (state.mainStack.count + 1)).items = [] :=
      List.eq_nil_of_length_eq_zero (count.trans empty)
    rw [noItems, ← noSlots]
    rfl

end ScriptState

/-- The condition on the state before a word under which the word keeps to its meaning. -/
def ScriptWord.Regular (state : ScriptState) : ScriptWord → Prop
  | push content => content.form ≠ .pushdata4 ∧ state.HasRoom
  | zero | smallInteger _ _ => state.HasRoom
  | dup => state.HasRoom ∧ state.items.head? ≠ some (some (satoshiScriptDataNewPtr []))
  | equal => 2 ≤ state.mainStack.count ∧
      ∀ first second rest, state.items = some first :: some second :: rest →
        first.Comparable second
  | equalverify => ∀ first second rest, state.items = some first :: some second :: rest →
      first.Comparable second
  | hash _ => ∀ sdata, state.items.head? = some (some sdata) → sdata.Hashable

section Step

variable {env : ScriptEnv} {type : TxScriptType} {fuel : Nat} {p : Bytes}
  {state : ScriptState} {vectors : List Bytes}

/-- A push whose length is announced after the opcode. -/
theorem parseLoop_announcedPush (op : UInt8) {width : Nat} {data : Bytes}
    (nonzero : op ≠ 0) (short : op < 0x4e)
    (reads : ∀ q : Bytes, width ≤ q.length →
      pushDataSize op q = some (leValue (q.take width), width))
    (admitted : data.length < 256 ^ width) :
    parseLoop env type (fuel + 1) none (op :: (leBytes width data.length ++ data ++ p)) state =
      parseLoop env type fuel none p (state.push (satoshiScriptDataNewPtr data)) := by
  have field : leValue ((leBytes width data.length ++ (data ++ p)).take width) = data.length := by
    rw [List.take_left' (leBytes_length width _)]
    exact leValue_leBytes width _ admitted
  have announced : pushDataSize op (leBytes width data.length ++ (data ++ p)) =
      some (data.length, width) := by
    rw [reads _ (by simp), field]
  have rest : (leBytes width data.length ++ (data ++ p)).drop width = data ++ p :=
    List.drop_left' (leBytes_length width _)
  have after : (leBytes width data.length ++ (data ++ p)).drop (width + data.length) = p := by
    rw [← List.drop_drop, rest, List.drop_left]
  have pushed : parseOpPushData op (leBytes width data.length ++ (data ++ p)) state =
      (some (width + data.length), state.push (satoshiScriptDataNewPtr data)) := by
    simp [parseOpPushData, announced, rest]
  have notLong : op ≠ 0x4e := UInt8.ne_of_lt short
  rw [List.append_assoc]
  simp [parseLoop, parseByte, nonzero, UInt8.le_of_lt short, notLong, pushed, after]

theorem parseLoop_pushWord (content : DataPush) (short : content.form ≠ .pushdata4) :
    parseLoop env type (fuel + 1) none ((ScriptWord.push content).encode ++ p) state =
      parseLoop env type fuel none p (state.push (satoshiScriptDataNewPtr content.data)) := by
  obtain ⟨form, data, admitted⟩ := content
  cases form with
  | direct =>
      have opcode : (UInt8.ofNat data.length).toNat = data.length := by
        rw [UInt8.toNat_ofNat']
        exact Nat.mod_eq_of_lt (by have := admitted.2; omega)
      have nonzero : UInt8.ofNat data.length ≠ 0 := by
        intro isZero
        rw [isZero] at opcode
        exact absurd admitted.1 (by rw [← opcode]; decide)
      have direct : UInt8.ofNat data.length < 0x4c := by
        rw [UInt8.lt_iff_toNat_lt, opcode]
        exact admitted.2
      exact parseLoop_push nonzero direct opcode.symm
  | pushdata1 =>
      have reads : ∀ q : Bytes, 1 ≤ q.length →
          pushDataSize 0x4c q = some (leValue (q.take 1), 1) := by
        intro q enough
        rw [pushDataSize, if_pos rfl, if_neg (by omega)]
      exact parseLoop_announcedPush 0x4c (by decide) (by decide) reads admitted
  | pushdata2 =>
      have reads : ∀ q : Bytes, 2 ≤ q.length →
          pushDataSize 0x4d q = some (leValue (q.take 2), 2) := by
        intro q enough
        rw [pushDataSize, if_neg (by decide), if_pos rfl, if_neg (by omega)]
      exact parseLoop_announcedPush 0x4d (by decide) (by decide) reads admitted
  | pushdata4 => exact absurd rfl short

theorem parseLoop_smallIntegerWord {value : UInt8} (range : 1 ≤ value ∧ value ≤ 16)
    (notTxin : type ≠ .txin) :
    parseLoop env type (fuel + 1) none ((ScriptWord.smallInteger value range).encode ++ p)
        state =
      parseLoop env type fuel none p (state.push (satoshiScriptDataNewUint8 value)) := by
  have low : 1 ≤ value.toNat := UInt8.le_iff_toNat_le.1 range.1
  have high : value.toNat ≤ 16 := UInt8.le_iff_toNat_le.1 range.2
  have opcode : (0x50 + value).toNat = 0x50 + value.toNat := by
    rw [UInt8.toNat_add]
    exact Nat.mod_eq_of_lt (by change 0x50 + value.toNat < 256; omega)
  have nonzero : 0x50 + value ≠ 0 := by
    intro isZero
    rw [isZero] at opcode
    exact absurd opcode (by change 0 ≠ 0x50 + value.toNat; omega)
  have notPush : ¬ 0x50 + value ≤ 0x4e := by
    rw [UInt8.le_iff_toNat_le, opcode]
    show ¬ 0x50 + value.toNat ≤ 0x4e
    omega
  have inRange : 0x51 ≤ 0x50 + value ∧ 0x50 + value ≤ 0x60 := by
    rw [UInt8.le_iff_toNat_le, UInt8.le_iff_toNat_le, opcode]
    show 0x51 ≤ 0x50 + value.toNat ∧ 0x50 + value.toNat ≤ 0x60
    omega
  have decoded : 0x50 + value - 0x50 = value := by
    rw [UInt8.add_comm, UInt8.add_sub_cancel]
  simp [ScriptWord.encode, parseLoop, parseByte, nonzero, notPush, inRange, decoded, notTxin]

/-- What a step of the loop over a word is to do: go on from a state that represents the result
of the word, or fail where the word has none. -/
def StepSimulates (env : ScriptEnv) (type : TxScriptType) (word : ScriptWord)
    (state : ScriptState) (vectors : List Bytes) : Prop :=
  match word.eval env.crypto vectors with
  | some result => ∃ after, Represents after.items result ∧ ∀ fuel p,
      parseLoop env type (fuel + 1) none (word.encode ++ p) state =
        parseLoop env type fuel none p after
  | none => ∃ after, ∀ fuel p,
      parseLoop env type (fuel + 1) none (word.encode ++ p) state = .ok (false, after)

/-- A word that pushes one item. -/
theorem represents_push {sdata : ScriptData} {vector : Bytes}
    (represents : Represents state.items vectors) (stands : ItemVector sdata vector)
    (room : state.HasRoom) : Represents (state.push sdata).items (vector :: vectors) := by
  rw [ScriptState.push_items_of_hasRoom sdata room]
  exact .cons (.item stands) represents

/-- The result of a word takes the place of its operand. -/
theorem represents_dropTop_push {sdata : ScriptData} {slot : Option ScriptData}
    {rest : List (Option ScriptData)} {vector : Bytes}
    (items : state.items = slot :: rest) (represents : Represents rest vectors)
    (stands : ItemVector sdata vector) :
    Represents (state.dropTop.push sdata).items (vector :: vectors) := by
  rw [(ScriptState.dropTop_push items sdata).1]
  exact .cons (.item stands) represents

/-- A word above the small integers that goes on. -/
theorem parseLoop_word_ok {op : UInt8} {run : Exec (Int × ScriptState)} {after : ScriptState}
    (notTxin : type ≠ .txin) (word : 0x60 < op)
    (dispatch : ∀ parse origin p, parseOpcode parse env (.ofByte op) origin p state =
      ofReturnCode run) (returns : run = .ok (0, after)) :
    parseLoop env type (fuel + 1) none ([op] ++ p) state =
      parseLoop env type fuel none p after := by
  rw [List.singleton_append, parseLoop_word notTxin word fun parse origin => dispatch parse origin p,
    returns]
  rfl

/-- A word above the small integers that fails. -/
theorem parseLoop_word_failed {op : UInt8} {run : Exec (Int × ScriptState)}
    {after : ScriptState} {rc : Int} (notTxin : type ≠ .txin) (word : 0x60 < op)
    (dispatch : ∀ parse origin p, parseOpcode parse env (.ofByte op) origin p state =
      ofReturnCode run) (returns : run = .ok (rc, after)) (failed : rc ≠ 0) :
    parseLoop env type (fuel + 1) none ([op] ++ p) state = .ok (false, after) := by
  rw [List.singleton_append, parseLoop_word notTxin word fun parse origin => dispatch parse origin p,
    returns, Exec.ok_bind, if_neg failed]

theorem parseOpcode_hash (word : HashWord) (parse : ParseCall) (origin : Option Nat) (p : Bytes) :
    ∃ opcode, parseOpcode parse env (.ofByte word.opcode) origin p state =
        ofReturnCode (parseOpHash env opcode state) ∧
      opcode = .ofByte word.opcode := by
  cases word <;> exact ⟨_, rfl, rfl⟩

/-- A hash word pushes the digest of the bytes it read. -/
theorem hashItem_stands (crypto : CryptoBackend) (word : HashWord) (data : Bytes) :
    ∃ sdata, hashItem crypto (.ofByte word.opcode) data = some sdata ∧
      ItemVector sdata (word.digest crypto data) := by
  cases word with
  | ripemd160 => exact ⟨_, rfl, .hash160 _⟩
  | sha256 => exact ⟨_, rfl, .hash256 _⟩
  | hash160 => exact ⟨_, rfl, .hash160 _⟩
  | hash256 => exact ⟨_, rfl, .hash256 _⟩

theorem stepSimulates_hash (word : HashWord) (notTxin : type ≠ .txin)
    (represents : Represents state.items vectors)
    (regular : (ScriptWord.hash word).Regular state) :
    StepSimulates env type (.hash word) state vectors := by
  have above : 0x60 < word.opcode := by cases word <;> decide
  have dispatch : ∀ parse origin p,
      parseOpcode parse env (.ofByte word.opcode) origin p state =
        ofReturnCode (parseOpHash env (.ofByte word.opcode) state) := by
    intro parse origin p
    obtain ⟨_, same, rfl⟩ := parseOpcode_hash word parse origin p
    exact same
  cases vectors with
  | nil =>
      have items : state.items = [] := List.forall₂_nil_right_iff.1 represents
      refine ⟨state.dropTop, fun fuel p => ?_⟩
      refine parseLoop_word_failed notTxin above dispatch ?_ (by decide : (-1 : Int) ≠ 0)
      rw [parseOpHash, ScriptState.pop_nil items]
  | cons top vectors =>
      obtain ⟨sdata, rest, items, stands, others⟩ := represents_cons represents
      have hashable : sdata.Hashable := regular sdata (by rw [items]; rfl)
      obtain ⟨hash, hashes, hashStands⟩ := hashItem_stands env.crypto word top
      refine ⟨state.dropTop.push hash, represents_dropTop_push items others hashStands,
        fun fuel p => ?_⟩
      apply parseLoop_word_ok notTxin above dispatch
      rw [parseOpHash, ScriptState.pop_cons items]
      simp [satoshiScriptDataGet_of_itemVector stands hashable, hashes]

theorem stepSimulates_dup (notTxin : type ≠ .txin)
    (represents : Represents state.items vectors) (regular : ScriptWord.dup.Regular state) :
    StepSimulates env type .dup state vectors := by
  obtain ⟨room, nonempty⟩ := regular
  cases vectors with
  | nil =>
      have items : state.mainStack.items = [] := List.forall₂_nil_right_iff.1 represents
      refine ⟨state, fun fuel p => ?_⟩
      refine parseLoop_word_failed notTxin (by decide) (fun _ _ _ => rfl) ?_
        (by decide : (-1 : Int) ≠ 0)
      rw [parseOpDup, items]
  | cons top vectors =>
      obtain ⟨sdata, rest, items, stands, others⟩ := represents_cons represents
      have slots : state.mainStack.items = some sdata :: rest := items
      have copied : sdata ≠ satoshiScriptDataNewPtr [] := by
        rintro rfl
        exact nonempty (by rw [items]; rfl)
      obtain ⟨copy, clones, copyStands⟩ := satoshiScriptDataClone_of_itemVector stands copied
      refine ⟨state.push copy, represents_push represents copyStands room, fun fuel p => ?_⟩
      apply parseLoop_word_ok notTxin (by decide) (fun _ _ _ => rfl)
      rw [parseOpDup, slots]
      simp [clones]

/-- Two operands: the comparison is that of their byte vectors, and both are popped. -/
theorem parseOpEqualverify_of_itemVector {first second : ScriptData}
    {rest : List (Option ScriptData)} {left right : Bytes}
    (items : state.items = some first :: some second :: rest)
    (firstStands : ItemVector first left) (secondStands : ItemVector second right)
    (comparable : first.Comparable second) :
    ∃ rc, parseOpEqualverify state = .ok (rc, state.dropTop.dropTop) ∧
      (rc = 0 ↔ left = right) := by
  obtain ⟨rc, compares, verdict⟩ :=
    satoshiScriptDataCompare_of_itemVector firstStands secondStands comparable
  have enough : ¬ state.mainStack.count < 2 := by
    rw [ScriptState.mainStack_count, items]
    simp
  have next : state.dropTop.items = some second :: rest := by
    rw [ScriptState.dropTop_items, items]
    rfl
  refine ⟨rc, ?_, verdict⟩
  rw [parseOpEqualverify, if_neg enough, ScriptState.pop_cons items]
  simp only [ScriptState.pop_cons next, compares, Exec.ok_bind, Exec.deref_some, freeItem,
    comparable.firstOwned, comparable.secondOwned]
  rfl

/-- Fewer than two operands. -/
theorem parseOpEqualverify_of_count (few : state.mainStack.count < 2) :
    parseOpEqualverify state = .ok (-1, state) := by
  rw [parseOpEqualverify, if_pos few]

theorem stepSimulates_equalverify (notTxin : type ≠ .txin)
    (represents : Represents state.items vectors)
    (regular : ScriptWord.equalverify.Regular state) :
    StepSimulates env type .equalverify state vectors := by
  have failing : vectors.length < 2 → ∀ fuel p,
      parseLoop env type (fuel + 1) none (ScriptWord.equalverify.encode ++ p) state =
        .ok (false, state) := by
    intro few fuel p
    have count : state.mainStack.count < 2 := by
      rw [ScriptState.mainStack_count, represents.length_eq]
      exact few
    exact parseLoop_word_failed notTxin (by decide) (fun _ _ _ => rfl)
      (parseOpEqualverify_of_count count) (by decide : (-1 : Int) ≠ 0)
  match vectors, represents with
  | [], _ => exact ⟨state, failing (by decide)⟩
  | [_], _ => exact ⟨state, failing (by simp)⟩
  | left :: right :: vectors, represents =>
      obtain ⟨first, below, items, firstStands, others⟩ := represents_cons represents
      obtain ⟨second, rest, rfl, secondStands, others⟩ := represents_cons others
      obtain ⟨rc, returns, verdict⟩ := parseOpEqualverify_of_itemVector items firstStands
        secondStands (regular first second rest items)
      by_cases same : left = right
      · have meaning : ScriptWord.equalverify.eval env.crypto (left :: right :: vectors) =
            some vectors := if_pos same
        rw [StepSimulates, meaning]
        refine ⟨state.dropTop.dropTop, ?_, fun fuel p => ?_⟩
        · rw [ScriptState.dropTop_items, ScriptState.dropTop_items, items]
          exact others
        · exact parseLoop_word_ok notTxin (by decide) (fun _ _ _ => rfl)
            (by rw [returns, verdict.2 same])
      · have meaning : ScriptWord.equalverify.eval env.crypto (left :: right :: vectors) =
            none := if_neg same
        rw [StepSimulates, meaning]
        exact ⟨_, fun fuel p => parseLoop_word_failed notTxin (by decide)
          (fun _ _ _ => rfl) returns fun isZero => same (verdict.1 isZero)⟩

theorem stepSimulates_equal (notTxin : type ≠ .txin)
    (represents : Represents state.items vectors) (regular : ScriptWord.equal.Regular state) :
    StepSimulates env type .equal state vectors := by
  obtain ⟨enough, comparable⟩ := regular
  rw [ScriptState.mainStack_count, represents.length_eq] at enough
  match vectors, represents with
  | [], _ => exact absurd enough (by decide)
  | [_], _ => exact absurd enough (by simp)
  | left :: right :: vectors, represents =>
      obtain ⟨first, below, items, firstStands, others⟩ := represents_cons represents
      obtain ⟨second, rest, rfl, secondStands, others⟩ := represents_cons others
      obtain ⟨rc, returns, verdict⟩ := parseOpEqualverify_of_itemVector items firstStands
        secondStands (comparable first second rest items)
      have next : state.dropTop.items = some second :: rest := by
        rw [ScriptState.dropTop_items, items]
        rfl
      have stands := itemVector_boolean (decide (rc = 0))
      simp only [decide_eq_true_eq, verdict] at stands
      refine ⟨_, represents_dropTop_push next others stands, fun fuel p => ?_⟩
      apply parseLoop_word_ok notTxin (by decide) (fun _ _ _ => rfl)
      rw [parseOpEqual, returns]
      simp [verdict]

/-- Every word keeps to its meaning from a regular state. -/
theorem stepSimulates_of_regular (word : ScriptWord) (allowed : type = .txin → word.isPush)
    (represents : Represents state.items vectors) (regular : word.Regular state) :
    StepSimulates env type word state vectors := by
  cases word with
  | push content =>
      exact ⟨_, represents_push represents (.pushed content.data) regular.2,
        fun fuel p => parseLoop_pushWord content regular.1⟩
  | zero => exact ⟨_, represents_push represents (.isFalse true) regular, fun fuel p => rfl⟩
  | smallInteger value range =>
      exact ⟨_, represents_push represents (.smallInteger range) regular,
        fun fuel p => parseLoop_smallIntegerWord range allowed⟩
  | dup => exact stepSimulates_dup allowed represents regular
  | equal => exact stepSimulates_equal allowed represents regular
  | equalverify => exact stepSimulates_equalverify allowed represents regular
  | hash word => exact stepSimulates_hash word allowed represents regular

end Step

/-! ## Runs -/

/-- The loop over a sequence of words ends in a state. -/
def Reaches (env : ScriptEnv) (type : TxScriptType) (words : List ScriptWord)
    (state reached : ScriptState) : Prop :=
  ∃ fuel, parseLoop env type fuel none (encodeWords words) state = .ok (true, reached)

/-- Every word meets its condition in the state the words before it lead to. -/
def RegularRun (env : ScriptEnv) (type : TxScriptType) (words : List ScriptWord)
    (state : ScriptState) : Prop :=
  ∀ before word rest reached, words = before ++ word :: rest →
    Reaches env type before state reached → word.Regular reached

/-- The script is handed to the opcode loop as it is: it holds a word; an input script only
pushes and does not start with the word that marks a redeem script; an output script is no
witness program and carries no witness, unless its input is already known to be P2SH. -/
def EntersLoop (env : ScriptEnv) (words : List ScriptWord) (state : ScriptState) :
    TxScriptType → Prop
  | .unknown => encodeWords words ≠ []
  | .txin => encodeWords words ≠ [] ∧ (encodeWords words).headD 0 ≠ 0 ∧
      ∀ word ∈ words, word.isPush
  | .txout => encodeWords words ≠ [] ∧ env.txinIndex < env.tx.txins.length ∧
      (state.txin.isP2sh = true ∨
        16 < (encodeWords words).headD 0 ∧ flaggedWitnessItems env = .ok [])

/-- The state in which such a script enters the loop: an output script may become the redeem
script of its input. -/
def loopEntry (words : List ScriptWord) (state : ScriptState) : TxScriptType → ScriptState
  | .unknown | .txin => state
  | .txout =>
      if state.txin.isP2sh then state
      else
        let redeemScripts := state.txin.redeemScripts.getD (encodeWords words)
        { state with txin := { state.txin with redeemScripts := some redeemScripts } }

theorem loopEntry_items (words : List ScriptWord) (state : ScriptState) (type : TxScriptType) :
    (loopEntry words state type).items = state.items := by
  cases type with
  | unknown => rfl
  | txin => rfl
  | txout =>
      rw [loopEntry]
      split <;> rfl

/-- Executing the words succeeds exactly when they have a result on the byte vectors, and then
the stack stands for that result. -/
structure SimulatesVectors (env : ScriptEnv) (type : TxScriptType) (words : List ScriptWord)
    (state : ScriptState) (vectors : List Bytes) : Prop where
  succeeds : (∃ after, scriptsParse env type (encodeWords words) state =
      .ok ((encodeWords words).length, after)) ↔
    ∃ result, evalWords env.crypto words vectors = some result
  abstracts : ∀ after, scriptsParse env type (encodeWords words) state =
      .ok ((encodeWords words).length, after) →
    ∃ result, evalWords env.crypto words vectors = some result ∧
      Represents after.items result

section Run

variable {env : ScriptEnv} {type : TxScriptType} {words : List ScriptWord} {fuel : Nat}
  {state : ScriptState} {vectors : List Bytes}

/-- The loop over regular words: a result on the byte vectors is represented at the end of the
script, and no result is the error label. -/
theorem parseLoop_simulates (enough : words.length < fuel)
    (allowed : type = .txin → ∀ word ∈ words, word.isPush)
    (represents : Represents state.items vectors) (regular : RegularRun env type words state) :
    match evalWords env.crypto words vectors with
    | some result => ∃ after, Represents after.items result ∧
        parseLoop env type fuel none (encodeWords words) state = .ok (true, after)
    | none => ∃ after,
        parseLoop env type fuel none (encodeWords words) state = .ok (false, after) := by
  induction words generalizing fuel state vectors with
  | nil =>
      obtain ⟨fuel, rfl⟩ : ∃ spare, fuel = spare + 1 := ⟨fuel - 1, by simp at enough; omega⟩
      exact ⟨state, represents, rfl⟩
  | cons word words inductionHypothesis =>
      rw [List.length_cons] at enough
      obtain ⟨fuel, rfl⟩ : ∃ spare, fuel = spare + 1 := ⟨fuel - 1, by omega⟩
      rw [Nat.add_lt_add_iff_right] at enough
      have wordRegular : word.Regular state := regular [] word words state rfl ⟨1, rfl⟩
      have step : StepSimulates env type word state vectors := stepSimulates_of_regular word
        (fun txin => allowed txin word (by simp)) represents wordRegular
      rw [evalWords]
      cases meaning : word.eval env.crypto vectors with
      | none =>
          rw [StepSimulates, meaning] at step
          obtain ⟨after, fails⟩ := step
          exact ⟨after, fails fuel (encodeWords words)⟩
      | some result =>
          rw [StepSimulates, meaning] at step
          obtain ⟨after, afterRepresents, continues⟩ := step
          have restRegular : RegularRun env type words after := by
            intro before next rest reached split reaches
            obtain ⟨spare, reaches⟩ := reaches
            refine regular (word :: before) next rest reached (by rw [split]; rfl)
              ⟨spare + 1, ?_⟩
            rw [encodeWords, List.flatMap_cons, continues]
            exact reaches
          have rest := inductionHypothesis enough
            (fun txin next member => allowed txin next (List.mem_cons_of_mem _ member))
            afterRepresents restRegular
          have unfolded : parseLoop env type (fuel + 1) none (encodeWords (word :: words)) state =
              parseLoop env type fuel none (encodeWords words) after :=
            continues fuel (encodeWords words)
          rw [unfolded]
          exact rest

theorem ScriptWord.encode_length (word : ScriptWord) : 0 < word.encode.length := by
  cases word <;> exact Nat.succ_pos _

theorem length_le_encodeWords (words : List ScriptWord) :
    words.length ≤ (encodeWords words).length := by
  induction words with
  | nil => exact Nat.le_refl 0
  | cons word words inductionHypothesis =>
      have nonempty := word.encode_length
      rw [encodeWords, List.flatMap_cons, List.length_append, List.length_cons]
      rw [encodeWords] at inductionHypothesis
      omega

/-- What `scripts_parse` makes of the result of the loop. -/
theorem scriptsParse_of_entersLoop (enters : EntersLoop env words state type)
    {finished : Bool} {after : ScriptState}
    (loop : parseLoop env type ((encodeWords words).length + 1) none (encodeWords words)
      (loopEntry words state type) = .ok (finished, after)) :
    scriptsParse env type (encodeWords words) state =
      .ok (parsedLength (encodeWords words) finished, after) := by
  cases type with
  | unknown =>
      have nonempty : encodeWords words ≠ [] := enters
      rw [loopEntry] at loop
      rw [scriptsParse, scriptsParseUnknown, Exec.assert_of nonempty, Exec.ok_bind, loop]
      rfl
  | txin =>
      obtain ⟨nonempty, notMarked, -⟩ := enters
      rw [loopEntry] at loop
      rw [scriptsParse, scriptsParseTxin, Exec.assert_of nonempty, Exec.ok_bind]
      simp only [notMarked, decide_false, Bool.false_eq_true, if_false, loop, Exec.ok_bind]
      cases finished <;> rfl
  | txout =>
      obtain ⟨nonempty, inside, entry⟩ := enters
      rw [scriptsParse, scriptsParseTxout, Exec.assert_of nonempty, Exec.ok_bind,
        txoutScriptsPreProcess, Exec.assert_of inside, Exec.ok_bind]
      by_cases isP2sh : state.txin.isP2sh = true
      · rw [loopEntry, if_pos isP2sh] at loop
        rw [if_pos isP2sh]
        simp only [Exec.pure_eq, Exec.ok_bind, loop]
      · obtain ⟨above, noWitness⟩ := entry.resolve_left isP2sh
        rw [loopEntry, if_neg isP2sh] at loop
        rw [if_neg isP2sh, noWitness, Exec.ok_bind, if_pos above, if_pos rfl]
        simp only [Exec.pure_eq, Exec.ok_bind, loop]

theorem EntersLoop.allowed (enters : EntersLoop env words state type) :
    type = .txin → ∀ word ∈ words, word.isPush := by
  rintro rfl
  exact enters.2.2

/-- A sequence of words that enters the loop and meets the condition of each of its words is
executed on the byte vectors. -/
theorem scriptsParse_simulatesVectors (enters : EntersLoop env words state type)
    (represents : Represents state.items vectors)
    (regular : RegularRun env type words (loopEntry words state type)) :
    SimulatesVectors env type words state vectors := by
  have entryRepresents : Represents (loopEntry words state type).items vectors := by
    rw [loopEntry_items]
    exact represents
  have enough : words.length < (encodeWords words).length + 1 :=
    Nat.lt_succ_of_le (length_le_encodeWords words)
  have simulates := parseLoop_simulates enough enters.allowed entryRepresents regular
  cases meaning : evalWords env.crypto words vectors with
  | none =>
      rw [meaning] at simulates
      obtain ⟨after, loop⟩ := simulates
      have fails := scriptsParse_of_entersLoop enters loop
      have noSuccess : ∀ other, scriptsParse env type (encodeWords words) state ≠
          .ok ((encodeWords words).length, other) := by
        intro other succeeds
        rw [fails] at succeeds
        have impossible : (-1 : Int) = (encodeWords words).length := by
          injection succeeds with same
          exact congrArg Prod.fst same
        omega
      refine ⟨⟨?_, ?_⟩, ?_⟩
      · rintro ⟨other, succeeds⟩
        exact absurd succeeds (noSuccess other)
      · rintro ⟨result, impossible⟩
        rw [meaning] at impossible
        cases impossible
      · intro other succeeds
        exact absurd succeeds (noSuccess other)
  | some result =>
      rw [meaning] at simulates
      obtain ⟨after, afterRepresents, loop⟩ := simulates
      have returns : scriptsParse env type (encodeWords words) state =
          .ok (((encodeWords words).length : Int), after) := scriptsParse_of_entersLoop enters loop
      refine ⟨⟨fun _ => ⟨result, meaning⟩, fun _ => ⟨after, returns⟩⟩, fun other succeeds => ?_⟩
      rw [returns] at succeeds
      cases succeeds
      exact ⟨result, meaning, afterRepresents⟩

/-- A run is regular when its first word is and the run from the state it leads to is. -/
theorem RegularRun.cons {word : ScriptWord} {after : ScriptState} (wordRegular : word.Regular state)
    (continues : ∀ fuel p, parseLoop env type (fuel + 1) none (word.encode ++ p) state =
      parseLoop env type fuel none p after)
    (restRegular : RegularRun env type words after) :
    RegularRun env type (word :: words) state := by
  intro before next rest reached split reaches
  obtain ⟨fuel, reaches⟩ := reaches
  cases fuel with
  | zero => cases reaches
  | succ fuel =>
      cases before with
      | nil =>
          cases split
          cases reaches
          exact wordRegular
      | cons first before =>
          obtain ⟨rfl, others⟩ := List.cons.inj split
          rw [encodeWords, List.flatMap_cons, continues] at reaches
          exact restRegular before next rest reached others ⟨fuel, reaches⟩

theorem RegularRun.nil : RegularRun env type [] state := by
  intro before word rest reached split
  exact absurd split.symm (by simp)

end Run

/-! ## Runs on fixed inputs -/

/-- A string and its copy compare equal. -/
theorem scriptsParse_simulatesVectors_copy :
    SimulatesVectors sampleEnv .unknown
      [.push ⟨.direct, [7], ⟨by decide, by decide⟩⟩, .dup, .equal] sampleState [] := by
  refine scriptsParse_simulatesVectors (by simp [EntersLoop, encodeWords, ScriptWord.encode]) .nil ?_
  refine .cons ⟨by decide, .inl (by decide)⟩
    (fun _ _ => parseLoop_pushWord _ (by decide)) ?_
  refine .cons ⟨.inl (by decide), by decide⟩ (fun _ _ => rfl) ?_
  refine .cons ⟨by decide, fun first second rest items => ?_⟩ (fun _ _ => rfl) .nil
  cases items
  constructor
  case firstOwned => rfl
  case secondOwned => rfl
  case notBothEmpty => decide
  case firstFalse => exact fun isFalse => nomatch isFalse.1
  case secondFalse => exact fun isFalse => nomatch isFalse.1

/-- Two empty strings are equal; in memory they are the shared constant, which the comparison
releases. A small integer is hashed as eight bytes, and not as one. -/
theorem scriptsParse_departsFromVectors :
    ¬ SimulatesVectors sampleEnv .unknown [.zero, .zero, .equal] sampleState [] ∧
      ¬ SimulatesVectors sampleEnv .unknown
        [.smallInteger 1 (by decide), .hash .sha256] sampleState [] := by
  constructor
  · intro simulates
    obtain ⟨after, succeeds⟩ := simulates.succeeds.2 ⟨[[1]], rfl⟩
    have faults : scriptsParse sampleEnv .unknown
        (encodeWords [.zero, .zero, .equal]) sampleState = .fault .invalidFree := rfl
    rw [faults] at succeeds
    cases succeeds
  · intro simulates
    obtain ⟨result, meaning, represents⟩ := simulates.abstracts _ rfl
    cases meaning
    obtain ⟨sdata, rest, items, stands, -⟩ := represents_cons represents
    cases items
    have bytes := scriptsDataGetPtr_of_itemVector stands (by decide)
    exact absurd (congrArg Prod.snd bytes) (by decide)


end BitcoinClib.Script
