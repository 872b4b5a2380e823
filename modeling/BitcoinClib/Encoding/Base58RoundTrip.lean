import BitcoinClib.Encoding.Base58Decoder

/-!
Contract: the composition of the encoder and the decoder of `base58.c`.

Owns:
- the round trips of byte strings and of strings over the alphabet;
- `base58_roundTrip_iff`, for which of them they hold, with the strings that are refused.

Does not own: either function alone.
-/

namespace BitcoinClib.Encoding

open BitcoinClib.Lib
open BitcoinClib.Types

/-- The encoder writes the string and returns its length. -/
def EncodesTo (data text : Bytes) : Prop :=
  ∀ pB58, (∀ cells, pB58 = some cells → text.length < cells.length) →
    base58Encode data pB58 = .ok (text.length, some (stored pB58 text))

/-- The string of the bytes decodes to the bytes. -/
def RoundTripBytes (data : Bytes) : Prop :=
  ∃ text, EncodesTo data text ∧
    ∀ rest cbB58, Reads text cbB58 → DecodesTo (text ++ 0 :: rest) cbB58 data

/-- The bytes of the string are encoded as the string. -/
def RoundTripText (text : Bytes) : Prop :=
  ∃ bytes, (∀ rest cbB58, Reads text cbB58 → DecodesTo (text ++ 0 :: rest) cbB58 bytes) ∧
    EncodesTo bytes text

/-! ## The string of a byte string -/

/-- An encoder that writes a string was given bytes whose size did not overflow. -/
theorem EncodesTo.fits {data text : Bytes} (nonempty : data ≠ []) (encodes : EncodesTo data text) :
    data.length * 138 < 2 ^ 63 := by
  have returned := encodes none (fun _ same => nomatch same)
  by_contra overflow
  rw [base58Encode, if_neg nonempty, if_pos (by omega)] at returned
  cases returned

theorem b58Digit_map_b58Char {digits : List Nat} (bounded : ∀ digit ∈ digits, digit < 58) :
    (digits.map b58Char).map b58Digit = digits := by
  rw [List.map_map]
  refine (List.map_congr_left fun digit member => ?_).trans (List.map_id digits)
  exact b58Digit_b58Char (bounded digit member)

/-- Characters of the digits of a number stand for the number. -/
theorem b58Value_digits (value : Nat) :
    b58Value 0 ((Nat.digits 58 value).reverse.map b58Char) = value := by
  have bounded : ∀ digit ∈ (Nat.digits 58 value).reverse, digit < 58 := by
    intro digit member
    exact Nat.digits_lt_base (by decide) (List.mem_reverse.1 member)
  rw [b58Value, b58Digit_map_b58Char bounded, readDigits_eq, Nat.mul_zero, Nat.zero_add,
    List.reverse_reverse, Nat.ofDigits_digits]

/-- The first character of a number that is not zero is no digit `1`. -/
theorem head?_digits_ne {value : Nat} (nonzero : value ≠ 0) (char : UInt8)
    (first : ((Nat.digits 58 value).reverse.map b58Char).head? = some char) :
    char ≠ charOne := by
  have nonempty : Nat.digits 58 value ≠ [] := Nat.digits_ne_nil_iff_ne_zero.2 nonzero
  have leading := Nat.getLast_digit_ne_zero 58 nonzero
  have small : (Nat.digits 58 value).getLast nonempty < 58 :=
    Nat.digits_lt_base (by decide) (List.getLast_mem nonempty)
  rw [List.head?_map, List.head?_reverse, List.getLast?_eq_some_getLast nonempty,
    Option.map_some] at first
  injection first with same
  intro one
  have digit := b58Digit_b58Char small
  rw [same, one, b58Digit_charOne] at digit
  exact leading digit.symm

/-- The bytes behind the leading zeros are the digits of the value. -/
theorem bytes_of_beValue {data : Bytes} (nonzero : ∃ byte ∈ data, byte ≠ 0) :
    (numeral 256 (beValue data)).reverse.map UInt8.ofNat = data.dropWhile (· = 0) := by
  obtain ⟨first, rest, split, different⟩ := dropWhile_cons_of_exists nonzero
  have value : beValue data = beValue (first :: rest) := by
    rw [← split, ← dropWhile_eq_drop, ← leadingZeros, beValue_drop_leadingZeros]
  have bounded : ∀ digit ∈ first.toNat :: rest.map UInt8.toNat, digit < 256 := by
    intro digit member
    rw [← List.map_cons] at member
    obtain ⟨byte, -, rfl⟩ := List.mem_map.1 member
    exact byte.toNat_lt
  have leading : first.toNat ≠ 0 := fun zero => different (UInt8.toNat_inj.1 zero)
  rw [value, beValue, List.map_cons, numeral_readDigits (by decide) bounded leading,
    List.reverse_reverse, split, ← List.map_cons, List.map_map]
  exact (List.map_congr_left fun byte _ => UInt8.ofNat_toNat).trans (List.map_id _)

/-- The string of a number decodes to the bytes of the number. -/
theorem decodedBytes_numeralString {data : Bytes} (nonzero : ∃ byte ∈ data, byte ≠ 0) :
    significant (numeralString data) = (Nat.digits 58 (beValue data)).reverse.map b58Char ∧
      decodedBytes (numeralString data) = data := by
  have first := head?_digits_ne (beValue_ne_zero nonzero)
  have tail : significant (numeralString data) =
      (Nat.digits 58 (beValue data)).reverse.map b58Char := dropWhile_replicate_append first _
  have ones : leadingOnes (numeralString data) = leadingZeros data :=
    takeWhile_replicate_append first _
  refine ⟨tail, ?_⟩
  rw [decodedBytes, tail, ones, b58Value_digits, bytes_of_beValue nonzero]
  exact (replicate_append_dropWhile 0 data).symm

theorem numeralString_inside (data : Bytes) : ∀ char ∈ numeralString data, char ∈ sB58Digits := by
  intro char member
  rcases List.mem_append.1 member with one | digit
  · rw [List.eq_of_mem_replicate one]
    exact charOne_mem
  · obtain ⟨value, inDigits, rfl⟩ := List.mem_map.1 digit
    exact b58Char_mem (Nat.digits_lt_base (by decide) (List.mem_reverse.1 inDigits))

/-! ## The bytes of a string -/

/-- The bytes of a number that is not zero have its value and do not start with a zero. -/
theorem bytes_of_value {value : Nat} (nonzero : value ≠ 0) :
    beValue ((numeral 256 value).reverse.map UInt8.ofNat) = value ∧
      ∀ byte, ((numeral 256 value).reverse.map UInt8.ofNat).head? = some byte → byte ≠ 0 := by
  have bounded : ∀ digit ∈ numeral 256 value, digit < 256 := numeral_lt (by decide) value
  have digits : ((numeral 256 value).reverse.map UInt8.ofNat).map UInt8.toNat =
      (numeral 256 value).reverse := by
    rw [List.map_map]
    refine (List.map_congr_left fun digit member => ?_).trans (List.map_id _)
    exact UInt8.toNat_ofNat_of_lt' (bounded digit (List.mem_reverse.1 member))
  constructor
  · rw [beValue, digits, readDigits_eq, Nat.mul_zero, Nat.zero_add, List.reverse_reverse,
      numeral_value]
  · have nonempty : numeral 256 value ≠ [] := List.length_pos_iff.1 (numeral_length_pos 256 value)
    have leading : (numeral 256 value).getLast nonempty ≠ 0 := by
      simp only [numeral_of_ne_zero nonzero]
      exact Nat.getLast_digit_ne_zero 256 nonzero
    have small := bounded _ (List.getLast_mem nonempty)
    intro byte first
    rw [List.head?_map, List.head?_reverse, List.getLast?_eq_some_getLast nonempty,
      Option.map_some] at first
    injection first with same
    intro zero
    have code := UInt8.toNat_ofNat_of_lt' small
    rw [same, zero] at code
    exact leading code.symm

/-- A string with another character than `1` stands for a number that is not zero, and its
bytes are encoded by the characters of the string. -/
theorem numeralString_decodedBytes {text : Bytes} (inside : ∀ char ∈ text, char ∈ sB58Digits)
    (other : ∃ char ∈ text, char ≠ charOne) :
    (∃ byte ∈ decodedBytes text, byte ≠ 0) ∧
      beValue (decodedBytes text) = b58Value 0 (significant text) ∧
      numeralString (decodedBytes text) = text := by
  obtain ⟨char, chars, split, notOne⟩ := dropWhile_cons_of_exists other
  have insideTail : ∀ found ∈ char :: chars, found ∈ sB58Digits := by
    intro found member
    rw [← split] at member
    exact inside found ((List.dropWhile_sublist _).subset member)
  have leading : b58Digit char ≠ 0 := by
    intro zero
    have same := (sB58Digits_facts char (insideTail char List.mem_cons_self)).2.2
    rw [zero] at same
    exact notOne (same.symm.trans charOne_eq.symm)
  have nonzero : b58Value 0 (significant text) ≠ 0 := by
    rw [significant, split]
    exact readDigits_pos leading (by decide)
  have bounded : ∀ digit ∈ b58Digit char :: chars.map b58Digit, digit < 58 := by
    intro digit member
    rw [← List.map_cons] at member
    obtain ⟨found, inTail, rfl⟩ := List.mem_map.1 member
    exact (sB58Digits_facts found (insideTail found inTail)).2.1
  have digits : Nat.digits 58 (b58Value 0 (significant text)) =
      ((char :: chars).map b58Digit).reverse := by
    rw [← numeral_of_ne_zero nonzero, significant, split, b58Value, List.map_cons]
    exact numeral_readDigits (by decide) bounded leading
  have characters : ((char :: chars).map b58Digit).map b58Char = char :: chars := by
    rw [List.map_map]
    refine (List.map_congr_left fun found member => ?_).trans (List.map_id _)
    exact (sB58Digits_facts found (insideTail found member)).2.2
  obtain ⟨value, first⟩ := bytes_of_value nonzero
  have sameValue : beValue (decodedBytes text) = b58Value 0 (significant text) := by
    rw [decodedBytes, beValue_replicate_append, value]
  have zeros : leadingZeros (decodedBytes text) = leadingOnes text :=
    takeWhile_replicate_append first _
  refine ⟨?_, sameValue, ?_⟩
  · by_contra none
    have all : ∀ byte ∈ decodedBytes text, byte = 0 := by
      intro byte member
      by_contra different
      exact none ⟨byte, member, different⟩
    have zero : beValue (decodedBytes text) = 0 := by
      rw [List.eq_replicate_of_mem all, ← List.append_nil (List.replicate _ _),
        beValue_replicate_append]
      rfl
    exact nonzero (sameValue.symm.trans zero)
  · rw [numeralString, digitString, zeros, sameValue, digits, List.reverse_reverse, characters,
      ← split]
    exact (leadingOnes_append_significant text).symm

/-! ## Round trips -/

/-- What the encoder writes for bytes that are not all zero. -/
theorem encodesTo_numeralString {data : Bytes} (nonzero : ∃ byte ∈ data, byte ≠ 0)
    (fits : data.length * 138 < 2 ^ 63)
    (inRange : (Nat.digits 58 (beValue data)).length < 2 ^ 31) :
    EncodesTo data (numeralString data) := by
  have digits : numeral 58 (beValue data) = Nat.digits 58 (beValue data) :=
    numeral_of_ne_zero (beValue_ne_zero nonzero)
  have nonempty : data ≠ [] := by
    obtain ⟨byte, member, -⟩ := nonzero
    exact List.ne_nil_of_mem member
  intro pB58 room
  rw [numeralString, ← digits] at room ⊢
  rw [← digits] at inRange
  exact base58Encode_eq nonempty fits inRange room

/-- A string of digits `1` only decodes to one zero byte too many. -/
theorem decodedBytes_ones {text : Bytes} (ones : ∀ char ∈ text, char = charOne) :
    significant text = [] ∧ decodedBytes text = List.replicate (text.length + 1) 0 := by
  have none : significant text = [] := by
    rw [significant, List.dropWhile_eq_nil_iff]
    intro char member
    rw [decide_eq_true_eq]
    exact ones char member
  have length := length_eq_leadingOnes_add text
  rw [none, List.length_nil, Nat.add_zero] at length
  refine ⟨none, ?_⟩
  rw [decodedBytes, none, b58Value, List.map_nil, readDigits_nil, numeral_zero, length,
    List.replicate_succ']
  rfl

/-- Zero bytes only are encoded with one digit `1` too many. -/
theorem digitString_zeros {data : Bytes} (zeros : ∀ byte ∈ data, byte = 0) :
    (numeral 58 (beValue data)).length = 1 ∧
      digitString data (numeral 58 (beValue data)) =
        List.replicate (data.length + 1) charOne := by
  have data_eq : data = List.replicate data.length 0 := List.eq_replicate_of_mem zeros
  have value : beValue data = 0 := by
    rw [data_eq, ← List.append_nil (List.replicate _ _), beValue_replicate_append]
    rfl
  have all : leadingZeros data = data.length := by
    conv_lhs => rw [data_eq, ← List.append_nil (List.replicate _ _)]
    refine takeWhile_replicate_append (fun other found => ?_) _
    cases found
  rw [value, numeral_zero]
  refine ⟨rfl, ?_⟩
  have one : [0].reverse.map b58Char = [charOne] := by
    rw [charOne_eq]
    rfl
  rw [digitString, all, one, List.replicate_succ']

theorem numeralString_ne_nil {data : Bytes} (nonzero : ∃ byte ∈ data, byte ≠ 0) :
    numeralString data ≠ [] := by
  intro empty
  have value := b58Value_digits (beValue data)
  rw [← (decodedBytes_numeralString nonzero).1, empty] at value
  exact beValue_ne_zero nonzero value.symm

/-- Bytes that are not all zero. -/
theorem roundTripBytes_nonzero {data : Bytes} (nonzero : ∃ byte ∈ data, byte ≠ 0) :
    RoundTripBytes data ↔
      data.length * 138 < 2 ^ 63 ∧ (Nat.digits 58 (beValue data)).length < 2 ^ 31 := by
  have nonempty : data ≠ [] := by
    obtain ⟨byte, member, -⟩ := nonzero
    exact List.ne_nil_of_mem member
  have tail := (decodedBytes_numeralString nonzero).1
  constructor
  · intro roundTrip
    obtain ⟨text, encodes, decodes⟩ := roundTrip
    have decoded := decodes [] text.length (Or.inl rfl)
    obtain ⟨textNonempty, inside, inRange⟩ := decoded.accepted (Or.inl rfl)
    have same : data = decodedBytes text :=
      decoded.unique (base58Decode_eq textNonempty inside inRange [] (Or.inl rfl))
    refine ⟨encodes.fits nonempty, ?_⟩
    by_cases other : ∃ char ∈ text, char ≠ charOne
    · have text_eq := (numeralString_decodedBytes inside other).2.2
      rw [← same] at text_eq
      rw [← text_eq, tail, List.length_map, List.length_reverse] at inRange
      exact inRange
    · have ones : ∀ char ∈ text, char = charOne := by
        intro char member
        by_contra different
        exact other ⟨char, member, different⟩
      rw [(decodedBytes_ones ones).2] at same
      obtain ⟨byte, member, different⟩ := nonzero
      rw [same] at member
      exact absurd (List.eq_of_mem_replicate member) different
  · intro condition
    have decoded := (decodedBytes_numeralString nonzero).2
    refine ⟨numeralString data, encodesTo_numeralString nonzero condition.1 condition.2,
      fun rest cbB58 reads => ?_⟩
    have decodes := base58Decode_eq (numeralString_ne_nil nonzero) (numeralString_inside data)
      (by rw [tail, List.length_map, List.length_reverse]; exact condition.2) rest reads
    rwa [decoded] at decodes

/-- The string of a byte string is determined. -/
theorem EncodesTo.unique {data left right : Bytes} (first : EncodesTo data left)
    (second : EncodesTo data right) : left = right := by
  have returned := first none (fun _ same => nomatch same)
  rw [second none (fun _ same => nomatch same)] at returned
  injection returned with returned
  injection returned with _ cells
  injection cells with cells
  have written : right ++ [0] = left ++ [0] := cells
  exact (List.append_cancel_right written).symm

/-- The string of zero bytes only. -/
theorem encodesTo_zeros {data : Bytes} (nonempty : data ≠ []) (zeros : ∀ byte ∈ data, byte = 0)
    (fits : data.length * 138 < 2 ^ 63) :
    EncodesTo data (List.replicate (data.length + 1) charOne) := by
  obtain ⟨single, string⟩ := digitString_zeros zeros
  intro pB58 room
  rw [← string] at room ⊢
  exact base58Encode_eq nonempty fits (by rw [single]; decide) room

/-- Zero bytes only. -/
theorem not_roundTripBytes_zeros {data : Bytes} (nonempty : data ≠ [])
    (zeros : ∀ byte ∈ data, byte = 0) : ¬ RoundTripBytes data := by
  intro roundTrip
  obtain ⟨text, encodes, decodes⟩ := roundTrip
  have string := encodes.unique (encodesTo_zeros nonempty zeros (encodes.fits nonempty))
  have decoded := decodes [] text.length (Or.inl rfl)
  obtain ⟨textNonempty, inside, inRange⟩ := decoded.accepted (Or.inl rfl)
  have same : data = decodedBytes text :=
    decoded.unique (base58Decode_eq textNonempty inside inRange [] (Or.inl rfl))
  have ones : ∀ char ∈ text, char = charOne := by
    intro char member
    rw [string] at member
    exact List.eq_of_mem_replicate member
  rw [(decodedBytes_ones ones).2, string] at same
  have length := congrArg List.length same
  rw [List.length_replicate, List.length_replicate] at length
  omega

/-- A string with another character than `1`. -/
theorem roundTripText_other {text : Bytes} (inside : ∀ char ∈ text, char ∈ sB58Digits)
    (other : ∃ char ∈ text, char ≠ charOne) :
    RoundTripText text ↔
      (significant text).length < 2 ^ 31 ∧ (decodedBytes text).length * 138 < 2 ^ 63 := by
  obtain ⟨nonzero, -, string⟩ := numeralString_decodedBytes inside other
  have textNonempty : text ≠ [] := by
    obtain ⟨char, member, -⟩ := other
    exact List.ne_nil_of_mem member
  have bytesNonempty : decodedBytes text ≠ [] := by
    obtain ⟨byte, member, -⟩ := nonzero
    exact List.ne_nil_of_mem member
  constructor
  · intro roundTrip
    obtain ⟨bytes, decodes, encodes⟩ := roundTrip
    have decoded := decodes [] text.length (Or.inl rfl)
    obtain ⟨-, -, inRange⟩ := decoded.accepted (Or.inl rfl)
    have same : bytes = decodedBytes text :=
      decoded.unique (base58Decode_eq textNonempty inside inRange [] (Or.inl rfl))
    rw [same] at encodes
    exact ⟨inRange, encodes.fits bytesNonempty⟩
  · intro condition
    refine ⟨decodedBytes text, fun rest cbB58 reads =>
      base58Decode_eq textNonempty inside condition.1 rest reads, ?_⟩
    have tail := (decodedBytes_numeralString nonzero).1
    rw [string] at tail
    have encodes := encodesTo_numeralString nonzero condition.2 (by
      have length := condition.1
      rwa [tail, List.length_map, List.length_reverse] at length)
    rwa [string] at encodes

/-- Digits `1` only. -/
theorem not_roundTripText_ones {text : Bytes} (ones : ∀ char ∈ text, char = charOne) :
    ¬ RoundTripText text := by
  intro roundTrip
  obtain ⟨bytes, decodes, encodes⟩ := roundTrip
  have decoded := decodes [] text.length (Or.inl rfl)
  obtain ⟨textNonempty, inside, inRange⟩ := decoded.accepted (Or.inl rfl)
  have same : bytes = decodedBytes text :=
    decoded.unique (base58Decode_eq textNonempty inside inRange [] (Or.inl rfl))
  rw [(decodedBytes_ones ones).2] at same
  have nonempty : bytes ≠ [] := by
    rw [same]
    exact List.cons_ne_nil _ _
  have zeros : ∀ byte ∈ bytes, byte = 0 := by
    intro byte member
    rw [same] at member
    exact List.eq_of_mem_replicate member
  have length := congrArg List.length
    (encodes.unique (encodesTo_zeros nonempty zeros (encodes.fits nonempty)))
  rw [same, List.length_replicate, List.length_replicate] at length
  omega

/-- Byte strings come back unless they are all zero, strings over the alphabet unless they are
all `1`, and a string is refused unless its first bad character has a code above 127, each
where the sizes fit their types. -/
theorem base58_roundTrip_iff (data text : Bytes) :
    (data ≠ [] →
      (RoundTripBytes data ↔ (∃ byte ∈ data, byte ≠ 0) ∧ data.length * 138 < 2 ^ 63 ∧
        (Nat.digits 58 (beValue data)).length < 2 ^ 31)) ∧
    (text ≠ [] → (∀ char ∈ text, char ∈ sB58Digits) →
      (RoundTripText text ↔ (∃ char ∈ text, char ≠ charOne) ∧
        (significant text).length < 2 ^ 31 ∧ (decodedBytes text).length * 138 < 2 ^ 63)) ∧
    ((∃ char ∈ text, char ∉ sB58Digits) → (Refused text ↔ Refusable text)) := by
  refine ⟨fun nonempty => ?_, fun _ inside => ?_, fun bad => base58Decode_refuses_iff bad⟩
  · by_cases nonzero : ∃ byte ∈ data, byte ≠ 0
    · rw [roundTripBytes_nonzero nonzero]
      exact (and_iff_right nonzero).symm
    · have zeros : ∀ byte ∈ data, byte = 0 := by
        intro byte member
        by_contra different
        exact nonzero ⟨byte, member, different⟩
      constructor
      · intro roundTrip
        exact absurd roundTrip (not_roundTripBytes_zeros nonempty zeros)
      · intro condition
        exact absurd condition.1 nonzero
  · by_cases other : ∃ char ∈ text, char ≠ charOne
    · rw [roundTripText_other inside other]
      exact (and_iff_right other).symm
    · have ones : ∀ char ∈ text, char = charOne := by
        intro char member
        by_contra different
        exact other ⟨char, member, different⟩
      constructor
      · intro roundTrip
        exact absurd roundTrip (not_roundTripText_ones ones)
      · intro condition
        exact absurd condition.1 other

/-- The bytes 0 and 1, the string `1z`, and a string with a zero digit. -/
theorem base58_roundTrip_samples :
    RoundTripBytes [0, 1] ∧ RoundTripText [charOne, 0x7a] ∧ Refused [charOne, 0x30, 0xff] := by
  refine ⟨((base58_roundTrip_iff [0, 1] []).1 (by decide)).2 ?_,
    ((base58_roundTrip_iff [] [charOne, 0x7a]).2.1 (by decide) (by decide +kernel)).2 ?_,
    ((base58_roundTrip_iff [] [charOne, 0x30, 0xff]).2.2
      ⟨0x30, by decide, by decide +kernel⟩).2 ?_⟩
  · refine ⟨⟨1, by decide, by decide⟩, by decide, ?_⟩
    have value : beValue [0, 1] = 1 := rfl
    rw [value, Nat.digits_of_lt 58 1 (by decide) (by decide)]
    decide
  · have tail : significant [charOne, 0x7a] = [0x7a] := rfl
    have value : b58Value 0 [0x7a] = 57 := by decide +kernel
    have bytes : decodedBytes [charOne, 0x7a] = [0, 57] := by
      rw [decodedBytes, tail, value, numeral_of_ne_zero (by decide),
        Nat.digits_of_lt 256 57 (by decide) (by decide)]
      rfl
    rw [tail, bytes]
    exact ⟨⟨0x7a, by decide, by decide⟩, by decide, by decide⟩
  · exact ⟨[charOne], 0x30, [0xff], rfl, by decide +kernel, by decide +kernel, by decide, by decide⟩

/-- One zero byte, the string `1`, and a string with a character above 127 only. -/
theorem base58_roundTrip_failures :
    ¬ RoundTripBytes [0] ∧ ¬ RoundTripText [charOne] ∧ ¬ Refused [0x80] := by
  refine ⟨not_roundTripBytes_zeros (List.cons_ne_nil _ _) fun _ => List.mem_singleton.1,
    not_roundTripText_ones fun _ => List.mem_singleton.1, ?_⟩
  intro refused
  have returned := refused [] 1 none (Or.inl rfl)
  cases returned

end BitcoinClib.Encoding
