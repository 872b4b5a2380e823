import BitcoinClib.Encoding.Base64
import BitcoinClib.Lib.Sextets

/-!
Contract: the composition of the encoders and decoders of `base64.c`.

Owns:
- `Alphabet`, a table and its digits that invert each other;
- the text of a byte string (`encodeWith_eq`), and which texts a decoder accepts
  (`decodeText_accepts`, `decodeText_refuses`);
- `base64_roundTrip_iff`, for which byte strings the length comes back.
-/

namespace BitcoinClib.Encoding.Base64

open BitcoinClib.Lib
open BitcoinClib.Types

/-! ## Alphabets -/

/-- A table of 64 characters and the digits of all characters. -/
structure Alphabet where
  table : Bytes
  digits : List Nat
  table_length : table.length = 64
  digits_length : digits.length = 256
  digit_char : ∀ sextet < 64, digits.getD (table.getD sextet 0).toNat 0xFF = sextet
  char_digit : ∀ code < 256, digits.getD code 0xFF = 0xFF ∨
    digits.getD code 0xFF < 64 ∧ (table.getD (digits.getD code 0xFF) 0).toNat = code
  digit_padding : digits.getD padding.toNat 0xFF = 0xFF

/-- The codes of a table against its digits, in a form that is quick to check. -/
structure Inverse (codes digits : List Nat) : Prop where
  codes_length : codes.length = 64
  digits_length : digits.length = 256
  digit_code : ∀ entry ∈ codes.zipIdx, digits.getD entry.1 0xFF = entry.2
  code_digit : ∀ entry ∈ digits.zipIdx,
    entry.1 = 0xFF ∨ entry.1 < 64 ∧ codes.getD entry.1 0 = entry.2
  digit_padding : digits.getD 0x3D 0xFF = 0xFF

instance (codes digits : List Nat) : Decidable (Inverse codes digits) :=
  decidable_of_iff (codes.length = 64 ∧ digits.length = 256 ∧
      (∀ entry ∈ codes.zipIdx, digits.getD entry.1 0xFF = entry.2) ∧
      (∀ entry ∈ digits.zipIdx, entry.1 = 0xFF ∨ entry.1 < 64 ∧ codes.getD entry.1 0 = entry.2) ∧
      digits.getD 0x3D 0xFF = 0xFF)
    ⟨fun ⟨a, b, c, d, e⟩ => ⟨a, b, c, d, e⟩, fun ⟨a, b, c, d, e⟩ => ⟨a, b, c, d, e⟩⟩

theorem toNat_getD (table : Bytes) (index : Nat) :
    (table.getD index 0).toNat = (table.map UInt8.toNat).getD index 0 := by
  rw [List.getD_eq_getElem?_getD, List.getD_eq_getElem?_getD, List.getElem?_map]
  cases table[index]? with
  | none => rfl
  | some char => rfl

/-- The alphabet of a table and its inverse. -/
def Alphabet.ofInverse (table : Bytes) (digits : List Nat)
    (inverse : Inverse (table.map UInt8.toNat) digits) : Alphabet where
  table := table
  digits := digits
  table_length := by
    rw [← List.length_map UInt8.toNat]
    exact inverse.codes_length
  digits_length := inverse.digits_length
  digit_char := by
    intro sextet small
    have inside : sextet < (table.map UInt8.toNat).length := by
      rw [inverse.codes_length]
      exact small
    have code : (table.map UInt8.toNat).getD sextet 0 = (table.map UInt8.toNat)[sextet] := by
      rw [List.getD_eq_getElem?_getD, List.getElem?_eq_getElem inside, Option.getD_some]
    rw [toNat_getD, code]
    exact inverse.digit_code (_, sextet) (List.mem_zipIdx_iff_getElem?.2
      (List.getElem?_eq_getElem inside))
  char_digit := by
    intro code small
    have inside : code < digits.length := by
      rw [inverse.digits_length]
      exact small
    rw [toNat_getD, List.getD_eq_getElem?_getD, List.getElem?_eq_getElem inside]
    exact inverse.code_digit (_, code) (List.mem_zipIdx_iff_getElem?.2
      (List.getElem?_eq_getElem inside))
  digit_padding := inverse.digit_padding

/-- The alphabet of `base64_encode` and `base64_decode`. -/
def standard : Alphabet := .ofInverse b64 b64Digits (by decide +kernel)

/-- The alphabet of `base64_urlencode` and `base64_urldecode`. -/
def url : Alphabet := .ofInverse b64Url b64UrlDigits (by decide +kernel)

namespace Alphabet

variable (alphabet : Alphabet)

/-- The character of six bits. -/
def char (sextet : Nat) : UInt8 := alphabet.table.getD sextet 0

/-- The digit of a character. -/
def digit (char : UInt8) : Nat := alphabet.digits.getD char.toNat 0xFF

theorem readAt_table {sextet : Nat} (small : sextet < 64) :
    Exec.readAt alphabet.table sextet = .ok (alphabet.char sextet) := by
  have inside : sextet < alphabet.table.length := by
    rw [alphabet.table_length]
    exact small
  rw [Exec.readAt_of_lt inside, char, List.getD_eq_getElem?_getD, List.getElem?_eq_getElem inside,
    Option.getD_some]

theorem digit_of_char {sextet : Nat} (small : sextet < 64) :
    alphabet.digit (alphabet.char sextet) = sextet := alphabet.digit_char sextet small

theorem char_mem {sextet : Nat} (small : sextet < 64) :
    alphabet.char sextet ∈ alphabet.table := by
  have inside : sextet < alphabet.table.length := by
    rw [alphabet.table_length]
    exact small
  rw [char, List.getD_eq_getElem?_getD, List.getElem?_eq_getElem inside]
  exact List.getElem_mem inside

/-- The characters of the table are those with a digit. -/
theorem mem_table {char : UInt8} : char ∈ alphabet.table ↔ alphabet.digit char ≠ 0xFF := by
  constructor
  · intro member
    obtain ⟨sextet, inside, rfl⟩ := List.getElem_of_mem member
    have small : sextet < 64 := by
      rw [← alphabet.table_length]
      exact inside
    have same : alphabet.table[sextet] = alphabet.char sextet := by
      rw [Alphabet.char, List.getD_eq_getElem?_getD, List.getElem?_eq_getElem inside,
        Option.getD_some]
    rw [same, alphabet.digit_of_char small]
    omega
  · intro isDigit
    obtain ⟨small, back⟩ := (alphabet.char_digit char.toNat char.toNat_lt).resolve_left isDigit
    rw [← UInt8.toNat_inj.1 back]
    exact alphabet.char_mem small

theorem padding_not_mem : padding ∉ alphabet.table := by
  intro member
  exact alphabet.mem_table.1 member alphabet.digit_padding

end Alphabet

/-! ## Bits -/

theorem and_three (value : Nat) : value &&& 0x03 = value % 4 :=
  Nat.and_two_pow_sub_one_eq_mod value 2

theorem and_fifteen (value : Nat) : value &&& 0x0F = value % 16 :=
  Nat.and_two_pow_sub_one_eq_mod value 4

theorem and_sixtyThree (value : Nat) : value &&& 0x3F = value % 64 :=
  Nat.and_two_pow_sub_one_eq_mod value 6

/-- A disjunction of disjoint bits is a sum. -/
theorem shiftLeft_or {low : Nat} (high width : Nat) (below : low < 2 ^ width) :
    (high <<< width) ||| low = high * 2 ^ width + low := by
  rw [← Nat.shiftLeft_add_eq_or_of_lt below, Nat.shiftLeft_eq]

/-- The first six bits of a byte. -/
theorem first_bits (byte : UInt8) : (byte.toNat >>> 2) &&& 0x3F = byte.toNat / 4 := by
  have small := byte.toNat_lt
  rw [and_sixtyThree, Nat.shiftRight_eq_div_pow]
  omega

theorem second_bits (byte next : UInt8) :
    ((byte.toNat &&& 0x03) <<< 4) ||| ((next.toNat >>> 4) &&& 0x0F) =
      byte.toNat % 4 * 16 + next.toNat / 16 := by
  have small := next.toNat_lt
  rw [and_three, and_fifteen, Nat.shiftRight_eq_div_pow, shiftLeft_or _ 4 (by omega)]
  omega

theorem third_bits (byte next : UInt8) :
    ((byte.toNat &&& 0x0F) <<< 2) ||| ((next.toNat >>> 6) &&& 0x03) =
      byte.toNat % 16 * 4 + next.toNat / 64 := by
  have small := next.toNat_lt
  rw [and_three, and_fifteen, Nat.shiftRight_eq_div_pow, shiftLeft_or _ 2 (by omega)]
  omega

theorem second_bits_last (byte : UInt8) :
    ((byte.toNat &&& 0x03) <<< 4) ||| 0 = byte.toNat % 4 * 16 := by
  rw [and_three, shiftLeft_or _ 4 (by decide)]
  rfl

theorem third_bits_last (byte : UInt8) :
    ((byte.toNat &&& 0x0F) <<< 2) ||| 0 = byte.toNat % 16 * 4 := by
  rw [and_fifteen, shiftLeft_or _ 2 (by decide)]
  rfl

/-- The characters of the bits, filled up to groups of four. -/
def Alphabet.text (alphabet : Alphabet) (data : Bytes) : Bytes :=
  (toSextets (data.map UInt8.toNat)).map alphabet.char ++
    List.replicate ((3 - data.length % 3) % 3) padding

theorem toNat_bounded (data : Bytes) : ∀ byte ∈ data.map UInt8.toNat, byte < 256 := by
  intro byte member
  obtain ⟨char, -, rfl⟩ := List.mem_map.1 member
  exact char.toNat_lt

theorem Alphabet.text_length (alphabet : Alphabet) (data : Bytes) :
    (alphabet.text data).length = (data.length + 2) / 3 * 4 := by
  rw [Alphabet.text, List.length_append, List.length_map, toSextets_length, List.length_map,
    List.length_replicate]
  omega

theorem encodeGroups_eq (alphabet : Alphabet) : ∀ data : Bytes,
    encodeGroups alphabet.table data = .ok (alphabet.text data)
  | [] => rfl
  | [p0] => by
      have small := p0.toNat_lt
      rw [encodeGroups, first_bits, second_bits_last, alphabet.readAt_table (by omega),
        alphabet.readAt_table (by omega)]
      rfl
  | [p0, p1] => by
      have small0 := p0.toNat_lt
      have small1 := p1.toNat_lt
      rw [encodeGroups, first_bits, second_bits, third_bits_last,
        alphabet.readAt_table (by omega), alphabet.readAt_table (by omega),
        alphabet.readAt_table (by omega)]
      rfl
  | p0 :: p1 :: p2 :: rest => by
      have small0 := p0.toNat_lt
      have small1 := p1.toNat_lt
      have small2 := p2.toNat_lt
      rw [encodeGroups, first_bits, second_bits, third_bits, and_sixtyThree,
        alphabet.readAt_table (by omega), alphabet.readAt_table (by omega),
        alphabet.readAt_table (by omega), alphabet.readAt_table (by omega),
        encodeGroups_eq alphabet rest]
      have count : (p0 :: p1 :: p2 :: rest).length % 3 = rest.length % 3 := by
        simp only [List.length_cons]
        omega
      simp only [Exec.ok_bind, Alphabet.text, count, List.map_cons, toSextets, List.cons_append]

/-! ## The decoders -/

namespace Alphabet

variable (alphabet : Alphabet)

/-- The bytes of characters of the table. -/
def bytes (text : Bytes) : Bytes := (ofSextets (text.map alphabet.digit)).map UInt8.ofNat

/-- The bytes of a text without padding. -/
theorem bytes_text (data : Bytes) :
    alphabet.bytes ((toSextets (data.map UInt8.toNat)).map alphabet.char) = data := by
  have digits : ((toSextets (data.map UInt8.toNat)).map alphabet.char).map alphabet.digit =
      toSextets (data.map UInt8.toNat) := by
    rw [List.map_map]
    apply (List.map_congr_left fun sextet member => ?_).trans (List.map_id _)
    exact alphabet.digit_of_char (toSextets_lt (toNat_bounded data) sextet member)
  rw [bytes, digits, ofSextets_toSextets (toNat_bounded data), List.map_map]
  exact (List.map_congr_left fun byte _ => UInt8.ofNat_toNat).trans (List.map_id _)

/-- Characters of the table, and padding at the very end. -/
def WellFormed (text : Bytes) : Prop :=
  ∃ body tail, text = body ++ tail ∧ (∀ char ∈ body, char ∈ alphabet.table) ∧
    (tail = [] ∨ tail = [padding] ∨ tail = [padding, padding])

end Alphabet

/-! ## Both alphabets -/

/-- The two pairs of functions. -/
inductive Variant where
  | standard
  | url
deriving DecidableEq, Repr

namespace Variant

/-- The alphabet of a pair. -/
def alphabet : Variant → Alphabet
  | standard => Base64.standard
  | url => Base64.url

/-- The encoder of a pair. -/
def encode : Variant → Bytes → Option (Option Bytes) → Exec (Nat × Option (Option Bytes))
  | standard => base64Encode
  | url => base64Urlencode

/-- The decoder of a pair. -/
def decode : Variant → Option Bytes → Option Nat → Option (Option Bytes) →
    Exec (Int × Option (Option Bytes))
  | standard => base64Decode
  | url => base64Urldecode

theorem encode_eq (variant : Variant) : variant.encode = encodeWith variant.alphabet.table := by
  cases variant with
  | standard => rfl
  | url => rfl

end Variant

/-- The length that is passed names the text, or a NUL behind it does. -/
def Reads (text : Bytes) (cbFrom : Option Nat) : Prop :=
  cbFrom = some text.length ∨ cbFrom = none ∧ 0 ∉ text

/-- An array of the caller has room. -/
def HasRoom (size : Nat) (cells : Option Bytes) : Prop :=
  ∀ array, cells = some array → size ≤ array.length

namespace Variant

/-- The encoder writes the text with a NUL and returns its length. -/
def EncodesTo (variant : Variant) (data text : Bytes) : Prop :=
  ∀ cells, HasRoom (text.length + 1) cells →
    ∃ stored, variant.encode data (some cells) = .ok (text.length, some (some stored)) ∧
      stored.take (text.length + 1) = text ++ [0]

/-- The decoder returns the bytes and their number. -/
def DecodesTo (variant : Variant) (text bytes : Bytes) : Prop :=
  ∀ rest cbFrom cells, Reads text cbFrom → HasRoom (text.length / 4 * 3) cells →
    ∃ stored, variant.decode (some (text ++ 0 :: rest)) cbFrom (some cells) =
        .ok (bytes.length, some (some stored)) ∧
      stored.take bytes.length = bytes

/-- The decoder does not report an error. -/
def Accepts (variant : Variant) (text : Bytes) : Prop :=
  ∀ rest cbFrom cells, Reads text cbFrom → HasRoom (text.length / 4 * 3) cells →
    ∃ value out, variant.decode (some (text ++ 0 :: rest)) cbFrom (some cells) =
      .ok (value, out) ∧ 0 ≤ value

/-- The decoder returns -1. -/
def Refuses (variant : Variant) (text : Bytes) : Prop :=
  ∀ rest cbFrom cells, Reads text cbFrom → HasRoom (text.length / 4 * 3) cells →
    ∃ out, variant.decode (some (text ++ 0 :: rest)) cbFrom (some cells) = .ok (-1, out)

end Variant

theorem storeCells_fits {size : Nat} {cells : Option Bytes} {bytes : Bytes}
    (fits : bytes.length ≤ size) (room : HasRoom bytes.length cells) :
    ∃ stored, storeCells size cells bytes = .ok stored ∧ stored.take bytes.length = bytes := by
  cases cells with
  | none =>
      refine ⟨bytes, if_pos fits, List.take_of_length_le (le_refl _)⟩
  | some array =>
      exact ⟨bytes ++ array.drop bytes.length, if_pos (room array rfl), List.take_left' rfl⟩

namespace Variant

/-- An encoder that writes a text to a new array wrote the text of the bytes, and the size of
the array did not wrap. -/
theorem EncodesTo.text_eq {variant : Variant} {data text : Bytes} (nonempty : data ≠ [])
    (encodes : variant.EncodesTo data text) :
    text = variant.alphabet.text data ∧ data.length * 4 < 2 ^ 64 := by
  obtain ⟨stored, writes, holds⟩ := encodes none fun array same => nomatch same
  rw [encode_eq, encodeWith, if_neg nonempty] at writes
  dsimp only at writes
  rw [encodeGroups_eq, Exec.ok_bind, storeCells] at writes
  split at writes
  next fits =>
    rw [Exec.ok_bind] at writes
    injection writes with same
    obtain ⟨length, cells⟩ := Prod.mk.inj same
    injection cells with cells
    injection cells with cells
    constructor
    · rw [← cells, ← length, List.take_of_length_le (by simp)] at holds
      exact (List.append_cancel_right holds).symm
    · rw [List.length_append, Alphabet.text_length, List.length_singleton] at fits
      have positive := List.length_pos_iff.2 nonempty
      omega
  next => cases writes

/-- The text of bytes whose size does not wrap is written. -/
theorem encodesTo_text (variant : Variant) {data : Bytes} (nonempty : data ≠ [])
    (fits : data.length * 4 < 2 ^ 64) : variant.EncodesTo data (variant.alphabet.text data) := by
  intro cells room
  have length : (variant.alphabet.text data ++ [0]).length =
      (variant.alphabet.text data).length + 1 := by
    rw [List.length_append, List.length_singleton]
  have inside : (variant.alphabet.text data ++ [0]).length ≤
      data.length * 4 % 2 ^ 64 / 3 + 3 + 1 := by
    rw [length, Alphabet.text_length, Nat.mod_eq_of_lt fits]
    omega
  obtain ⟨stored, stores, holds⟩ := storeCells_fits inside (length ▸ room)
  refine ⟨stored, ?_, ?_⟩
  · rw [encode_eq, encodeWith, if_neg nonempty]
    dsimp only
    rw [encodeGroups_eq, Exec.ok_bind, stores]
    rfl
  · rw [← length]
    exact holds

end Variant

end BitcoinClib.Encoding.Base64
