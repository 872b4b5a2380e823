import BitcoinClib.Encoding.Base58Encoder

/-!
Contract: what the decoder of `base58.c` computes.

Owns:
- the digit of a character, and which characters the table accepts;
- that `base58_decode` returns the bytes of a string over the alphabet
  (`base58Decode_eq`), and when it refuses a string (`base58Decode_refuses_iff`).

Does not own: the composition with the encoder.
-/

namespace BitcoinClib.Encoding

open BitcoinClib.Lib
open BitcoinClib.Types

/-! ## Characters -/

/-- The digit of a character, from the table. -/
def b58Digit (char : UInt8) : Nat := sB58Table.getD char.toNat 0xFF

/-- The table inverts the alphabet, and has no digit for any other code below 128. -/
theorem sB58Table_codes : sB58Table.length = 256 ∧
    (∀ code ∈ sB58Codes, code < 128 ∧ sB58Table.getD code 0xFF < 58 ∧
      sB58Codes.getD (sB58Table.getD code 0xFF) 0 = code) ∧
    (∀ digit < 58, sB58Table.getD (sB58Codes.getD digit 0) 0xFF = digit) ∧
    ∀ code < 128, code ∉ sB58Codes → sB58Table[code]? = some 0xFF := by
  decide +kernel

theorem sB58Table_length : sB58Table.length = 256 := sB58Table_codes.1

theorem b58Char_toNat (digit : Nat) : (b58Char digit).toNat = sB58Codes.getD digit 0 := by
  rw [b58Char, ← sB58Digits_codes, List.getD_eq_getElem?_getD, List.getD_eq_getElem?_getD,
    List.getElem?_map]
  cases sB58Digits[digit]? with
  | none => rfl
  | some char => rfl

theorem b58Char_mem {digit : Nat} (small : digit < 58) : b58Char digit ∈ sB58Digits := by
  have inside : digit < sB58Digits.length := by
    rw [sB58Digits_length]
    exact small
  rw [b58Char, List.getD_eq_getElem?_getD, List.getElem?_eq_getElem inside]
  exact List.getElem_mem inside

theorem b58Digit_b58Char {digit : Nat} (small : digit < 58) :
    b58Digit (b58Char digit) = digit := by
  rw [b58Digit, b58Char_toNat]
  exact sB58Table_codes.2.2.1 digit small

theorem sB58Digits_facts (char : UInt8) (member : char ∈ sB58Digits) :
    char < 0x80 ∧ b58Digit char < 58 ∧ b58Char (b58Digit char) = char := by
  have code : char.toNat ∈ sB58Codes := by
    rw [← sB58Digits_codes]
    exact List.mem_map_of_mem member
  obtain ⟨small, digit, back⟩ := sB58Table_codes.2.1 _ code
  refine ⟨UInt8.lt_iff_toNat_lt.2 small, digit, ?_⟩
  rw [← UInt8.toNat_inj, b58Char_toNat]
  exact back

theorem charOne_eq : charOne = b58Char 0 := by
  rw [← UInt8.toNat_inj, b58Char_toNat]
  rfl

theorem charOne_mem : charOne ∈ sB58Digits := by
  rw [charOne_eq]
  exact b58Char_mem (by decide)

theorem b58Digit_charOne : b58Digit charOne = 0 := by
  rw [charOne_eq]
  exact b58Digit_b58Char (by decide)

/-- The table at a character of the alphabet. -/
theorem tableAt_inside {char : UInt8} (member : char ∈ sB58Digits) :
    tableAt char = .ok (b58Digit char) := by
  have inside : char.toNat < sB58Table.length := by
    rw [sB58Table_length]
    exact char.toNat_lt
  rw [tableAt, if_pos (sB58Digits_facts char member).1, Exec.readAt_of_lt inside, b58Digit,
    List.getD_eq_getElem?_getD, List.getElem?_eq_getElem inside, Option.getD_some]

/-- The table at a character outside the alphabet whose code is not negative. -/
theorem tableAt_outside {char : UInt8} (small : char < 0x80) (outside : char ∉ sB58Digits) :
    tableAt char = .ok 0xFF := by
  have code : char.toNat < 128 := UInt8.lt_iff_toNat_lt.1 small
  have noDigit : char.toNat ∉ sB58Codes := by
    intro inside
    rw [← sB58Digits_codes] at inside
    obtain ⟨other, member, same⟩ := List.mem_map.1 inside
    exact outside (UInt8.toNat_inj.1 same ▸ member)
  have entry := sB58Table_codes.2.2.2 char.toNat code noDigit
  rw [tableAt, if_pos small, Exec.readAt_eq_ok]
  exact entry

/-- Only one digit is no character of the alphabet, and it has no digit. -/
theorem tableAt_eq_ok {char : UInt8} {digit : Nat} (found : tableAt char = .ok digit) :
    char < 0x80 ∧ (digit = 0xFF ↔ char ∉ sB58Digits) := by
  have small : char < 0x80 := by
    by_contra large
    rw [tableAt, if_neg large] at found
    cases found
  refine ⟨small, ?_⟩
  by_cases member : char ∈ sB58Digits
  · rw [tableAt_inside member] at found
    injection found with same
    have below := (sB58Digits_facts char member).2.1
    constructor
    · intro none
      omega
    · intro outside
      exact absurd member outside
  · rw [tableAt_outside small member] at found
    injection found with same
    exact ⟨fun _ => member, fun _ => same.symm⟩

/-! ## The loop over the characters -/

/-- The number that a string over the alphabet stands for, read behind `value`. -/
def b58Value (value : Nat) (chars : Bytes) : Nat := readDigits 58 value (chars.map b58Digit)

theorem b58Value_cons (value : Nat) (char : UInt8) (chars : Bytes) :
    b58Value value (char :: chars) = b58Value (58 * value + b58Digit char) chars := rfl

/-- A string has at most as many bytes as characters, and at least one. -/
theorem numeral_b58Value_length {chars : Bytes} (inside : ∀ char ∈ chars, char ∈ sB58Digits) :
    (numeral 256 (b58Value 0 chars)).length ≤ max 1 chars.length := by
  by_cases empty : chars = []
  · rw [empty, b58Value, List.map_nil, readDigits_nil, numeral_zero, List.length_singleton]
    exact le_max_left _ _
  · have bounded : ∀ digit ∈ (chars.map b58Digit).reverse, digit < 58 := by
      intro digit member
      obtain ⟨char, inChars, rfl⟩ := List.mem_map.1 (List.mem_reverse.1 member)
      exact (sB58Digits_facts char (inside char inChars)).2.1
    have small : b58Value 0 chars < 58 ^ chars.length := by
      rw [b58Value, readDigits_eq, Nat.mul_zero, Nat.zero_add]
      have below := Nat.ofDigits_lt_base_pow_length (by decide) bounded
      rwa [List.length_reverse, List.length_map] at below
    refine le_trans (numeral_length_le (by decide) (List.length_pos_iff.2 empty) ?_)
      (le_max_right _ _)
    exact Nat.lt_of_lt_of_le small (Nat.pow_le_pow_left (by decide) _)

/-- The loop runs through characters of the alphabet. -/
theorem decodeLoop_through {b58 tail : Bytes} {cbB58 size : Nat} (remaining : Nat) :
    ∀ (chars front : Bytes) (value : Nat), b58 = front ++ (chars ++ tail) →
      (∀ char ∈ chars, char ∈ sB58Digits) → front.length + chars.length < 2 ^ 31 →
      (numeral 256 (b58Value value chars)).length < 2 ^ 31 →
      (numeral 256 (b58Value value chars)).length ≤ size →
      (numeral 256 (b58Value value chars)).length ≤ cbB58 + 1 →
      decodeLoop b58 cbB58 (chars.length + remaining) front.length
          (digitArray size 256 value) (numeral 256 value).length =
        decodeLoop b58 cbB58 remaining (front.length + chars.length)
          (digitArray size 256 (b58Value value chars))
          (numeral 256 (b58Value value chars)).length
  | [], front, value, _, _, _, _, _, _ => by
      rw [List.length_nil, Nat.zero_add, Nat.add_zero]
      rfl
  | char :: chars, front, value, memory, inside, inRange, short, room, asserted => by
      have member := inside char List.mem_cons_self
      have digit := (sB58Digits_facts char member).2.1
      have stored : b58[front.length]? = some char := by
        rw [memory, List.getElem?_append_right (le_refl _), Nat.sub_self, List.cons_append,
          List.getElem?_cons_zero]
      rw [b58Value_cons] at short room asserted ⊢
      have grown : 58 * value + b58Digit char ≤ b58Value (58 * value + b58Digit char) chars :=
        le_readDigits (by decide) _ _
      have longer := numeral_length_mono 256 grown
      have shorter : (numeral 256 value).length ≤
          (numeral 256 (58 * value + b58Digit char)).length :=
        numeral_length_mono 256 (by omega)
      have step : addDigit 58 256 (fun cbDst => Exec.assert (cbDst ≤ cbB58))
          (digitArray size 256 value) (numeral 256 value).length (b58Digit char) = _ :=
        addDigit_eq (by decide) digit (by decide) (by omega) (by omega)
          (fun cbDst _ below => Exec.assert_of (by omega))
      have memoryThere : b58 = (front ++ [char]) ++ (chars ++ tail) := by
        rw [memory, List.append_assoc, List.singleton_append, List.cons_append]
      have length : (front ++ [char]).length = front.length + 1 := by
        rw [List.length_append, List.length_singleton]
      rw [List.length_cons] at inRange
      have rest := decodeLoop_through remaining chars (front ++ [char])
        (58 * value + b58Digit char) memoryThere
        (fun other later => inside other (List.mem_cons_of_mem _ later)) (by omega) short room
        asserted
      rw [length] at rest
      rw [List.length_cons, Nat.add_right_comm, decodeLoop, Exec.readAt_eq_ok.2 stored,
        Exec.ok_bind, tableAt_inside member, Exec.ok_bind, if_neg (by omega), step, Exec.ok_bind]
      dsimp only
      rw [Exec.checkedInt_of_lt (by omega), Exec.ok_bind, rest]
      congr 1
      omega

/-- A loop that accepts has found characters of the alphabet only, and counted them in an
`int`. -/
theorem decodeLoop_accepted {b58 : Bytes} {cbB58 : Nat} {result : List Nat × Nat} :
    ∀ (remaining i : Nat) (dst : List Nat) (cbDst : Nat),
      decodeLoop b58 cbB58 remaining i dst cbDst = .ok (some result) → i < 2 ^ 31 →
      i + remaining < 2 ^ 31 ∧
        ∀ j, j < remaining → ∃ char, b58[i + j]? = some char ∧ char ∈ sB58Digits
  | 0, _, _, _, _, inRange => ⟨inRange, fun _ below => absurd below (Nat.not_lt_zero _)⟩
  | remaining + 1, i, dst, cbDst, returned, _ => by
      rw [decodeLoop] at returned
      obtain ⟨char, stored, returned⟩ := Exec.bind_eq_ok.1 returned
      rw [Exec.readAt_eq_ok] at stored
      obtain ⟨carry, found, returned⟩ := Exec.bind_eq_ok.1 returned
      obtain ⟨-, outside⟩ := tableAt_eq_ok found
      by_cases refused : carry = 0xFF
      · rw [if_pos refused] at returned
        cases returned
      · rw [if_neg refused] at returned
        obtain ⟨⟨dst', cbDst'⟩, -, returned⟩ := Exec.bind_eq_ok.1 returned
        obtain ⟨next, counted, returned⟩ := Exec.bind_eq_ok.1 returned
        obtain ⟨fits, rfl⟩ := Exec.checkedInt_eq_ok.1 counted
        obtain ⟨inRange, inside⟩ :=
          decodeLoop_accepted remaining (i + 1) dst' cbDst' returned fits
        refine ⟨by omega, fun j below => ?_⟩
        cases j with
        | zero =>
            refine ⟨char, stored, ?_⟩
            by_contra none
            exact refused (outside.2 none)
        | succ j =>
            obtain ⟨other, here, inAlphabet⟩ := inside j (by omega)
            refine ⟨other, ?_, inAlphabet⟩
            rwa [Nat.add_right_comm, Nat.add_assoc] at here

/-- A loop that refuses has found a character outside the alphabet, and counted the ones in
front of it in an `int`. -/
theorem decodeLoop_refused {b58 : Bytes} {cbB58 : Nat} :
    ∀ (remaining i : Nat) (dst : List Nat) (cbDst : Nat),
      decodeLoop b58 cbB58 remaining i dst cbDst = .ok none → i < 2 ^ 31 →
      ∃ offset char, offset < remaining ∧ i + offset < 2 ^ 31 ∧
        b58[i + offset]? = some char ∧ char < 0x80 ∧ char ∉ sB58Digits ∧
        ∀ j, j < offset → ∃ other, b58[i + j]? = some other ∧ other ∈ sB58Digits
  | 0, _, _, _, returned, _ => by
      rw [decodeLoop] at returned
      cases returned
  | remaining + 1, i, dst, cbDst, returned, inRange => by
      rw [decodeLoop] at returned
      obtain ⟨char, stored, returned⟩ := Exec.bind_eq_ok.1 returned
      rw [Exec.readAt_eq_ok] at stored
      obtain ⟨carry, found, returned⟩ := Exec.bind_eq_ok.1 returned
      obtain ⟨small, outside⟩ := tableAt_eq_ok found
      by_cases refused : carry = 0xFF
      · exact ⟨0, char, Nat.succ_pos _, inRange, stored, small, outside.1 refused,
          fun j below => absurd below (Nat.not_lt_zero _)⟩
      · rw [if_neg refused] at returned
        have member : char ∈ sB58Digits := by
          by_contra none
          exact refused (outside.2 none)
        obtain ⟨⟨dst', cbDst'⟩, -, returned⟩ := Exec.bind_eq_ok.1 returned
        obtain ⟨next, counted, returned⟩ := Exec.bind_eq_ok.1 returned
        obtain ⟨fits, rfl⟩ := Exec.checkedInt_eq_ok.1 counted
        obtain ⟨offset, bad, inside, reached, there, badSmall, badOutside, before⟩ :=
          decodeLoop_refused remaining (i + 1) dst' cbDst' returned fits
        refine ⟨offset + 1, bad, by omega, by omega, ?_, badSmall, badOutside, ?_⟩
        · rwa [Nat.add_right_comm, Nat.add_assoc] at there
        · intro j below
          cases j with
          | zero => exact ⟨char, stored, member⟩
          | succ j =>
              obtain ⟨other, here, inAlphabet⟩ := before j (by omega)
              refine ⟨other, ?_, inAlphabet⟩
              rwa [Nat.add_right_comm, Nat.add_assoc] at here

/-! ## The bytes in their order -/

theorem readAt_append {α : Type} (front rest : List α) (item : α) :
    Exec.readAt (front ++ item :: rest) front.length = .ok item := by
  rw [Exec.readAt_eq_ok, List.getElem?_append_right (le_refl _), Nat.sub_self,
    List.getElem?_cons_zero]

theorem writeAt_append {α : Type} (front rest : List α) (item other : α) :
    Exec.writeAt (front ++ item :: rest) front.length other = .ok (front ++ other :: rest) := by
  have inside : front.length < (front ++ item :: rest).length := by
    rw [List.length_append, List.length_cons]
    omega
  rw [Exec.writeAt_of_lt inside, List.set_append_right _ _ (le_refl _), Nat.sub_self,
    List.set_cons_zero]

/-- The swaps leave what they have passed on both sides and reverse what is between. -/
theorem reverseLoop_between (tail : List Nat) :
    ∀ (remaining : Nat) (front between back : List Nat), between.length / 2 = remaining →
      front.length = back.length →
      reverseLoop (front.length + between.length + back.length) remaining front.length
          (front ++ (between ++ (back ++ tail))) =
        .ok (front ++ (between.reverse ++ (back ++ tail)))
  | 0, front, between, back, half, _ => by
      have short : between.reverse = between := by
        match between, half with
        | [], _ => rfl
        | [_], _ => rfl
        | _ :: _ :: rest, half =>
            rw [List.length_cons, List.length_cons] at half
            omega
      rw [reverseLoop, short]
  | remaining + 1, front, between, back, half, same => by
      obtain ⟨first, inner, last, rfl⟩ :
          ∃ first inner last, between = first :: (inner ++ [last]) := by
        cases between with
        | nil => cases half
        | cons first rest =>
            have nonempty : rest ≠ [] := by
              intro empty
              rw [empty, List.length_singleton] at half
              omega
            exact ⟨first, rest.dropLast, rest.getLast nonempty,
              by rw [List.dropLast_append_getLast]⟩
      rw [List.length_cons, List.length_append, List.length_singleton] at half
      have lastIndex : front.length + (first :: (inner ++ [last])).length + back.length -
          front.length - 1 = (front ++ last :: inner).length := by
        simp only [List.length_append, List.length_cons, List.length_nil]
        omega
      have lastIndex' : (front ++ first :: inner).length = (front ++ last :: inner).length := by
        simp only [List.length_append, List.length_cons]
      have atFirst : front ++ (first :: (inner ++ [last]) ++ (back ++ tail)) =
          front ++ first :: (inner ++ last :: (back ++ tail)) := by
        simp only [List.cons_append, List.append_assoc, List.nil_append]
      have atLast : front ++ first :: (inner ++ last :: (back ++ tail)) =
          (front ++ first :: inner) ++ last :: (back ++ tail) := by
        simp only [List.cons_append, List.append_assoc]
      have swapped : front ++ last :: (inner ++ last :: (back ++ tail)) =
          (front ++ last :: inner) ++ last :: (back ++ tail) := by
        simp only [List.cons_append, List.append_assoc]
      have rest := reverseLoop_between tail remaining (front ++ [last]) inner (first :: back)
        (by omega) (by rw [List.length_append, List.length_singleton, List.length_cons, same])
      have count : (front ++ [last]).length + inner.length + (first :: back).length =
          front.length + (first :: (inner ++ [last])).length + back.length := by
        simp only [List.length_append, List.length_cons, List.length_nil]
        omega
      rw [count, List.length_append, List.length_singleton] at rest
      rw [reverseLoop, lastIndex, atFirst, readAt_append, Exec.ok_bind, atLast, ← lastIndex',
        readAt_append, Exec.ok_bind, ← atLast, writeAt_append, Exec.ok_bind, swapped, lastIndex',
        writeAt_append, Exec.ok_bind]
      refine Eq.trans ?_ (rest.trans ?_)
      · simp only [List.cons_append, List.append_assoc, List.nil_append]
      · simp only [List.reverse_cons, List.reverse_append, List.cons_append, List.append_assoc,
          List.nil_append, List.reverse_nil]

theorem reverseLoop_eq (digits tail : List Nat) :
    reverseLoop digits.length (digits.length / 2) 0 (digits ++ tail) =
      .ok (digits.reverse ++ tail) := by
  have whole := reverseLoop_between tail (digits.length / 2) [] digits [] rfl rfl
  rw [List.length_nil, Nat.zero_add, Nat.add_zero] at whole
  exact whole

/-! ## `base58_decode` -/

/-- The number of leading digits `1`. -/
def leadingOnes (text : Bytes) : Nat := (text.takeWhile (· = charOne)).length

/-- What follows them. -/
def significant (text : Bytes) : Bytes := text.dropWhile (· = charOne)

/-- Zero bytes for the leading digits `1`, and the bytes of the number behind them. -/
def decodedBytes (text : Bytes) : Bytes :=
  List.replicate (leadingOnes text) 0 ++
    (numeral 256 (b58Value 0 (significant text))).reverse.map UInt8.ofNat

/-- The length passed for a string: its length, or nothing where `strlen` finds it. -/
def Reads (text : Bytes) (cbB58 : Int) : Prop :=
  cbB58 = text.length ∨ cbB58 ≤ 0 ∧ 0 ∉ text

/-- The decoder returns the bytes and their number, in an array of its own or in one with room
for them. -/
def DecodesTo (b58 : Bytes) (cbB58 : Int) (bytes : Bytes) : Prop :=
  ∀ pDst, (∀ cells, pDst = some cells → bytes.length ≤ cells.length) →
    ∃ out, base58Decode b58 cbB58 pDst = .ok ((bytes.length : Nat), some out) ∧
      out.take bytes.length = bytes

theorem skipOnes_eq : ∀ (text rest : Bytes),
    skipOnes (text ++ 0 :: rest) = .ok (leadingOnes text)
  | [], rest => rfl
  | char :: text, rest => by
      rw [List.cons_append, skipOnes]
      by_cases one : char = charOne
      · rw [if_pos one, skipOnes_eq text rest, Exec.ok_bind, leadingOnes, leadingOnes,
          List.takeWhile_cons_of_pos (by rw [decide_eq_true_eq]; exact one), List.length_cons]
      · rw [if_neg one, leadingOnes,
          List.takeWhile_cons_of_neg (by rw [decide_eq_true_eq]; exact one), List.length_nil]

theorem leadingOnes_append_significant (text : Bytes) :
    text = List.replicate (leadingOnes text) charOne ++ significant text :=
  replicate_append_dropWhile charOne text

theorem length_eq_leadingOnes_add (text : Bytes) :
    text.length = leadingOnes text + (significant text).length := by
  conv_lhs => rw [leadingOnes_append_significant text]
  rw [List.length_append, List.length_replicate]

/-- The start of the decoder on a string that is not empty. -/
theorem base58Decode_start {text : Bytes} (nonempty : text ≠ []) (rest : Bytes) {cbB58 : Int}
    (reads : Reads text cbB58) (pDst : Option Bytes) :
    base58Decode (text ++ 0 :: rest) cbB58 pDst = (do
      let decoded ← decodeLoop (significant text ++ 0 :: rest) (significant text).length
        (significant text).length 0 (List.replicate ((significant text).length + 1) 0) 1
      finishDecode text.length (leadingOnes text) pDst decoded) := by
  have positive := List.length_pos_iff.2 nonempty
  have length := length_eq_leadingOnes_add text
  have counted : textLength (text ++ 0 :: rest) cbB58 = .ok text.length := by
    unfold textLength
    rcases reads with given | ⟨missing, absent⟩
    · rw [if_neg (by omega), given, Int.toNat_natCast]
    · rw [if_pos missing, strlen_eq rest absent]
  have behind : (text ++ 0 :: rest).drop (leadingOnes text) = significant text ++ 0 :: rest := by
    rw [List.drop_append_of_le_length (by omega), leadingOnes, dropWhile_eq_drop, significant]
  have left : text.length - leadingOnes text = (significant text).length := by omega
  have size : text.length + 1 - leadingOnes text = (significant text).length + 1 := by omega
  rw [base58Decode, counted, Exec.ok_bind, if_neg (by omega), skipOnes_eq, Exec.ok_bind, behind,
    left, size]

/-- The decoder on a string over the alphabet that is indexed by an `int`. -/
theorem base58Decode_eq {text : Bytes} (nonempty : text ≠ [])
    (inside : ∀ char ∈ text, char ∈ sB58Digits) (inRange : (significant text).length < 2 ^ 31)
    (rest : Bytes) {cbB58 : Int} (reads : Reads text cbB58) :
    DecodesTo (text ++ 0 :: rest) cbB58 (decodedBytes text) := by
  have insideSignificant : ∀ char ∈ significant text, char ∈ sB58Digits := by
    intro char member
    exact inside char ((List.dropWhile_sublist _).subset member)
  have short := numeral_b58Value_length insideSignificant
  have loop : decodeLoop (significant text ++ 0 :: rest) (significant text).length
      ((significant text).length + 0) ([] : Bytes).length
      (digitArray ((significant text).length + 1) 256 0) (numeral 256 0).length = _ :=
    decodeLoop_through 0 (significant text) [] 0 rfl insideSignificant
      (by rw [List.length_nil]; omega) (by omega) (by omega) (by omega)
  rw [List.length_nil, Nat.add_zero, digitArray_zero (Nat.succ_pos _), numeral_zero,
    List.length_singleton, decodeLoop, digitArray] at loop
  have length := length_eq_leadingOnes_add text
  have bytesLength : (decodedBytes text).length =
      (numeral 256 (b58Value 0 (significant text))).length + leadingOnes text := by
    rw [decodedBytes, List.length_append, List.length_replicate, List.length_map,
      List.length_reverse, Nat.add_comm]
  intro pDst room
  rw [base58Decode_start nonempty rest reads, loop, Exec.ok_bind, finishDecode, reverseLoop_eq,
    Exec.ok_bind, ← bytesLength]
  dsimp only
  have held : (List.replicate (leadingOnes text) 0 ++
      ((numeral 256 (b58Value 0 (significant text))).reverse ++
        List.replicate ((significant text).length + 1 -
          (numeral 256 (b58Value 0 (significant text))).length) 0).map UInt8.ofNat).take
        (text.length + 1) =
      decodedBytes text ++ (List.replicate ((significant text).length + 1 -
          (numeral 256 (b58Value 0 (significant text))).length) 0).map UInt8.ofNat := by
    rw [List.map_append, ← List.append_assoc, ← decodedBytes]
    apply List.take_of_length_le
    rw [List.length_append, List.length_map, List.length_replicate, bytesLength]
    omega
  rw [held]
  cases pDst with
  | none =>
      refine ⟨_, rfl, ?_⟩
      exact List.take_left
  | some cells =>
      have inCells := room cells rfl
      rw [storeBytes, if_pos ⟨by rw [List.length_append]; omega, inCells⟩, Exec.ok_bind]
      refine ⟨_, rfl, ?_⟩
      rw [List.take_left]
      exact List.take_left

/-- The bytes a string decodes to are determined. -/
theorem DecodesTo.unique {b58 : Bytes} {cbB58 : Int} {bytes other : Bytes}
    (left : DecodesTo b58 cbB58 bytes) (right : DecodesTo b58 cbB58 other) : bytes = other := by
  obtain ⟨out, returned, taken⟩ := left none (fun _ same => nomatch same)
  obtain ⟨out', returned', taken'⟩ := right none (fun _ same => nomatch same)
  rw [returned] at returned'
  injection returned' with same
  injection same with length cells
  injection cells with cells
  have sameLength : bytes.length = other.length := Int.ofNat.inj length
  rw [← taken, ← taken', cells, sameLength]

/-- A string that decodes to something is over the alphabet, and what follows its leading
digits `1` is counted in an `int`. -/
theorem DecodesTo.accepted {text rest bytes : Bytes} {cbB58 : Int} (reads : Reads text cbB58)
    (decodes : DecodesTo (text ++ 0 :: rest) cbB58 bytes) :
    text ≠ [] ∧ (∀ char ∈ text, char ∈ sB58Digits) ∧ (significant text).length < 2 ^ 31 := by
  obtain ⟨out, returned, -⟩ := decodes none (fun _ same => nomatch same)
  have nonempty : text ≠ [] := by
    intro empty
    subst empty
    have none : cbB58 ≤ 0 := by
      rcases reads with given | missing
      · rw [given]
        decide
      · exact missing.1
    rw [base58Decode, textLength, if_pos none, strlen_eq rest List.not_mem_nil, Exec.ok_bind,
      List.length_nil, if_pos rfl] at returned
    injection returned with returned
    injection returned with _ cells
    cases cells
  rw [base58Decode_start nonempty rest reads] at returned
  obtain ⟨decoded, loop, returned⟩ := Exec.bind_eq_ok.1 returned
  cases decoded with
  | none =>
      rw [finishDecode] at returned
      cases returned
  | some result =>
      obtain ⟨inRange, inside⟩ := decodeLoop_accepted _ 0 _ _ loop (by decide)
      refine ⟨nonempty, fun char member => ?_, by omega⟩
      rw [leadingOnes_append_significant text] at member
      rcases List.mem_append.1 member with one | later
      · rw [List.eq_of_mem_replicate one]
        exact charOne_mem
      · obtain ⟨j, below, rfl⟩ := List.getElem_of_mem later
        obtain ⟨found, stored, inAlphabet⟩ := inside j below
        rw [Nat.zero_add, List.getElem?_append_left below,
          List.getElem?_eq_getElem below] at stored
        injection stored with same
        rwa [same]

/-! ## Refused strings -/

/-- The decoder returns -1 and leaves `*p_dst` alone. -/
def Refused (text : Bytes) : Prop :=
  ∀ rest cbB58 pDst, Reads text cbB58 →
    base58Decode (text ++ 0 :: rest) cbB58 pDst = .ok (-1, pDst)

/-- The first character outside the alphabet has a code below 128, and the characters between
it and the leading digits `1` are counted in an `int`. -/
def Refusable (text : Bytes) : Prop :=
  ∃ front char back, text = front ++ char :: back ∧ (∀ other ∈ front, other ∈ sB58Digits) ∧
    char ∉ sB58Digits ∧ char < 0x80 ∧ (significant front).length < 2 ^ 31

theorem significant_append {front back : Bytes} {char : UInt8} (outside : char ∉ sB58Digits) :
    significant (front ++ char :: back) = significant front ++ char :: back := by
  have notOne : char ≠ charOne := fun one => outside (one ▸ charOne_mem)
  have stops : (char :: back).dropWhile (· = charOne) = char :: back :=
    List.dropWhile_cons_of_neg (by rw [decide_eq_true_eq]; exact notOne)
  rw [significant, significant, List.dropWhile_append, stops]
  split
  case isTrue empty =>
    rw [List.isEmpty_iff] at empty
    rw [empty, List.nil_append]
  case isFalse => rfl

theorem significant_head? {text : Bytes} {char : UInt8}
    (found : (significant text).head? = some char) : char ≠ charOne := by
  have different := List.head?_dropWhile_not (· = charOne) text
  rw [significant] at found
  rw [found] at different
  simpa using different

/-- The decoder refuses a string exactly where the table is not left at its first bad
character. -/
theorem base58Decode_refuses_iff {text : Bytes} (bad : ∃ char ∈ text, char ∉ sB58Digits) :
    Refused text ↔ Refusable text := by
  have nonempty : text ≠ [] := by
    obtain ⟨char, member, -⟩ := bad
    exact List.ne_nil_of_mem member
  constructor
  · intro refused
    have returned := refused [] text.length none (Or.inl rfl)
    rw [base58Decode_start nonempty [] (Or.inl rfl)] at returned
    obtain ⟨decoded, loop, returned⟩ := Exec.bind_eq_ok.1 returned
    cases decoded with
    | some result =>
        obtain ⟨dst, cbDst⟩ := result
        rw [finishDecode] at returned
        obtain ⟨reversed, -, returned⟩ := Exec.bind_eq_ok.1 returned
        obtain ⟨out, -, returned⟩ := Exec.bind_eq_ok.1 returned
        injection returned with returned
        injection returned with size _
        omega
    | none =>
        obtain ⟨offset, char, inside, inRange, stored, small, outside, before⟩ :=
          decodeLoop_refused _ 0 _ _ loop (by decide)
        rw [Nat.zero_add, List.getElem?_append_left inside,
          List.getElem?_eq_getElem inside] at stored
        injection stored with stored
        have split : significant text = (significant text).take offset ++
            char :: (significant text).drop (offset + 1) := by
          rw [← stored, ← List.drop_eq_getElem_cons inside, List.take_append_drop]
        have front : significant (List.replicate (leadingOnes text) charOne ++
            (significant text).take offset) = (significant text).take offset := by
          refine dropWhile_replicate_append (fun first found => ?_) _
          cases offset with
          | zero => cases found
          | succ offset =>
              rw [List.head?_take, if_neg (Nat.succ_ne_zero _)] at found
              exact significant_head? found
        refine ⟨List.replicate (leadingOnes text) charOne ++ (significant text).take offset,
          char, (significant text).drop (offset + 1), ?_, ?_, outside, small, ?_⟩
        · rw [List.append_assoc, ← split]
          exact leadingOnes_append_significant text
        · intro other member
          rcases List.mem_append.1 member with one | early
          · rw [List.eq_of_mem_replicate one]
            exact charOne_mem
          · obtain ⟨j, below, rfl⟩ := List.getElem_of_mem early
            rw [List.length_take] at below
            obtain ⟨found, here, inAlphabet⟩ := before j (by omega)
            rw [Nat.zero_add, List.getElem?_append_left (by omega),
              List.getElem?_eq_getElem (by omega)] at here
            injection here with same
            rwa [List.getElem_take, same]
        · rw [front, List.length_take]
          omega
  · intro refusable rest cbB58 pDst reads
    obtain ⟨front, char, back, rfl, inFront, outside, small, inRange⟩ := refusable
    have insideSignificant : ∀ other ∈ significant front, other ∈ sB58Digits := by
      intro other member
      exact inFront other ((List.dropWhile_sublist _).subset member)
    have short := numeral_b58Value_length insideSignificant
    have split : significant (front ++ char :: back) = significant front ++ char :: back :=
      significant_append outside
    have memory : significant (front ++ char :: back) ++ 0 :: rest =
        [] ++ (significant front ++ char :: (back ++ 0 :: rest)) := by
      rw [split, List.nil_append, List.append_assoc, List.cons_append]
    have count : (significant (front ++ char :: back)).length =
        (significant front).length + (back.length + 1) := by
      rw [split, List.length_append, List.length_cons]
    have loop : decodeLoop (significant (front ++ char :: back) ++ 0 :: rest)
        (significant (front ++ char :: back)).length
        ((significant front).length + (back.length + 1)) ([] : Bytes).length
        (digitArray ((significant (front ++ char :: back)).length + 1) 256 0)
        (numeral 256 0).length = _ :=
      decodeLoop_through (back.length + 1) (significant front) [] 0 memory insideSignificant
        (by rw [List.length_nil]; omega) (by omega) (by omega) (by omega)
    have stored : (significant (front ++ char :: back) ++ 0 :: rest)[0 +
        (significant front).length]? = some char := by
      rw [memory, List.nil_append, Nat.zero_add, List.getElem?_append_right (le_refl _),
        Nat.sub_self, List.getElem?_cons_zero]
    rw [List.length_nil, digitArray_zero (Nat.succ_pos _), numeral_zero, List.length_singleton,
      ← count, decodeLoop, Exec.readAt_eq_ok.2 stored, Exec.ok_bind,
      tableAt_outside small outside, Exec.ok_bind, if_pos rfl] at loop
    rw [base58Decode_start nonempty rest reads, loop, Exec.ok_bind, finishDecode]

end BitcoinClib.Encoding
