import BitcoinClib.Encoding.Base58
import BitcoinClib.Lib.Numeral

/-!
Contract: the work arrays of `base58.c` hold numerals.

Owns:
- `digitArray`, a work array that holds a number;
- that one byte or character leads from the array of a number to that of the next one
  (`addDigit_eq`), without an access outside the array or an `int` that overflows;
- the loops over all bytes (`encodeLoop_eq`) and over the digits of the result.

Does not own: leading zeros, and what happens outside the alphabet.
-/

namespace BitcoinClib.Encoding

open BitcoinClib.Lib
open BitcoinClib.Types

/-- An array of `size` cells that holds `value`. -/
def digitArray (size base value : Nat) : List Nat :=
  numeral base value ++ List.replicate (size - (numeral base value).length) 0

theorem digitArray_zero {size base : Nat} (positive : 0 < size) :
    digitArray size base 0 = List.replicate size 0 := by
  rw [digitArray, numeral_zero, List.length_singleton, ← List.replicate_one,
    List.replicate_append_replicate]
  congr 1
  omega

/-- One round at a digit whose product fits an `int`. -/
theorem digitRound_at {factor base digit carry : Nat} (front rest : List Nat)
    (fits : carry + digit * factor < 2 ^ 31) :
    digitRound factor base front.length (front ++ digit :: rest) carry =
      .ok (front ++ (carry + digit * factor) % base :: rest,
        (carry + digit * factor) / base) := by
  have stored : (front ++ digit :: rest)[front.length]? = some digit := by
    rw [List.getElem?_append_right (le_refl _), Nat.sub_self, List.getElem?_cons_zero]
  have inside : front.length < (front ++ digit :: rest).length := by
    rw [List.length_append, List.length_cons]
    omega
  have written : (front ++ digit :: rest).set front.length ((carry + digit * factor) % base) =
      front ++ (carry + digit * factor) % base :: rest := by
    rw [List.set_append_right _ _ (le_refl _), Nat.sub_self, List.set_cons_zero]
  rw [digitRound, Exec.readAt_eq_ok.2 stored, Exec.ok_bind, Exec.checkedInt_of_lt fits,
    Exec.ok_bind, Exec.writeAt_of_lt inside, Exec.ok_bind, written]

/-- The loop over the digits in use is one pass of `mulAdd`. -/
theorem digitsLoop_eq {factor base cbDst : Nat} (narrow : base * factor ≤ 2 ^ 31)
    (inRange : cbDst < 2 ^ 31) :
    ∀ (digits front tail : List Nat) (carry fuel : Nat), digits ≠ [] →
      front.length + digits.length = cbDst → digits.length ≤ fuel →
      (∀ digit ∈ digits, digit < base) → carry < factor →
      digitsLoop factor base cbDst fuel front.length (front ++ (digits ++ tail)) carry =
        .ok (front ++ ((mulAdd factor base digits carry).1 ++ tail),
          (mulAdd factor base digits carry).2)
  | [], _, _, _, _, nonempty, _, _, _, _ => absurd rfl nonempty
  | digit :: digits, front, tail, carry, 0, _, _, enough, _, _ => absurd enough (by simp)
  | digit :: digits, front, tail, carry, fuel + 1, _, length, enough, bounded, small => by
      have below : digit < base := bounded digit List.mem_cons_self
      have fits : carry + digit * factor < base * factor :=
        calc carry + digit * factor < factor + digit * factor := by omega
          _ = (digit + 1) * factor := by ring
          _ ≤ base * factor := Nat.mul_le_mul_right _ below
      have nextSmall : (carry + digit * factor) / base < factor := Nat.div_lt_of_lt_mul fits
      rw [List.length_cons] at length enough
      rw [digitsLoop, List.cons_append, digitRound_at _ _ (by omega), Exec.ok_bind,
        Exec.checkedInt_of_lt (by omega)]
      simp only [mulAdd, Exec.ok_bind]
      by_cases last : digits = []
      · subst last
        rw [List.length_nil] at length
        rw [if_neg (by omega)]
        rfl
      · have more : 0 < digits.length := List.length_pos_iff.2 last
        have rest := digitsLoop_eq narrow inRange digits
          (front ++ [(carry + digit * factor) % base]) tail ((carry + digit * factor) / base) fuel
          last (by rw [List.length_append, List.length_singleton]; omega) (by omega)
          (fun other member => bounded other (List.mem_cons_of_mem _ member)) nextSmall
        rw [List.length_append, List.length_singleton, List.append_assoc,
          List.singleton_append] at rest
        rw [if_pos (by omega), rest, List.append_assoc, List.singleton_append, List.cons_append]

/-- The loop over the carry appends its digits. -/
theorem carryLoop_eq (factor : Nat) {base : Nat} (wide : 1 < base) {check : Nat → Exec Unit} :
    ∀ (fuel room : Nat) (digits : List Nat) (carry : Nat), carry < 2 ^ 31 →
      (Nat.digits base carry).length ≤ room → (Nat.digits base carry).length < fuel →
      (∀ cbDst, digits.length ≤ cbDst →
        cbDst < digits.length + (Nat.digits base carry).length → check cbDst = .ok ()) →
      carryLoop factor base check fuel (digits ++ List.replicate room 0) digits.length carry =
        .ok (digits ++ Nat.digits base carry ++
            List.replicate (room - (Nat.digits base carry).length) 0,
          digits.length + (Nat.digits base carry).length)
  | 0, _, _, _, _, _, enough, _ => absurd enough (Nat.not_lt_zero _)
  | fuel + 1, room, digits, carry, fits, inside, enough, checked => by
      rw [carryLoop]
      by_cases finished : carry = 0
      · rw [if_pos finished, finished, Nat.digits_zero, List.append_nil, List.length_nil,
          Nat.sub_zero, Nat.add_zero]
      · have split : Nat.digits base carry = carry % base :: Nat.digits base (carry / base) :=
          Nat.digits_def' wide (Nat.pos_of_ne_zero finished)
        have count : (Nat.digits base carry).length =
            (Nat.digits base (carry / base)).length + 1 := by rw [split, List.length_cons]
        obtain ⟨room, rfl⟩ : ∃ fewer, room = fewer + 1 := ⟨room - 1, by omega⟩
        have smaller : carry / base < 2 ^ 31 := lt_of_le_of_lt (Nat.div_le_self _ _) fits
        have length : (digits ++ [carry % base]).length = digits.length + 1 := by
          rw [List.length_append, List.length_singleton]
        have checkedLater : ∀ cbDst, (digits ++ [carry % base]).length ≤ cbDst →
            cbDst < (digits ++ [carry % base]).length +
              (Nat.digits base (carry / base)).length → check cbDst = .ok () := by
          intro cbDst above below
          exact checked cbDst (by omega) (by omega)
        have rest := carryLoop_eq factor wide fuel room (digits ++ [carry % base]) (carry / base)
          smaller (by omega) (by omega) checkedLater
        rw [length, List.append_assoc, List.singleton_append] at rest
        rw [if_neg finished, checked digits.length (le_refl _) (by omega), Exec.ok_bind,
          List.replicate_succ, digitRound_at _ _ (by omega), Exec.ok_bind, Nat.zero_mul,
          Nat.add_zero]
        apply rest.trans
        rw [split, List.length_cons, List.append_assoc digits, List.singleton_append,
          Nat.add_sub_add_right, Nat.add_right_comm, Nat.add_assoc]

/-- One byte or character leads from the array of a number to that of the next one. -/
theorem addDigit_eq {factor base size value carry : Nat} {check : Nat → Exec Unit}
    (wide : 1 < base) (small : carry < factor) (narrow : base * factor ≤ 2 ^ 31)
    (inRange : (numeral base value).length < 2 ^ 31)
    (room : (numeral base (factor * value + carry)).length ≤ size)
    (checked : ∀ cbDst, (numeral base value).length ≤ cbDst →
      cbDst < (numeral base (factor * value + carry)).length → check cbDst = .ok ()) :
    addDigit factor base check (digitArray size base value) (numeral base value).length carry =
      .ok (digitArray size base (factor * value + carry),
        (numeral base (factor * value + carry)).length) := by
  have bounded := numeral_lt wide value
  have nonempty := List.length_pos_iff.1 (numeral_length_pos base value)
  have pass := digitsLoop_eq narrow inRange (numeral base value) []
    (List.replicate (size - (numeral base value).length) 0) carry
    ((numeral base value).length + 1) nonempty (Nat.zero_add _) (Nat.le_succ _) bounded small
  have next := numeral_mulAdd wide (Nat.lt_of_le_of_lt (Nat.zero_le _) small) value carry
  have carrySmall := mulAdd_carry_lt factor base (numeral base value) carry bounded small
  have length := mulAdd_length factor base (numeral base value) carry
  rw [List.nil_append, List.nil_append, List.length_nil] at pass
  rw [addDigit, digitArray, pass]
  simp only [Exec.ok_bind]
  generalize (mulAdd factor base (numeral base value) carry).1 = low at *
  generalize (mulAdd factor base (numeral base value) carry).2 = high at *
  have total : (numeral base (factor * value + carry)).length =
      low.length + (Nat.digits base high).length := by rw [← next, List.length_append]
  have scaled : factor ≤ base * factor := Nat.le_mul_of_pos_left factor (by omega)
  rw [← length] at inRange checked ⊢
  have enough : (Nat.digits base high).length <
      (low ++ List.replicate (size - low.length) 0).length + 1 := by
    rw [List.length_append, List.length_replicate]
    omega
  have checkedHere : ∀ cbDst, low.length ≤ cbDst →
      cbDst < low.length + (Nat.digits base high).length → check cbDst = .ok () := by
    rw [← total]
    exact checked
  have appended := carryLoop_eq factor wide _ (size - low.length) low high (by omega) (by omega)
    enough checkedHere
  apply appended.trans
  rw [digitArray, ← next, List.length_append, Nat.sub_sub]

/-! ## The encoder -/

/-- The big-endian number of a byte string. -/
def beValue (bytes : Bytes) : Nat := readDigits 256 0 (bytes.map UInt8.toNat)

/-- The character of a digit. -/
def b58Char (digit : Nat) : UInt8 := sB58Digits.getD digit 0

/-- The codes of the alphabet. -/
def sB58Codes : List Nat := [
  49, 50, 51, 52, 53, 54, 55, 56, 57, 65, 66, 67, 68, 69, 70, 71, 72, 74, 75, 76,
  77, 78, 80, 81, 82, 83, 84, 85, 86, 87, 88, 89, 90, 97, 98, 99, 100, 101, 102, 103,
  104, 105, 106, 107, 109, 110, 111, 112, 113, 114, 115, 116, 117, 118, 119, 120, 121, 122]

theorem sB58Digits_codes : sB58Digits.map UInt8.toNat = sB58Codes := by decide +kernel

theorem sB58Digits_length : sB58Digits.length = 58 := by
  rw [← List.length_map UInt8.toNat, sB58Digits_codes]
  rfl

theorem readAt_sB58Digits {digit : Nat} (below : digit < 58) :
    Exec.readAt sB58Digits digit = .ok (b58Char digit) := by
  have inside : digit < sB58Digits.length := by
    rw [sB58Digits_length]
    exact below
  rw [Exec.readAt_of_lt inside, b58Char, List.getD_eq_getElem?_getD,
    List.getElem?_eq_getElem inside, Option.getD_some]

/-- The loop over the bytes; the last number is the largest. -/
theorem encodeLoop_eq (size : Nat) :
    ∀ (src : Bytes) (value : Nat),
      (numeral 58 (readDigits 256 value (src.map UInt8.toNat))).length < 2 ^ 31 →
      (numeral 58 (readDigits 256 value (src.map UInt8.toNat))).length ≤ size →
      encodeLoop src (digitArray size 58 value) (numeral 58 value).length =
        .ok (digitArray size 58 (readDigits 256 value (src.map UInt8.toNat)),
          (numeral 58 (readDigits 256 value (src.map UInt8.toNat))).length)
  | [], _, _, _ => rfl
  | byte :: src, value, inRange, room => by
      rw [List.map_cons, readDigits_cons] at inRange room ⊢
      have grown : 256 * value + byte.toNat ≤
          readDigits 256 (256 * value + byte.toNat) (src.map UInt8.toNat) :=
        le_readDigits (by decide) _ _
      have longer := numeral_length_mono 58 grown
      have shorter : (numeral 58 value).length ≤
          (numeral 58 (256 * value + byte.toNat)).length := numeral_length_mono 58 (by omega)
      have step : addDigit 256 58 (fun _ => .ok ()) (digitArray size 58 value)
          (numeral 58 value).length byte.toNat = _ :=
        addDigit_eq (by decide) byte.toNat_lt (by decide) (by omega) (by omega)
          (fun _ _ _ => rfl)
      rw [encodeLoop, step, Exec.ok_bind]
      exact encodeLoop_eq size src (256 * value + byte.toNat) inRange room

/-- The characters of the digits, the most significant one first. -/
theorem emitDigits_eq {digits : List Nat} (tail : List Nat) (bounded : ∀ digit ∈ digits, digit < 58) :
    ∀ (remaining i : Nat), i + remaining = digits.length →
      emitDigits (digits ++ tail) digits.length remaining i =
        .ok ((digits.take remaining).reverse.map b58Char)
  | 0, _, _ => rfl
  | remaining + 1, i, length => by
      have inside : remaining < digits.length := by omega
      have index : digits.length - i - 1 = remaining := by omega
      have stored : (digits ++ tail)[remaining]? = some digits[remaining] := by
        rw [List.getElem?_append_left inside, List.getElem?_eq_getElem inside]
      have below : digits[remaining] < 58 := bounded _ (List.getElem_mem inside)
      rw [emitDigits, index, Exec.readAt_eq_ok.2 stored, Exec.ok_bind, readAt_sB58Digits below,
        Exec.ok_bind, emitDigits_eq tail bounded remaining (i + 1) (by omega), Exec.ok_bind,
        List.take_succ_eq_append_getElem inside, List.reverse_append, List.reverse_singleton,
        List.singleton_append, List.map_cons]

end BitcoinClib.Encoding
