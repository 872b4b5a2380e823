import Mathlib.Data.Nat.Digits.Lemmas

/-!
Contract: positional numerals as lists of digits, least significant digit first.

Owns:
- `numeral`, the digits of a number without a leading zero; zero has one digit;
- `mulAdd`, one pass over the digits that multiplies by a factor and adds a carry;
- that the pass, with the digits of its last carry behind it, computes the numeral of the
  new value (`numeral_mulAdd`);
- the number of digits in another base (`numeral_length_le`).

Does not own: any array, width of an integer, or alphabet.
-/

namespace BitcoinClib.Lib

/-- The digits of `value`, at least one. -/
def numeral (base value : Nat) : List Nat :=
  if value = 0 then [0] else Nat.digits base value

/-- Multiply the digits by `factor` and add `carry`, from the least significant one on. -/
def mulAdd (factor base : Nat) : List Nat → Nat → List Nat × Nat
  | [], carry => ([], carry)
  | digit :: digits, carry =>
      let sum := carry + digit * factor
      let (digits, carry) := mulAdd factor base digits (sum / base)
      (sum % base :: digits, carry)

section MulAdd

variable (factor base : Nat)

@[simp] theorem mulAdd_length :
    ∀ (digits : List Nat) (carry : Nat),
      (mulAdd factor base digits carry).1.length = digits.length
  | [], _ => rfl
  | digit :: digits, carry => by
      simp only [mulAdd, List.length_cons, mulAdd_length digits]

/-- The pass computes with the value of the digits. -/
theorem mulAdd_value :
    ∀ (digits : List Nat) (carry : Nat),
      Nat.ofDigits base (mulAdd factor base digits carry).1 +
          base ^ digits.length * (mulAdd factor base digits carry).2 =
        factor * Nat.ofDigits base digits + carry
  | [], carry => by
      simp only [mulAdd, Nat.ofDigits_nil, List.length_nil, pow_zero, one_mul, mul_zero]
  | digit :: digits, carry => by
      have rest := mulAdd_value digits ((carry + digit * factor) / base)
      have split := Nat.mod_add_div (carry + digit * factor) base
      simp only [mulAdd, Nat.ofDigits_cons, List.length_cons, pow_succ]
      generalize Nat.ofDigits base (mulAdd factor base digits _).1 = low at *
      generalize (mulAdd factor base digits _).2 = high at *
      calc (carry + digit * factor) % base + base * low + base ^ digits.length * base * high
          = (carry + digit * factor) % base + base * (low + base ^ digits.length * high) := by
            ring
        _ = (carry + digit * factor) % base +
              base * ((carry + digit * factor) / base) +
              base * (factor * Nat.ofDigits base digits) := by
            rw [rest]
            ring
        _ = factor * (digit + base * Nat.ofDigits base digits) + carry := by
            rw [split]
            ring

theorem mulAdd_lt (positive : 0 < base) :
    ∀ (digits : List Nat) (carry : Nat),
      ∀ digit ∈ (mulAdd factor base digits carry).1, digit < base
  | [], _, _, member => absurd member List.not_mem_nil
  | first :: digits, carry, digit, member => by
      rw [mulAdd] at member
      rcases List.mem_cons.1 member with rfl | later
      · exact Nat.mod_lt _ positive
      · exact mulAdd_lt positive digits _ digit later

/-- A carry below the factor stays below it. -/
theorem mulAdd_carry_lt :
    ∀ (digits : List Nat) (carry : Nat), (∀ digit ∈ digits, digit < base) → carry < factor →
      (mulAdd factor base digits carry).2 < factor
  | [], _, _, small => small
  | digit :: digits, carry, bounded, small => by
      refine mulAdd_carry_lt digits _ (fun other member =>
        bounded other (List.mem_cons_of_mem _ member)) ?_
      have below : digit < base := bounded digit List.mem_cons_self
      apply Nat.div_lt_of_lt_mul
      calc carry + digit * factor < factor + digit * factor := by omega
        _ = (digit + 1) * factor := by ring
        _ ≤ base * factor := Nat.mul_le_mul_right _ below

end MulAdd

/-! ## Numerals -/

section Numeral

variable {base : Nat}

theorem numeral_zero : numeral base 0 = [0] := if_pos rfl

theorem numeral_of_ne_zero {value : Nat} (nonzero : value ≠ 0) :
    numeral base value = Nat.digits base value := if_neg nonzero

theorem numeral_value (base value : Nat) : Nat.ofDigits base (numeral base value) = value := by
  by_cases zero : value = 0
  · rw [zero, numeral_zero, Nat.ofDigits_singleton]
  · rw [numeral_of_ne_zero zero, Nat.ofDigits_digits]

theorem numeral_lt (wide : 1 < base) (value : Nat) :
    ∀ digit ∈ numeral base value, digit < base := by
  intro digit member
  by_cases zero : value = 0
  · rw [zero, numeral_zero, List.mem_singleton] at member
    omega
  · rw [numeral_of_ne_zero zero] at member
    exact Nat.digits_lt_base wide member

theorem numeral_length_pos (base value : Nat) : 0 < (numeral base value).length := by
  by_cases zero : value = 0
  · rw [zero, numeral_zero]
    exact Nat.one_pos
  · rw [numeral_of_ne_zero zero]
    exact List.length_pos_iff.2 (Nat.digits_ne_nil_iff_ne_zero.2 zero)

/-- A numeral is no longer than any other string of digits with its value. -/
theorem numeral_length_le (wide : 1 < base) {value count : Nat} (positive : 0 < count)
    (small : value < base ^ count) : (numeral base value).length ≤ count := by
  by_cases zero : value = 0
  · rw [zero, numeral_zero]
    exact positive
  · rw [numeral_of_ne_zero zero]
    exact (Nat.digits_length_le_iff wide value).2 small

theorem numeral_length_mono (base : Nat) {value larger : Nat} (below : value ≤ larger) :
    (numeral base value).length ≤ (numeral base larger).length := by
  by_cases zero : value = 0
  · rw [zero, numeral_zero]
    exact numeral_length_pos base larger
  · rw [numeral_of_ne_zero zero, numeral_of_ne_zero (by omega)]
    exact Nat.le_length_digits_le base value larger below

/-- The numeral is the only string of digits with its value and without a leading zero. -/
theorem eq_numeral (wide : 1 < base) {digits : List Nat} {value : Nat}
    (bounded : ∀ digit ∈ digits, digit < base) (sameValue : Nat.ofDigits base digits = value)
    (tight : digits.length = 1 ∨ 0 < digits.length ∧ base ^ (digits.length - 1) ≤ value) :
    digits = numeral base value := by
  have below : value < base ^ digits.length := by
    rw [← sameValue]
    exact Nat.ofDigits_lt_base_pow_length wide bounded
  have positive : 0 < digits.length := by
    rcases tight with single | several
    · omega
    · exact several.1
  have short := numeral_length_le wide positive below
  have sameLength : digits.length = (numeral base value).length := by
    rcases tight with single | ⟨-, large⟩
    · have one := numeral_length_pos base value
      omega
    · have nonzero : value ≠ 0 := by
        have power : 0 < base ^ (digits.length - 1) := Nat.pow_pos (by omega)
        omega
      rw [numeral_of_ne_zero nonzero] at short ⊢
      have long := (Nat.lt_digits_length_iff wide value).2 large
      omega
  apply Nat.ofDigits_inj_of_len_eq wide sameLength bounded (numeral_lt wide value)
  rw [sameValue, numeral_value]

/-- The leading digit of a numeral with more than one digit is not zero. -/
theorem pow_le_of_numeral (wide : 1 < base) (value : Nat) :
    (numeral base value).length = 1 ∨ base ^ ((numeral base value).length - 1) ≤ value := by
  by_cases zero : value = 0
  · rw [zero, numeral_zero]
    exact Or.inl rfl
  · have positive := numeral_length_pos base value
    rw [numeral_of_ne_zero zero] at positive ⊢
    exact Or.inr ((Nat.lt_digits_length_iff wide value).1 (by omega))

/-- A pass over a numeral computes the numeral of the new value. -/
theorem numeral_mulAdd {factor : Nat} (wide : 1 < base) (positive : 0 < factor)
    (value carry : Nat) :
    (mulAdd factor base (numeral base value) carry).1 ++
        Nat.digits base (mulAdd factor base (numeral base value) carry).2 =
      numeral base (factor * value + carry) := by
  have computed := mulAdd_value factor base (numeral base value) carry
  have length := mulAdd_length factor base (numeral base value) carry
  have bounded := mulAdd_lt factor base (by omega) (numeral base value) carry
  have tight := pow_le_of_numeral wide value
  have nonempty := numeral_length_pos base value
  rw [numeral_value] at computed
  generalize (mulAdd factor base (numeral base value) carry).1 = low at *
  generalize (mulAdd factor base (numeral base value) carry).2 = high at *
  have grown : value ≤ factor * value + carry := by
    have scaled := Nat.le_mul_of_pos_left value positive
    omega
  apply eq_numeral wide
  · intro digit member
    rcases List.mem_append.1 member with inLow | inHigh
    · exact bounded digit inLow
    · exact Nat.digits_lt_base wide inHigh
  · rw [Nat.ofDigits_append, Nat.ofDigits_digits, length]
    exact computed
  · by_cases zero : high = 0
    · rw [zero, Nat.digits_zero, List.append_nil, length]
      rcases tight with single | large
      · exact Or.inl single
      · exact Or.inr ⟨nonempty, le_trans large grown⟩
    · have more : 0 < (Nat.digits base high).length :=
        List.length_pos_iff.2 (Nat.digits_ne_nil_iff_ne_zero.2 zero)
      have large := (Nat.lt_digits_length_iff wide high).1 (Nat.sub_lt more Nat.one_pos)
      rw [List.length_append, length]
      refine Or.inr ⟨by omega, ?_⟩
      calc base ^ ((numeral base value).length + (Nat.digits base high).length - 1)
          = base ^ (numeral base value).length * base ^ ((Nat.digits base high).length - 1) := by
            rw [← pow_add]
            congr 1
            omega
        _ ≤ base ^ (numeral base value).length * high := Nat.mul_le_mul_left _ large
        _ ≤ factor * value + carry := by omega

/-- Digits without a leading zero are the numeral of their value. -/
theorem numeral_ofDigits (wide : 1 < base) {digits : List Nat}
    (bounded : ∀ digit ∈ digits, digit < base) (nonempty : digits ≠ [])
    (leading : digits.getLast nonempty ≠ 0) : numeral base (Nat.ofDigits base digits) = digits := by
  have same : Nat.digits base (Nat.ofDigits base digits) = digits :=
    Nat.digits_ofDigits base wide digits bounded fun _ => leading
  have nonzero : Nat.ofDigits base digits ≠ 0 := by
    intro zero
    rw [zero, Nat.digits_zero] at same
    exact nonempty same.symm
  rw [numeral_of_ne_zero nonzero, same]

/-- Digits that are read behind `value`, the most significant one first. -/
def readDigits (base value : Nat) (digits : List Nat) : Nat :=
  digits.foldl (fun value digit => base * value + digit) value

theorem readDigits_nil (value : Nat) : readDigits base value [] = value := rfl

theorem readDigits_cons (value digit : Nat) (digits : List Nat) :
    readDigits base value (digit :: digits) = readDigits base (base * value + digit) digits := rfl

theorem readDigits_eq :
    ∀ (digits : List Nat) (value : Nat),
      readDigits base value digits =
        base ^ digits.length * value + Nat.ofDigits base digits.reverse
  | [], value => by simp [readDigits]
  | digit :: digits, value => by
      rw [readDigits_cons, readDigits_eq digits, List.length_cons, List.reverse_cons,
        Nat.ofDigits_append, Nat.ofDigits_singleton, List.length_reverse]
      ring

/-- Further digits do not make a number smaller. -/
theorem le_readDigits (positive : 0 < base) (digits : List Nat) (value : Nat) :
    value ≤ readDigits base value digits := by
  rw [readDigits_eq]
  have scaled := Nat.le_mul_of_pos_left value (Nat.pow_pos (n := digits.length) positive)
  omega

/-- Digits of which one is not zero have a value that is not zero. -/
theorem readDigits_pos {digit : Nat} {digits : List Nat} (nonzero : digit ≠ 0)
    (positive : 0 < base) : readDigits base 0 (digit :: digits) ≠ 0 := by
  have grown := le_readDigits positive digits (base * 0 + digit)
  rw [readDigits_cons]
  omega

/-- Digits that do not start with a zero are the numeral of the number they are read as. -/
theorem numeral_readDigits (wide : 1 < base) {digit : Nat} {digits : List Nat}
    (bounded : ∀ other ∈ digit :: digits, other < base) (nonzero : digit ≠ 0) :
    numeral base (readDigits base 0 (digit :: digits)) = (digit :: digits).reverse := by
  have nonempty : (digit :: digits).reverse ≠ [] := by simp
  rw [readDigits_eq, Nat.mul_zero, Nat.zero_add]
  refine numeral_ofDigits wide (fun other member => bounded other (List.mem_reverse.1 member))
    nonempty ?_
  rw [List.getLast_reverse]
  exact nonzero

end Numeral

/-- Powers in two bases, from one power of each. -/
theorem pow_lt_pow_of_scaled {left right scale unit : Nat} (wide : 1 < right) (positive : 0 < unit)
    (scaled : left ^ unit < right ^ scale) (count : Nat) :
    left ^ count < right ^ (count * scale / unit + 1) := by
  have ceiling : count * scale < unit * (count * scale / unit + 1) :=
    Nat.lt_mul_div_succ _ positive
  apply lt_of_pow_lt_pow_left₀ unit (Nat.zero_le _)
  calc (left ^ count) ^ unit = (left ^ unit) ^ count := by rw [← pow_mul, ← pow_mul, mul_comm]
    _ ≤ (right ^ scale) ^ count := Nat.pow_le_pow_left (le_of_lt scaled) _
    _ = right ^ (count * scale) := by rw [← pow_mul, mul_comm]
    _ < right ^ (unit * (count * scale / unit + 1)) := Nat.pow_lt_pow_right wide ceiling
    _ = (right ^ (count * scale / unit + 1)) ^ unit := by rw [← pow_mul, mul_comm]

end BitcoinClib.Lib
