import BitcoinClib.Encoding.Base58Digits
import Mathlib.Data.List.TakeWhile

/-!
Contract: what the two encoders of `base58.c` compute.

Owns:
- `numeralString`, the digits `1` for leading zero bytes and the numeral of the value;
- the size of the work array (`numeral_length_le_size`);
- that `base58_encode` returns this string, whatever array it is written to;
- the fixed-width encoder, and for which lengths both agree (`base58Encode_numeral_iff`).

Does not own: the decoder.
-/

namespace BitcoinClib.Encoding

open BitcoinClib.Lib
open BitcoinClib.Types

/-! ## Leading zeros -/

/-- A list is a run of its first element's kind and what follows. -/
theorem replicate_append_dropWhile {α : Type} [DecidableEq α] (item : α) (items : List α) :
    items = List.replicate (items.takeWhile (· = item)).length item ++
      items.dropWhile (· = item) := by
  have run : items.takeWhile (· = item) =
      List.replicate (items.takeWhile (· = item)).length item := by
    apply List.eq_replicate_of_mem
    intro other member
    have same := List.mem_takeWhile_imp member
    rwa [decide_eq_true_eq] at same
  rw [← run]
  exact List.takeWhile_append_dropWhile.symm

theorem dropWhile_eq_drop {α : Type} [DecidableEq α] (item : α) (items : List α) :
    items.drop (items.takeWhile (· = item)).length = items.dropWhile (· = item) := by
  exact (congrArg (List.drop (items.takeWhile (· = item)).length)
    (replicate_append_dropWhile item items)).trans (List.drop_left' List.length_replicate)

/-- What follows the run starts with another element. -/
theorem dropWhile_cons_of_exists {α : Type} [DecidableEq α] {item : α} {items : List α}
    (other : ∃ found ∈ items, found ≠ item) :
    ∃ first rest, items.dropWhile (· = item) = first :: rest ∧ first ≠ item := by
  cases split : items.dropWhile (· = item) with
  | nil =>
      obtain ⟨found, member, different⟩ := other
      have all := List.dropWhile_eq_nil_iff.1 split found member
      rw [decide_eq_true_eq] at all
      exact absurd all different
  | cons first rest =>
      refine ⟨first, rest, rfl, ?_⟩
      have nonempty : items.dropWhile (· = item) ≠ [] := by
        rw [split]
        exact List.cons_ne_nil _ _
      have different := List.head_dropWhile_not _ nonempty
      simp only [split, List.head_cons, decide_eq_false_iff_not] at different
      exact different

/-- A run in front of another element is dropped as a whole. -/
theorem dropWhile_replicate_append {α : Type} [DecidableEq α] {item : α} {items : List α}
    (first : ∀ other, items.head? = some other → other ≠ item) (count : Nat) :
    (List.replicate count item ++ items).dropWhile (· = item) = items := by
  rw [List.dropWhile_append_of_pos fun other member => by
    rw [List.eq_of_mem_replicate member, decide_eq_true_eq]]
  cases items with
  | nil => rfl
  | cons other items =>
      apply List.dropWhile_cons_of_neg
      rw [decide_eq_true_eq]
      exact first other rfl

theorem takeWhile_replicate_append {α : Type} [DecidableEq α] {item : α} {items : List α}
    (first : ∀ other, items.head? = some other → other ≠ item) (count : Nat) :
    ((List.replicate count item ++ items).takeWhile (· = item)).length = count := by
  have length := congrArg List.length
    (replicate_append_dropWhile item (List.replicate count item ++ items))
  rw [dropWhile_replicate_append first, List.length_append, List.length_append,
    List.length_replicate, List.length_replicate] at length
  omega

/-- Leading zeros do not change the value. -/
theorem beValue_replicate_append (count : Nat) (rest : Bytes) :
    beValue (List.replicate count 0 ++ rest) = beValue rest := by
  induction count with
  | zero => rw [List.replicate_zero, List.nil_append]
  | succ count ih =>
      rw [← ih, List.replicate_succ, List.cons_append]
      rfl

theorem beValue_drop_leadingZeros (data : Bytes) :
    beValue (data.drop (leadingZeros data)) = beValue data := by
  rw [leadingZeros, dropWhile_eq_drop]
  conv_rhs => rw [replicate_append_dropWhile 0 data, beValue_replicate_append]

theorem beValue_ne_zero {data : Bytes} (nonzero : ∃ byte ∈ data, byte ≠ 0) :
    beValue data ≠ 0 := by
  obtain ⟨first, rest, split, different⟩ := dropWhile_cons_of_exists nonzero
  rw [replicate_append_dropWhile 0 data, beValue_replicate_append, split, beValue, List.map_cons]
  refine readDigits_pos ?_ (by decide)
  intro zero
  exact different (UInt8.toNat_inj.1 zero)

/-! ## The size of the work array -/

theorem beValue_lt (data : Bytes) : beValue data < 256 ^ data.length := by
  rw [beValue, readDigits_eq, Nat.mul_zero, Nat.zero_add]
  have bounded : ∀ digit ∈ (data.map UInt8.toNat).reverse, digit < 256 := by
    intro digit member
    obtain ⟨byte, -, rfl⟩ := List.mem_map.1 (List.mem_reverse.1 member)
    exact byte.toNat_lt
  have small := Nat.ofDigits_lt_base_pow_length (by decide) bounded
  rwa [List.length_reverse, List.length_map] at small

/-- 137 digits to the base 58 hold 100 bytes. -/
theorem numeral_length_le_size (data : Bytes) :
    (numeral 58 (beValue data)).length ≤ data.length * 137 / 100 + 1 := by
  apply numeral_length_le (by decide) (Nat.succ_pos _)
  calc beValue data < 256 ^ data.length := beValue_lt data
    _ < 58 ^ (data.length * 137 / 100 + 1) :=
        pow_lt_pow_of_scaled (by decide) (by decide) (by norm_num) data.length

/-! ## `base58_encode` -/

/-- The string of a byte string whose value has the given digits. -/
def digitString (data : Bytes) (digits : List Nat) : Bytes :=
  List.replicate (leadingZeros data) charOne ++ digits.reverse.map b58Char

/-- What an encoder leaves behind the pointer it was given. -/
def stored (cells : Option Bytes) (text : Bytes) : Bytes :=
  text ++ 0 :: (cells.getD []).drop (text.length + 1)

theorem storeString_eq {cells : Option Bytes} {text : Bytes}
    (room : ∀ array, cells = some array → text.length < array.length) :
    storeString cells text = .ok (stored cells text) := by
  cases cells with
  | none => rfl
  | some array => exact if_pos (room array rfl)

/-- The encoder on any byte string whose numeral is indexed by an `int`. -/
theorem base58Encode_eq {data : Bytes} (nonempty : data ≠ []) (fits : data.length * 138 < 2 ^ 63)
    (inRange : (numeral 58 (beValue data)).length < 2 ^ 31) {pB58 : Option Bytes}
    (room : ∀ cells, pB58 = some cells →
      (digitString data (numeral 58 (beValue data))).length < cells.length) :
    base58Encode data pB58 =
      .ok ((digitString data (numeral 58 (beValue data))).length,
        some (stored pB58 (digitString data (numeral 58 (beValue data))))) := by
  have size := numeral_length_le_size data
  have start : List.replicate (data.length * 138 / 100 + 1) 0 =
      digitArray (data.length * 138 / 100 + 1) 58 0 := (digitArray_zero (Nat.succ_pos _)).symm
  have one : (numeral 58 0).length = 1 := by rw [numeral_zero, List.length_singleton]
  have value := beValue_drop_leadingZeros data
  have bytes := encodeLoop_eq (data.length * 138 / 100 + 1)
    (data.drop (leadingZeros data)) 0
  rw [← beValue, value, ← start, one] at bytes
  have bounded : ∀ digit ∈ numeral 58 (beValue data), digit < 58 := numeral_lt (by decide) _
  have digits := emitDigits_eq (List.replicate
    (data.length * 138 / 100 + 1 - (numeral 58 (beValue data)).length) 0) bounded (numeral 58 (beValue data)).length 0
    (Nat.zero_add _)
  rw [← digitArray, List.take_length] at digits
  have length : (digitString data (numeral 58 (beValue data))).length =
      (numeral 58 (beValue data)).length + leadingZeros data := by
    rw [digitString, List.length_append, List.length_replicate, List.length_map,
      List.length_reverse, Nat.add_comm]
  rw [base58Encode, if_neg nonempty, if_neg (by omega)]
  simp only [bytes inRange (by omega), Exec.ok_bind, digits]
  rw [← digitString, storeString_eq room, Exec.ok_bind, length]

/-! ## `base58_encode_legacy` -/

/-- The loop over the digits is one pass of `mulAdd`, with the digits in the other order. -/
theorem legacyLoop_eq :
    ∀ (digits tail : List Nat) (carry : Nat), (∀ digit ∈ digits, digit < 58) → carry < 256 →
      legacyLoop digits.length (digits.reverse ++ tail) carry =
        .ok ((mulAdd 256 58 digits carry).1.reverse ++ tail, (mulAdd 256 58 digits carry).2)
  | [], _, _, _, _ => rfl
  | digit :: digits, tail, carry, bounded, small => by
      have below : digit < 58 := bounded digit List.mem_cons_self
      have rest := legacyLoop_eq digits ((carry + digit * 256) % 58 :: tail)
        ((carry + digit * 256) / 58) (fun other member =>
          bounded other (List.mem_cons_of_mem _ member)) (by omega)
      have round : digitRound 256 58 digits.reverse.length (digits.reverse ++ digit :: tail)
          carry = _ := digitRound_at digits.reverse tail (by omega)
      rw [List.length_reverse] at round
      rw [List.length_cons, legacyLoop, List.reverse_cons, List.append_assoc,
        List.singleton_append, round, Exec.ok_bind]
      apply rest.trans
      simp only [mulAdd, List.reverse_cons, List.append_assoc, List.singleton_append]

/-- Digits of a fixed width, the least significant one first. -/
structure FixedWidth (width value : Nat) (digits : List Nat) : Prop where
  length : digits.length = width
  bounded : ∀ digit ∈ digits, digit < 58
  value : Nat.ofDigits 58 digits = value

/-- A loop over the bytes that returns has not lost a carry. -/
theorem legacyBytes_returned {width : Nat} {tail dst : List Nat} :
    ∀ (src : Bytes) (digits : List Nat) (value : Nat), FixedWidth width value digits →
      legacyBytes width src (digits.reverse ++ tail) = .ok dst →
      ∃ after, FixedWidth width (readDigits 256 value (src.map UInt8.toNat)) after ∧
        dst = after.reverse ++ tail
  | [], digits, value, fixed, returned => by
      injection returned with same
      exact ⟨digits, fixed, same.symm⟩
  | byte :: src, digits, value, fixed, returned => by
      have pass := legacyLoop_eq digits tail byte.toNat fixed.bounded byte.toNat_lt
      have computed := mulAdd_value 256 58 digits byte.toNat
      have length := mulAdd_length 256 58 digits byte.toNat
      have bounded := mulAdd_lt 256 58 (by decide) digits byte.toNat
      rw [fixed.length] at pass
      rw [legacyBytes, pass, Exec.ok_bind] at returned
      obtain ⟨done, noCarry, returned⟩ := Exec.bind_eq_ok.1 returned
      rw [Exec.assert_eq_ok] at noCarry
      rw [noCarry, Nat.mul_zero, Nat.add_zero, fixed.value] at computed
      exact legacyBytes_returned src _ _ ⟨length.trans fixed.length, bounded, computed⟩ returned

/-- A width that holds the last number is enough. -/
theorem legacyBytes_returns {width : Nat} (tail : List Nat) :
    ∀ (src : Bytes) (digits : List Nat) (value : Nat), FixedWidth width value digits →
      readDigits 256 value (src.map UInt8.toNat) < 58 ^ width →
      (legacyBytes width src (digits.reverse ++ tail)).Returns
  | [], digits, value, fixed, room => Exec.returns_ok _
  | byte :: src, digits, value, fixed, room => by
      have pass := legacyLoop_eq digits tail byte.toNat fixed.bounded byte.toNat_lt
      have computed := mulAdd_value 256 58 digits byte.toNat
      have length := mulAdd_length 256 58 digits byte.toNat
      have bounded := mulAdd_lt 256 58 (by decide) digits byte.toNat
      have grown : 256 * value + byte.toNat ≤
          readDigits 256 (256 * value + byte.toNat) (src.map UInt8.toNat) :=
        le_readDigits (by decide) _ _
      rw [List.map_cons, readDigits_cons] at room
      rw [fixed.length] at pass computed
      rw [fixed.value] at computed
      have noCarry : (mulAdd 256 58 digits byte.toNat).2 = 0 := by
        by_contra carry
        have large : 58 ^ width ≤ 58 ^ width * (mulAdd 256 58 digits byte.toNat).2 :=
          Nat.le_mul_of_pos_right _ (Nat.pos_of_ne_zero carry)
        omega
      rw [noCarry, Nat.mul_zero, Nat.add_zero] at computed
      rw [legacyBytes, pass, Exec.ok_bind]
      dsimp only
      rw [Exec.assert_of noCarry, Exec.ok_bind]
      exact legacyBytes_returns tail src _ _ ⟨length.trans fixed.length, bounded, computed⟩ room

/-- Behind the leading zeros of a fixed width lies the numeral. -/
theorem FixedWidth.dropWhile {width value : Nat} {digits : List Nat}
    (fixed : FixedWidth width value digits) (nonzero : value ≠ 0) (tail : List Nat) :
    (digits.reverse ++ tail).dropWhile (· = 0) = (Nat.digits 58 value).reverse ++ tail := by
  have small : value < 58 ^ width := by
    rw [← fixed.value, ← fixed.length]
    exact Nat.ofDigits_lt_base_pow_length (by decide) fixed.bounded
  have short : (Nat.digits 58 value).length ≤ width :=
    (Nat.digits_length_le_iff (by decide) value).2 small
  have padded : digits = Nat.digits 58 value ++
      List.replicate (width - (Nat.digits 58 value).length) 0 := by
    refine Nat.ofDigits_inj_of_len_eq (by decide) ?_ fixed.bounded ?_ ?_
    · rw [List.length_append, List.length_replicate, fixed.length]
      omega
    · intro digit member
      rcases List.mem_append.1 member with inDigits | inZeros
      · exact Nat.digits_lt_base (by decide) inDigits
      · rw [List.eq_of_mem_replicate inZeros]
        decide
    · rw [fixed.value, Nat.ofDigits_append_replicate_zero, Nat.ofDigits_digits]
  have nonempty : Nat.digits 58 value ≠ [] := Nat.digits_ne_nil_iff_ne_zero.2 nonzero
  have leading : (Nat.digits 58 value).getLast nonempty ≠ 0 :=
    Nat.getLast_digit_ne_zero 58 nonzero
  conv_lhs => rw [padded]
  rw [List.reverse_append, List.reverse_replicate, List.append_assoc,
    List.dropWhile_append_of_pos (by
      intro digit member
      rw [List.eq_of_mem_replicate member]
      rfl)]
  obtain ⟨front, last, split⟩ : ∃ front last, Nat.digits 58 value = front ++ [last] :=
    ⟨_, _, (List.dropLast_append_getLast nonempty).symm⟩
  simp only [split, List.getLast_append_singleton] at leading
  rw [split, List.reverse_append, List.reverse_singleton, List.singleton_append,
    List.cons_append, List.dropWhile_cons_of_neg (by simpa using leading)]

theorem legacyDigits_eq :
    ∀ digits : List Nat, (∀ digit ∈ digits, digit < 58) →
      legacyDigits digits = .ok (digits.map b58Char)
  | [], _ => rfl
  | digit :: digits, bounded => by
      rw [legacyDigits, readAt_sB58Digits (bounded digit List.mem_cons_self), Exec.ok_bind,
        legacyDigits_eq digits fun other member => bounded other (List.mem_cons_of_mem _ member),
        Exec.ok_bind, List.map_cons]

/-- The index of the first loop stays below the size of the array where the size does not fit
an `int`. -/
theorem intOfSize_le {size : Nat} (large : 2 ^ 31 ≤ size) :
    (intOfSize size + 1).toNat + 2 ^ 31 ≤ size + 1 := by
  unfold intOfSize
  dsimp only
  split
  · omega
  · omega

theorem intOfSize_of_lt {size : Nat} (small : size < 2 ^ 31) :
    (intOfSize size + 1).toNat = size + 1 := by
  rw [intOfSize_of_small small]
  omega

theorem fixedWidth_replicate (width : Nat) : FixedWidth width 0 (List.replicate width 0) := by
  refine ⟨List.length_replicate, ?_, Nat.ofDigits_replicate_zero⟩
  intro digit member
  rw [List.eq_of_mem_replicate member]
  decide

/-- Where every size fits an `int` the fixed-width encoder returns the same string. -/
theorem base58EncodeLegacy_eq {data : Bytes} (nonzero : ∃ byte ∈ data, byte ≠ 0)
    (inRange : data.length * 138 / 100 < 2 ^ 31) {cells : Bytes} {bufferSize : Nat}
    (offered : data.length * 138 / 100 + 1 ≤ bufferSize)
    (room : (digitString data (Nat.digits 58 (beValue data))).length < cells.length) :
    base58EncodeLegacy data (some cells) bufferSize =
      .ok ((digitString data (Nat.digits 58 (beValue data))).length,
        some (stored (some cells) (digitString data (Nat.digits 58 (beValue data))))) := by
  have notZero := beValue_ne_zero nonzero
  have size := numeral_length_le_size data
  rw [numeral_of_ne_zero notZero] at size
  have zeros : leadingZeros data ≤ data.length := (List.takeWhile_sublist _).length_le
  have wraps : data.length * 138 % 2 ^ 64 = data.length * 138 := Nat.mod_eq_of_lt (by omega)
  have value := beValue_drop_leadingZeros data
  have fixed := fixedWidth_replicate (data.length * 138 / 100 + 1)
  have wide : beValue data < 58 ^ (data.length * 138 / 100 + 1) :=
    calc beValue data < 256 ^ data.length := beValue_lt data
      _ < 58 ^ (data.length * 138 / 100 + 1) :=
          pow_lt_pow_of_scaled (by decide) (by decide) (by norm_num) data.length
  rw [← value, beValue] at wide
  obtain ⟨dst, returned⟩ := legacyBytes_returns [] (data.drop (leadingZeros data)) _ 0
    fixed wide
  obtain ⟨after, fixedAfter, rfl⟩ := legacyBytes_returned _ _ 0 fixed returned
  rw [← beValue, value] at fixedAfter
  have behind := fixedAfter.dropWhile notZero []
  rw [List.reverse_replicate, List.append_nil] at returned
  have bounded : ∀ digit ∈ (Nat.digits 58 (beValue data)).reverse, digit < 58 := by
    intro digit member
    exact Nat.digits_lt_base (by decide) (List.mem_reverse.1 member)
  have roomHere : ∀ array, some cells = some array →
      (digitString data (Nat.digits 58 (beValue data))).length < array.length := by
    intro array same
    cases same
    exact room
  have length : (digitString data (Nat.digits 58 (beValue data))).length =
      (Nat.digits 58 (beValue data)).length + leadingZeros data := by
    rw [digitString, List.length_append, List.length_replicate, List.length_map,
      List.length_reverse, Nat.add_comm]
  simp only [base58EncodeLegacy, wraps, Nat.add_sub_cancel, intOfSize_of_lt inRange]
  rw [if_neg (by omega), Exec.checkedInt_of_lt (by omega), Exec.ok_bind, returned, Exec.ok_bind,
    behind, List.append_nil, List.length_reverse, Exec.checkedInt_of_lt (by omega), Exec.ok_bind,
    legacyDigits_eq _ bounded, Exec.ok_bind, ← digitString, storeString_eq roomHere, Exec.ok_bind,
    length]

/-- Where the size of its array does not fit an `int` the fixed-width encoder does not
return. -/
theorem base58EncodeLegacy_not_returns {data : Bytes} (nonzero : ∃ byte ∈ data, byte ≠ 0)
    (large : 2 ^ 31 ≤ data.length * 138 / 100) (fits : data.length * 138 < 2 ^ 63)
    {cells : Bytes} {bufferSize : Nat} (offered : data.length * 138 / 100 + 1 ≤ bufferSize) :
    ¬ (base58EncodeLegacy data (some cells) bufferSize).Returns := by
  have wraps : data.length * 138 % 2 ^ 64 = data.length * 138 := Nat.mod_eq_of_lt (by omega)
  have value := beValue_drop_leadingZeros data
  have count := intOfSize_le large
  intro returns
  simp only [base58EncodeLegacy, wraps, Nat.add_sub_cancel] at returns
  generalize (intOfSize (data.length * 138 / 100) + 1).toNat = width at *
  have start : List.replicate (data.length * 138 / 100 + 1) 0 =
      (List.replicate width 0).reverse ++
        List.replicate (data.length * 138 / 100 + 1 - width) 0 := by
    rw [List.reverse_replicate, List.replicate_append_replicate]
    congr 1
    omega
  rw [if_neg (by omega)] at returns
  obtain ⟨zeros, counted, returns⟩ := Exec.returns_bind.1 returns
  obtain ⟨-, rfl⟩ := Exec.checkedInt_eq_ok.1 counted
  obtain ⟨dst, returned, returns⟩ := Exec.returns_bind.1 returns
  rw [start] at returned
  obtain ⟨after, fixed, rfl⟩ :=
    legacyBytes_returned _ _ 0 (fixedWidth_replicate width) returned
  rw [← beValue, value] at fixed
  rw [fixed.dropWhile (beValue_ne_zero nonzero)] at returns
  obtain ⟨cbDst, inRange, -⟩ := Exec.returns_bind.1 returns
  have small := (Exec.checkedInt_eq_ok.1 inRange).1
  rw [List.length_append, List.length_replicate] at small
  omega

/-! ## The encoder is the numeral -/

/-- The digits `1` for the leading zero bytes, and the numeral of the big-endian value to the
base 58. -/
def numeralString (data : Bytes) : Bytes := digitString data (Nat.digits 58 (beValue data))

/-- Both encoders return the string of the numeral, whatever array it is written to. The work
array of `base58_encode` has `length * 138 / 100 + 1` cells. -/
structure EncodesNumeral (data : Bytes) : Prop where
  encode : ∀ pB58, (∀ cells, pB58 = some cells → (numeralString data).length < cells.length) →
    base58Encode data pB58 =
      .ok ((numeralString data).length, some (stored pB58 (numeralString data)))
  legacy : ∀ cells bufferSize, data.length * 138 / 100 + 1 ≤ bufferSize →
    (numeralString data).length < cells.length →
    base58EncodeLegacy data (some cells) bufferSize =
      .ok ((numeralString data).length, some (stored (some cells) (numeralString data)))

/-- Both encoders compute the numeral exactly where the size of the work array fits an
`int`. -/
theorem base58Encode_numeral_iff (data : Bytes) (nonzero : ∃ byte ∈ data, byte ≠ 0) :
    EncodesNumeral data ↔ data.length * 138 / 100 < 2 ^ 31 := by
  have notZero := beValue_ne_zero nonzero
  have numeral_eq : numeral 58 (beValue data) = Nat.digits 58 (beValue data) :=
    numeral_of_ne_zero notZero
  have nonempty : data ≠ [] := by
    obtain ⟨byte, member, -⟩ := nonzero
    exact List.ne_nil_of_mem member
  constructor
  · intro encodes
    by_contra large
    have returned := encodes.encode none (fun _ same => nomatch same)
    have fits : data.length * 138 < 2 ^ 63 := by
      by_contra overflow
      rw [base58Encode, if_neg nonempty, if_pos (by omega)] at returned
      cases returned
    have legacy := encodes.legacy (List.replicate ((numeralString data).length + 1) 0)
      (data.length * 138 / 100 + 1) (le_refl _) (by rw [List.length_replicate]; omega)
    exact base58EncodeLegacy_not_returns nonzero (by omega) fits (le_refl _) ⟨_, legacy⟩
  · intro inRange
    have size := numeral_length_le_size data
    refine ⟨fun pB58 room => ?_, fun cells bufferSize offered room => ?_⟩
    · rw [numeralString, ← numeral_eq] at room ⊢
      exact base58Encode_eq nonempty (by omega) (by omega) room
    · exact base58EncodeLegacy_eq nonzero inRange offered room

/-- Two leading zero bytes and the value 1. -/
theorem base58Encode_numeral_three : EncodesNumeral [0, 0, 1] :=
  (base58Encode_numeral_iff [0, 0, 1] ⟨1, by decide, by decide⟩).2 (by decide)

/-- A byte string that is too long for an `int`. -/
theorem base58Encode_numeral_long : ¬ EncodesNumeral (List.replicate 1556200000 1) := by
  intro encodes
  have nonzero : ∃ byte ∈ List.replicate 1556200000 (1 : UInt8), byte ≠ 0 :=
    ⟨1, List.mem_replicate.2 ⟨by decide, rfl⟩, by decide⟩
  have length : (List.replicate 1556200000 (1 : UInt8)).length = 1556200000 :=
    List.length_replicate
  have legacy := encodes.legacy
    (List.replicate ((numeralString (List.replicate 1556200000 1)).length + 1) 0)
    ((List.replicate 1556200000 (1 : UInt8)).length * 138 / 100 + 1) (le_refl _)
    (by rw [List.length_replicate]; omega)
  exact base58EncodeLegacy_not_returns nonzero (by rw [length]; decide) (by rw [length]; decide)
    (le_refl _) ⟨_, legacy⟩

end BitcoinClib.Encoding
