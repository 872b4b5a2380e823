import BitcoinClib.Block.RoundTrip
import Mathlib.Data.Nat.Log

/-!
Contract: 256-bit integers and their compact form, as `compact_int.c` converts and compares
them.

Owns:
- the integer a `uint256_t` stands for, and `uint256_compare` as its order;
- `compact_to_uint256` on integers (`compactToUint256_value`);
- `uint256_to_compact`, the range in which decoding undoes it up to the low bytes
  (`roundTrip_iff`);
- `compact_uint256_compare`, which agrees with the order of the targets
  (`compactUint256Compare_sign`).

Does not own: difficulties, or the check of a header.
-/

namespace BitcoinClib.Block

open BitcoinClib.Types
open BitcoinClib.Tx

/-! ## Values -/

/-- The little-endian integer in the array. -/
def uint256Value (hash : Uint256) : Nat := leValue hash.val

theorem uint256Value_lt (hash : Uint256) : uint256Value hash < 256 ^ 32 := by
  have bound := leValue_lt hash.val
  rwa [hash.property] at bound

theorem uint256_ext {left right : Uint256} (same : uint256Value left = uint256Value right) :
    left = right :=
  Subtype.ext (eq_of_leValue_eq (left.property.trans right.property.symm) same)

@[simp] theorem uint256Value_zero : uint256Value uint256Zero = 0 := leValue_replicate_zero 32

theorem uint256Value_NaN : uint256Value uint256NaN = 256 ^ 32 - 1 := by decide +kernel

/-- One of the four words. -/
def uint256Word (hash : Uint256) (index : Nat) : Nat :=
  leValue ((hash.val.drop (8 * index)).take 8)

theorem uint256Word_lt (hash : Uint256) (index : Nat) : uint256Word hash index < 2 ^ 64 := by
  have bound := leValue_lt ((hash.val.drop (8 * index)).take 8)
  have width : ((hash.val.drop (8 * index)).take 8).length ≤ 8 := List.length_take_le _ _
  calc
    _ < 256 ^ ((hash.val.drop (8 * index)).take 8).length := bound
    _ ≤ 256 ^ 8 := Nat.pow_le_pow_right (by decide) width
    _ = 2 ^ 64 := by decide

theorem uint256Value_words (hash : Uint256) :
    uint256Value hash = uint256Word hash 0 + 2 ^ 64 * (uint256Word hash 1 +
      2 ^ 64 * (uint256Word hash 2 + 2 ^ 64 * uint256Word hash 3)) := by
  have split (bytes : Bytes) (long : 8 ≤ bytes.length) :
      leValue bytes = leValue (bytes.take 8) + 2 ^ 64 * leValue (bytes.drop 8) := by
    have parts := leValue_append (bytes.take 8) (bytes.drop 8)
    rw [List.take_append_drop, List.length_take_of_le long] at parts
    exact parts
  have width := hash.property
  have last : (hash.val.drop 24).take 8 = hash.val.drop 24 :=
    List.take_of_length_le (by rw [List.length_drop]; omega)
  unfold uint256Value uint256Word
  rw [split hash.val (by omega), split (hash.val.drop 8) (by rw [List.length_drop]; omega),
    List.drop_drop, split (hash.val.drop 16) (by rw [List.length_drop]; omega), List.drop_drop]
  norm_num [last]

/-- `uint256_compare` is the order of the integers. -/
theorem uint256Compare_eq (a b : Uint256) :
    uint256Compare a b = if uint256Value a = uint256Value b then 0
      else if uint256Value b < uint256Value a then 1 else -1 := by
  have aWord := uint256Word_lt a
  have bWord := uint256Word_lt b
  rw [uint256Value_words a, uint256Value_words b]
  have aLow := aWord 0
  have aSecond := aWord 1
  have aThird := aWord 2
  have bLow := bWord 0
  have bSecond := bWord 1
  have bThird := bWord 2
  unfold uint256Compare
  simp only [List.foldr_cons, List.foldr_nil]
  unfold uint256Word at *
  split_ifs <;> omega

/-! ## Decoding -/

/-- `cint->exp` -/
def compactExp (bits : UInt32) : Nat := bits.toNat / 2 ^ 24

/-- `cint->bits & 0x0ffffff` -/
def compactMantissa (bits : UInt32) : Nat := bits.toNat % 2 ^ 24

theorem compactMantissa_lt (bits : UInt32) : compactMantissa bits < 256 ^ 3 :=
  Nat.mod_lt _ (by decide)

theorem leBytes_take_value {width count value : Nat} (small : value < 256 ^ width)
    (inside : count ≤ width) : leValue ((leBytes width value).take count) = value % 256 ^ count := by
  rw [leValue_take, List.length_take_of_le (by rwa [leBytes_length]),
    leValue_leBytes width value small]

/-- The mantissa, or as much of it as the exponent leaves room for, between zero bytes. -/
theorem compactToUint256_eq {bits : UInt32} (inside : compactExp bits ≤ 32) :
    compactToUint256 bits = uint256OfBytes
      (List.replicate (compactExp bits - min (compactExp bits) 3) 0 ++
        (leBytes 3 (compactMantissa bits)).take (min (compactExp bits) 3) ++
        List.replicate (32 - compactExp bits) 0) := by
  unfold compactToUint256
  show (if 32 < compactExp bits then _ else _) = _
  rw [if_neg (by omega)]
  show (fun numBytes => uint256OfBytes (List.replicate (compactExp bits - numBytes) 0 ++
    (leBytes 3 (compactMantissa bits)).take numBytes ++ List.replicate (32 - compactExp bits) 0))
    _ = _
  congr 1
  show (if 32 ≤ (32 - compactExp bits) + (if compactExp bits < 3 then compactExp bits else 3)
    then 32 - (32 - compactExp bits) else if compactExp bits < 3 then compactExp bits else 3) = _
  split_ifs <;> omega

/-- The integer a compact target decodes to. -/
def compactValue (bits : UInt32) : Nat :=
  if 32 < compactExp bits then 256 ^ 32 - 1
  else if compactExp bits < 3 then compactMantissa bits % 256 ^ compactExp bits
  else compactMantissa bits * 256 ^ (compactExp bits - 3)

theorem compactToUint256_value (bits : UInt32) :
    uint256Value (compactToUint256 bits) = compactValue bits := by
  unfold compactValue
  split
  next large =>
    have decoded : compactToUint256 bits = uint256NaN := if_pos large
    rw [decoded, uint256Value_NaN]
  next inside =>
    have small := compactMantissa_lt bits
    have few : min (compactExp bits) 3 ≤ 3 := Nat.min_le_right _ _
    have length : (List.replicate (compactExp bits - min (compactExp bits) 3) 0 ++
        (leBytes 3 (compactMantissa bits)).take (min (compactExp bits) 3) ++
        List.replicate (32 - compactExp bits) 0).length = 32 := by
      simp only [List.length_append, List.length_replicate, List.length_take, leBytes_length]
      omega
    rw [compactToUint256_eq (by omega), uint256Value, uint256OfBytes_val length, leValue_append,
      leValue_append, leValue_replicate_zero, leValue_replicate_zero,
      leBytes_take_value small few, List.length_replicate]
    split
    next below =>
      have count : min (compactExp bits) 3 = compactExp bits := by omega
      rw [count, Nat.sub_self, pow_zero]
      ring
    next above =>
      have count : min (compactExp bits) 3 = 3 := by omega
      rw [count, Nat.mod_eq_of_lt small]
      ring

/-! ## Encoding -/

/-- `compact_uint256_NaN` -/
def compactUint256NaN : UInt32 := 0xffffffff

/-- The zero bytes in front of the position `pEnd`, counted backwards. -/
def trailingZeros (bytes : Bytes) : Nat → Nat
  | 0 => 0
  | pEnd + 1 => if bytes.getD pEnd 0 = 0 then trailingZeros bytes pEnd + 1 else 0

/-- `uint256_to_compact` -/
def uint256ToCompact (target : Uint256) : UInt32 :=
  let numZeros := trailingZeros target.val 32
  if numZeros = 32 then 0
  else
    let negative := target.val.getD (31 - numZeros) 0 &&& 0x80 ≠ 0
    if negative ∧ numZeros = 0 then compactUint256NaN
    else
      let numZeros := if negative then numZeros - 1 else numZeros
      let exp := 32 - numZeros
      let numBytes := if 32 ≤ exp + 3 then 32 - exp else 3
      let numBytes := if 32 ≤ numZeros + numBytes then 32 - numZeros else numBytes
      let mantissa := (target.val.drop (exp - numBytes)).take numBytes
      uint32OfBytes (mantissa ++ List.replicate (3 - numBytes) 0 ++ [UInt8.ofNat exp])

/-- The zero bytes that were counted add nothing; the byte in front of them does. -/
theorem trailingZeros_spec {bytes : Bytes} {pEnd : Nat} (inside : pEnd ≤ bytes.length) :
    trailingZeros bytes pEnd ≤ pEnd ∧
      leValue (bytes.take pEnd) = leValue (bytes.take (pEnd - trailingZeros bytes pEnd)) ∧
      (trailingZeros bytes pEnd < pEnd → bytes.getD (pEnd - trailingZeros bytes pEnd - 1) 0 ≠ 0) := by
  induction pEnd with
  | zero => exact ⟨le_rfl, rfl, fun short => absurd short (lt_irrefl 0)⟩
  | succ pEnd inductionHypothesis =>
      obtain ⟨few, value, top⟩ := inductionHypothesis (by omega)
      unfold trailingZeros
      split
      next zero =>
        refine ⟨by omega, ?_, fun short => ?_⟩
        · have last : bytes[pEnd]? = some 0 := by
            rw [List.getD_eq_getElem?_getD, List.getElem?_eq_getElem (by omega)] at zero
            rw [List.getElem?_eq_getElem (by omega)]
            exact congrArg some zero
          rw [Nat.add_sub_add_right, ← value, List.take_add_one, last, leValue_append]
          simp [leValue]
        · rw [Nat.add_sub_add_right]
          exact top (by omega)
      next nonzero => exact ⟨by omega, by rw [Nat.sub_zero], fun _ => by simpa using nonzero⟩

/-- The byte in front of a position, as a digit of the integer. -/
theorem leValue_take_succ {bytes : Bytes} {count : Nat} (inside : count < bytes.length) :
    leValue (bytes.take (count + 1)) =
      leValue (bytes.take count) + 256 ^ count * (bytes.getD count 0).toNat := by
  rw [List.take_add_one, List.getD_eq_getElem?_getD, List.getElem?_eq_getElem inside, leValue_append,
    List.length_take_of_le (by omega)]
  simp [leValue]

/-- The bytes of an integer without the zero bytes above it. -/
def significantBytes (value : Nat) : Nat := Nat.log 256 value + 1

/-- The most significant byte has its high bit set, which would be the sign of the mantissa. -/
def BorrowsZero (value : Nat) : Prop := 128 * 256 ^ (significantBytes value - 1) ≤ value

instance (value : Nat) : Decidable (BorrowsZero value) :=
  inferInstanceAs (Decidable (_ ≤ _))

/-- The exponent of the compact form. -/
def encodedExp (value : Nat) : Nat :=
  if BorrowsZero value then significantBytes value + 1 else significantBytes value

/-- The bytes of the mantissa that are copied for an exponent. -/
def copiedBytes (exp : Nat) : Nat := min exp (min 3 (32 - exp))

/-- A digit below a bound, with what stands under it. -/
theorem digits_lt {unit low digit bound : Nat} (under : low < unit) (below : digit < bound) :
    low + unit * digit < unit * bound :=
  calc
    low + unit * digit < unit + unit * digit := Nat.add_lt_add_right under _
    _ = unit * (digit + 1) := by ring
    _ ≤ unit * bound := Nat.mul_le_mul_left _ below

/-- The count of zero bytes leaves the significant ones, the first of them in front. -/
theorem trailingZeros_significant {target : Uint256} (nonzero : uint256Value target ≠ 0) :
    32 - trailingZeros target.val 32 = significantBytes (uint256Value target) ∧
      trailingZeros target.val 32 < 32 ∧
      (target.val.getD (31 - trailingZeros target.val 32) 0 &&& 0x80 ≠ 0 ↔
        BorrowsZero (uint256Value target)) := by
  have width := target.property
  have inside : 32 ≤ target.val.length := by omega
  obtain ⟨few, value, top⟩ := trailingZeros_spec inside
  have whole : target.val.take 32 = target.val := List.take_of_length_le (by omega)
  rw [whole] at value
  have short : trailingZeros target.val 32 < 32 := by
    by_contra full
    have all : trailingZeros target.val 32 = 32 := by omega
    rw [all, Nat.sub_self, List.take_zero] at value
    exact nonzero value
  obtain ⟨below, split⟩ : ∃ below, 32 - trailingZeros target.val 32 = below + 1 := ⟨_, (Nat.succ_pred
    (by omega)).symm⟩
  have position : 31 - trailingZeros target.val 32 = below := by omega
  have nonzeroTop := top short
  rw [split, Nat.add_sub_cancel] at nonzeroTop
  rw [split, leValue_take_succ (by omega)] at value
  have low := leValue_lt (target.val.take below)
  rw [List.length_take_of_le (by omega)] at low
  have digit := (target.val.getD below 0).toNat_lt
  have positive : 0 < (target.val.getD below 0).toNat := by
    apply Nat.pos_of_ne_zero
    intro zero
    exact nonzeroTop (UInt8.toNat_inj.1 zero)
  change uint256Value target = _ at value
  have size : significantBytes (uint256Value target) = below + 1 := by
    unfold significantBytes
    congr 1
    apply Nat.log_eq_of_pow_le_of_lt_pow
    · rw [value]
      exact Nat.le_trans (Nat.le_mul_of_pos_right _ positive) (Nat.le_add_left _ _)
    · rw [value, pow_succ]
      exact digits_lt low digit
  refine ⟨by rw [split, size], short, ?_⟩
  have sign (byte : UInt8) : byte &&& 0x80 ≠ 0 ↔ 128 ≤ byte.toNat := by
    revert byte
    exact forall_byte (by decide +kernel)
  rw [position, sign, BorrowsZero, size, Nat.add_sub_cancel, value]
  constructor
  · intro negative
    rw [Nat.mul_comm]
    exact Nat.le_trans (Nat.mul_le_mul_left _ negative) (Nat.le_add_left _ _)
  · intro borrows
    by_contra small
    have bound := digits_lt low (Nat.lt_of_not_le small)
    rw [Nat.mul_comm _ 128] at bound
    exact absurd borrows (Nat.not_le.2 bound)

theorem pow_significantBytes_le {value : Nat} (nonzero : value ≠ 0) :
    256 ^ (significantBytes value - 1) ≤ value :=
  Nat.pow_log_le_self 256 nonzero

theorem lt_pow_significantBytes (value : Nat) : value < 256 ^ significantBytes value :=
  Nat.lt_pow_succ_log_self (by decide) value

/-- The exponent counts the bytes whose highest bit is clear. -/
theorem encodedExp_bounds {value : Nat} (nonzero : value ≠ 0) :
    1 ≤ encodedExp value ∧ 128 * 256 ^ (encodedExp value - 1) ≤ 256 * value ∧
      value < 128 * 256 ^ (encodedExp value - 1) := by
  have low := pow_significantBytes_le nonzero
  have high := lt_pow_significantBytes value
  have size : significantBytes value - 1 + 1 = significantBytes value := rfl
  unfold encodedExp
  split
  next borrows =>
    refine ⟨by omega, ?_, ?_⟩
    · rw [Nat.add_sub_cancel, ← size, pow_succ]
      unfold BorrowsZero at borrows
      linarith
    · rw [Nat.add_sub_cancel]
      linarith
  next fits =>
    unfold BorrowsZero at fits
    exact ⟨by omega, by omega, by omega⟩

theorem encodedExp_le {value : Nat} (small : value < 2 ^ 255) : encodedExp value ≤ 32 := by
  by_cases nonzero : value = 0
  · subst nonzero
    decide
  obtain ⟨positive, low, -⟩ := encodedExp_bounds nonzero
  by_contra large
  have power : 256 ^ 32 ≤ 256 ^ (encodedExp value - 1) :=
    Nat.pow_le_pow_right (by decide) (by omega)
  norm_num at power small
  omega

theorem compactExp_uint32OfBytes {mantissa : Bytes} {exp : UInt8} (length : mantissa.length = 3) :
    compactExp (uint32OfBytes (mantissa ++ [exp])) = exp.toNat ∧
      compactMantissa (uint32OfBytes (mantissa ++ [exp])) = leValue mantissa := by
  have low := leValue_lt mantissa
  have high := exp.toNat_lt
  have value : (uint32OfBytes (mantissa ++ [exp])).toNat = leValue mantissa + 2 ^ 24 * exp.toNat := by
    rw [uint32OfBytes, UInt32.toNat_ofNat', leValue_append, length]
    rw [length] at low
    simp only [leValue]
    omega
  rw [length] at low
  unfold compactExp compactMantissa
  rw [value]
  omega

/-- The encoder rejects nothing below `2 ^ 255`; the zeros it counts are those above the
exponent. -/
theorem trailingZeros_encodedExp {target : Uint256} (nonzero : uint256Value target ≠ 0)
    (small : uint256Value target < 2 ^ 255) :
    ¬ (target.val.getD (31 - trailingZeros target.val 32) 0 &&& 0x80 ≠ 0 ∧
        trailingZeros target.val 32 = 0) ∧
      (if target.val.getD (31 - trailingZeros target.val 32) 0 &&& 0x80 ≠ 0
        then trailingZeros target.val 32 - 1 else trailingZeros target.val 32) =
        32 - encodedExp (uint256Value target) := by
  obtain ⟨size, short, negative⟩ := trailingZeros_significant nonzero
  have representable : ¬ (target.val.getD (31 - trailingZeros target.val 32) 0 &&& 0x80 ≠ 0 ∧
      trailingZeros target.val 32 = 0) := by
    intro both
    have borrows := negative.1 both.1
    rw [both.2] at size
    rw [BorrowsZero, ← size] at borrows
    norm_num at borrows small
    omega
  refine ⟨representable, ?_⟩
  unfold encodedExp
  by_cases borrows : BorrowsZero (uint256Value target)
  · rw [if_pos (negative.2 borrows), if_pos borrows]
    have some : trailingZeros target.val 32 ≠ 0 := fun none =>
      representable ⟨negative.2 borrows, none⟩
    omega
  · rw [if_neg (fun set => borrows (negative.1 set)), if_neg borrows]
    omega

/-- What the encoder stores for an integer it can represent. -/
theorem uint256ToCompact_spec {target : Uint256} (nonzero : uint256Value target ≠ 0)
    (small : uint256Value target < 2 ^ 255) :
    compactExp (uint256ToCompact target) = encodedExp (uint256Value target) ∧
      compactMantissa (uint256ToCompact target) = uint256Value target /
        256 ^ (encodedExp (uint256Value target) - copiedBytes (encodedExp (uint256Value target))) := by
  have short := (trailingZeros_significant nonzero).2.1
  obtain ⟨representable, zeros⟩ := trailingZeros_encodedExp nonzero small
  have inside := encodedExp_le small
  obtain ⟨positive, -, bound⟩ := encodedExp_bounds nonzero
  generalize encodedExp (uint256Value target) = exp at *
  have few : copiedBytes exp ≤ 3 ∧ copiedBytes exp ≤ exp := by
    unfold copiedBytes
    omega
  have encoded : uint256ToCompact target = uint32OfBytes
      ((target.val.drop (exp - copiedBytes exp)).take (copiedBytes exp) ++
        List.replicate (3 - copiedBytes exp) 0 ++ [UInt8.ofNat exp]) := by
    unfold uint256ToCompact
    dsimp only
    rw [if_neg short.ne, if_neg representable, zeros, Nat.sub_sub_self inside]
    have count : (if 32 ≤ 32 - exp + (if 32 ≤ exp + 3 then 32 - exp else 3) then exp
        else if 32 ≤ exp + 3 then 32 - exp else 3) = copiedBytes exp := by
      unfold copiedBytes
      split_ifs <;> omega
    rw [count]
  have available : ((target.val.drop (exp - copiedBytes exp)).take (copiedBytes exp)).length =
      copiedBytes exp := by
    rw [List.length_take, List.length_drop, target.property]
    omega
  have width : ((target.val.drop (exp - copiedBytes exp)).take (copiedBytes exp) ++
      List.replicate (3 - copiedBytes exp) 0).length = 3 := by
    rw [List.length_append, available, List.length_replicate]
    omega
  have digit : (UInt8.ofNat exp).toNat = exp := by
    simp
    omega
  -- the integer has no digits above the exponent
  have fits : uint256Value target / 256 ^ (exp - copiedBytes exp) < 256 ^ copiedBytes exp := by
    apply Nat.div_lt_of_lt_mul
    rw [← pow_add, Nat.sub_add_cancel few.2]
    have power : 256 ^ exp = 256 * 256 ^ (exp - 1) := by
      rw [← pow_succ']
      congr 1
      omega
    omega
  have value : leValue ((target.val.drop (exp - copiedBytes exp)).take (copiedBytes exp) ++
      List.replicate (3 - copiedBytes exp) 0) =
      uint256Value target / 256 ^ (exp - copiedBytes exp) := by
    have position : exp - copiedBytes exp ≤ target.val.length := by
      rw [target.property]
      omega
    rw [leValue_append, leValue_replicate_zero, Nat.mul_zero, Nat.add_zero, leValue_take, available,
      leValue_drop position]
    exact Nat.mod_eq_of_lt fits
  rw [encoded]
  obtain ⟨exponent, mantissa⟩ := @compactExp_uint32OfBytes _ (UInt8.ofNat exp) width
  exact ⟨exponent.trans digit, mantissa.trans value⟩

/-! ## Round trip -/

theorem uint256ToCompact_zero {target : Uint256} (zero : uint256Value target = 0) :
    uint256ToCompact target = 0 := by
  have same : target = uint256Zero := uint256_ext (zero.trans uint256Value_zero.symm)
  rw [same]
  decide +kernel

/-- The encoder reports what has its highest bit set. -/
theorem uint256ToCompact_eq_NaN {target : Uint256} :
    uint256ToCompact target = compactUint256NaN ↔ 2 ^ 255 ≤ uint256Value target := by
  have exponent : compactExp compactUint256NaN = 255 := by decide
  constructor
  · intro reported
    by_contra small
    by_cases zero : uint256Value target = 0
    · rw [uint256ToCompact_zero zero] at reported
      exact absurd reported (by decide)
    · have encoded := (uint256ToCompact_spec zero (by omega)).1
      have inside : encodedExp (uint256Value target) ≤ 32 := encodedExp_le (by omega)
      rw [reported, exponent] at encoded
      omega
  · intro large
    have nonzero : uint256Value target ≠ 0 := by omega
    obtain ⟨size, short, negative⟩ := trailingZeros_significant nonzero
    have full : significantBytes (uint256Value target) = 32 := by
      have bound := uint256Value_lt target
      unfold significantBytes
      rw [Nat.log_eq_of_pow_le_of_lt_pow (m := 31) (by norm_num at large ⊢; omega) bound]
    have borrows : BorrowsZero (uint256Value target) := by
      rw [BorrowsZero, full]
      norm_num at large ⊢
      omega
    have none : trailingZeros target.val 32 = 0 := by omega
    unfold uint256ToCompact
    dsimp only
    rw [if_neg short.ne, if_pos ⟨negative.2 borrows, none⟩]

/-- Encoded and decoded again. -/
def roundTrip (target : Uint256) : Uint256 := compactToUint256 (uint256ToCompact target)

/-- The bytes a mantissa of 24 bits has room for. -/
def keptBytes (value : Nat) : Nat := if BorrowsZero value then 2 else 3

/-- The bytes below the most significant ones that are kept are cleared. -/
def clearLowBytes (value : Nat) : Nat :=
  value / 256 ^ (significantBytes value - keptBytes value) *
    256 ^ (significantBytes value - keptBytes value)

theorem significantBytes_sub_keptBytes (value : Nat) :
    significantBytes value - keptBytes value = encodedExp value - 3 := by
  unfold keptBytes encodedExp
  split_ifs <;> omega

/-- The integer that is decoded again, for an exponent from 3 on. -/
theorem roundTrip_value {target : Uint256} (nonzero : uint256Value target ≠ 0)
    (small : uint256Value target < 2 ^ 255) (large : 3 ≤ encodedExp (uint256Value target)) :
    uint256Value (roundTrip target) = uint256Value target /
      256 ^ (encodedExp (uint256Value target) - copiedBytes (encodedExp (uint256Value target))) *
      256 ^ (encodedExp (uint256Value target) - 3) := by
  obtain ⟨exponent, mantissa⟩ := uint256ToCompact_spec nonzero small
  have inside := encodedExp_le small
  rw [roundTrip, compactToUint256_value, compactValue, exponent, mantissa, if_neg (by omega),
    if_neg (by omega)]

/-- Up to exponent 29 all three bytes of the mantissa are used. -/
theorem roundTrip_of_lt {target : Uint256} (small : uint256Value target < 2 ^ 231) :
    uint256Value (roundTrip target) = clearLowBytes (uint256Value target) := by
  by_cases nonzero : uint256Value target = 0
  · have same : target = uint256Zero := uint256_ext (nonzero.trans uint256Value_zero.symm)
    rw [same]
    decide +kernel
  obtain ⟨positive, low, high⟩ := encodedExp_bounds nonzero
  have fits : encodedExp (uint256Value target) ≤ 29 := by
    by_contra beyond
    have power : 256 ^ 29 ≤ 256 ^ (encodedExp (uint256Value target) - 1) :=
      Nat.pow_le_pow_right (by decide) (by omega)
    norm_num at power small
    omega
  have bounded : uint256Value target < 2 ^ 255 := by
    norm_num at small ⊢
    omega
  rw [clearLowBytes, significantBytes_sub_keptBytes]
  by_cases large : 3 ≤ encodedExp (uint256Value target)
  · rw [roundTrip_value nonzero bounded large]
    have copied : copiedBytes (encodedExp (uint256Value target)) = 3 := by
      unfold copiedBytes
      omega
    rw [copied]
  · obtain ⟨exponent, mantissa⟩ := uint256ToCompact_spec nonzero bounded
    have copied : copiedBytes (encodedExp (uint256Value target)) =
        encodedExp (uint256Value target) := by
      unfold copiedBytes
      omega
    have none : encodedExp (uint256Value target) - 3 = 0 := by omega
    have power : 256 ^ encodedExp (uint256Value target) =
        256 * 256 ^ (encodedExp (uint256Value target) - 1) := by
      rw [← pow_succ']
      congr 1
      omega
    rw [roundTrip, compactToUint256_value, compactValue, exponent, mantissa, copied,
      if_neg (by omega), if_pos (by omega), none, Nat.sub_self, pow_zero, Nat.div_one,
      Nat.mul_one]
    exact Nat.mod_eq_of_lt (by omega)

/-- From exponent 30 on at most two bytes are copied, to the low end of the mantissa. -/
theorem roundTrip_of_le {target : Uint256} (large : 2 ^ 231 ≤ uint256Value target)
    (small : uint256Value target < 2 ^ 255) :
    uint256Value (roundTrip target) ≠ clearLowBytes (uint256Value target) := by
  have nonzero : uint256Value target ≠ 0 := by omega
  obtain ⟨positive, low, high⟩ := encodedExp_bounds nonzero
  have beyond : 30 ≤ encodedExp (uint256Value target) := by
    by_contra fits
    have power : 256 ^ (encodedExp (uint256Value target) - 1) ≤ 256 ^ 28 :=
      Nat.pow_le_pow_right (by decide) (by omega)
    norm_num at power large
    omega
  have inside := encodedExp_le small
  rw [roundTrip_value nonzero small (by omega), clearLowBytes, significantBytes_sub_keptBytes]
  generalize uint256Value target = value at *
  generalize encodedExp value = exp at *
  have few : exp - 2 ≤ exp - copiedBytes exp := by
    unfold copiedBytes
    omega
  obtain ⟨unit, size⟩ : ∃ unit, 256 ^ (exp - 3) = unit := ⟨_, rfl⟩
  have next : 256 ^ (exp - 2) = 256 * unit := by
    rw [← size, ← pow_succ']
    congr 1
    omega
  have above : 256 ^ (exp - 1) = 256 * (256 * unit) := by
    rw [← next, ← pow_succ']
    congr 1
    omega
  have quotient : value / 256 ^ (exp - copiedBytes exp) ≤ value / (256 * unit) := by
    rw [← next]
    exact Nat.div_le_div_left (Nat.pow_le_pow_right (by decide) few) (by positivity)
  have least : value / (256 * unit) * (256 * unit) ≤ value := Nat.div_mul_le_self _ _
  have unitPositive : 0 < unit := by
    rw [← size]
    positivity
  have most : value < (value / unit + 1) * unit := by
    rw [Nat.mul_comm]
    exact Nat.lt_mul_div_succ value unitPositive
  rw [size]
  rw [above] at low
  intro same
  have decoded : value / 256 ^ (exp - copiedBytes exp) * unit * 256 ≤ value := by
    calc
      _ ≤ value / (256 * unit) * unit * 256 := by gcongr
      _ = value / (256 * unit) * (256 * unit) := by ring
      _ ≤ value := least
  rw [same] at decoded
  nlinarith

/-- A multiple of the unit is below an integer exactly when it is below what rounding leaves. -/
theorem mul_le_div_mul {unit count value : Nat} :
    count * unit ≤ value / unit * unit ↔ count * unit ≤ value := by
  constructor
  · intro below
    exact below.trans (Nat.div_mul_le_self value unit)
  · intro below
    rcases Nat.eq_zero_or_pos unit with rfl | positive
    · simp
    · exact Nat.mul_le_mul_right unit ((Nat.le_div_iff_mul_le positive).2 below)

theorem clearLowBytes_le (value : Nat) : clearLowBytes value ≤ value := Nat.div_mul_le_self _ _

/-- The leading bytes stay what they are. -/
theorem pow_mul_le_clearLowBytes {value : Nat} (count : Nat) :
    count * 256 ^ (significantBytes value - 1) ≤ clearLowBytes value ↔
      count * 256 ^ (significantBytes value - 1) ≤ value := by
  have kept : 1 ≤ keptBytes value := by
    unfold keptBytes
    split_ifs <;> decide
  have split : 256 ^ (significantBytes value - 1) =
      256 ^ (significantBytes value - 1 - (significantBytes value - keptBytes value)) *
        256 ^ (significantBytes value - keptBytes value) := by
    rw [← pow_add]
    congr 1
    omega
  rw [split, ← Nat.mul_assoc]
  exact mul_le_div_mul

theorem clearLowBytes_idem (value : Nat) :
    clearLowBytes (clearLowBytes value) = clearLowBytes value := by
  by_cases nonzero : value = 0
  · subst nonzero
    decide +kernel
  have size : significantBytes (clearLowBytes value) = significantBytes value := by
    have low := (pow_mul_le_clearLowBytes 1).2
      (by rw [Nat.one_mul]; exact pow_significantBytes_le nonzero)
    rw [Nat.one_mul] at low
    have high := (clearLowBytes_le value).trans_lt (lt_pow_significantBytes value)
    conv_lhs => unfold significantBytes
    rw [Nat.log_eq_of_pow_le_of_lt_pow low high]
    rfl
  have sign : BorrowsZero (clearLowBytes value) ↔ BorrowsZero value := by
    unfold BorrowsZero
    rw [size]
    exact pow_mul_le_clearLowBytes 128
  have kept : keptBytes (clearLowBytes value) = keptBytes value := by
    unfold keptBytes
    simp only [sign]
  have unit : 0 < 256 ^ (significantBytes value - keptBytes value) := by positivity
  calc
    clearLowBytes (clearLowBytes value) =
        clearLowBytes value / 256 ^ (significantBytes value - keptBytes value) *
          256 ^ (significantBytes value - keptBytes value) := by
      rw [← kept, ← size]
      rfl
    _ = clearLowBytes value := by rw [clearLowBytes, Nat.mul_div_cancel _ unit]

theorem clearLowBytes_of_le {value : Nat} (few : significantBytes value ≤ keptBytes value) :
    clearLowBytes value = value := by
  rw [clearLowBytes, Nat.sub_eq_zero_of_le few, pow_zero, Nat.div_one, Nat.mul_one]

/-- Decoding undoes encoding up to the low bytes for targets below `2 ^ 231`, and for no other
target that can be encoded. -/
theorem roundTrip_iff {target : Uint256} (encodes : uint256ToCompact target ≠ compactUint256NaN) :
    (uint256Value (roundTrip target) = clearLowBytes (uint256Value target) ∧
      uint256Compare (roundTrip target) target ≤ 0 ∧
      (significantBytes (uint256Value target) ≤ keptBytes (uint256Value target) →
        roundTrip target = target) ∧
      roundTrip (roundTrip target) = roundTrip target) ↔
    uint256Value target < 2 ^ 231 := by
  have small : uint256Value target < 2 ^ 255 := by
    by_contra large
    exact encodes (uint256ToCompact_eq_NaN.2 (by omega))
  constructor
  · intro holds
    by_contra large
    exact roundTrip_of_le (by omega) small holds.1
  · intro inside
    have value := roundTrip_of_lt inside
    have below := clearLowBytes_le (uint256Value target)
    refine ⟨value, ?_, ?_, ?_⟩
    · rw [uint256Compare_eq, value]
      split_ifs <;> omega
    · intro few
      exact uint256_ext (value.trans (clearLowBytes_of_le few))
    · apply uint256_ext
      rw [roundTrip_of_lt (by omega), value, clearLowBytes_idem]

/-- A target with its top byte at position `top`. -/
def sampleTarget (top : Nat) (byte : UInt8) : Uint256 :=
  uint256OfBytes (List.replicate top 0x11 ++ [byte] ++ List.replicate (31 - top) 0)

theorem roundTrip_iff_sampleTarget :
    (uint256Value (roundTrip (sampleTarget 25 0x7a)) =
        clearLowBytes (uint256Value (sampleTarget 25 0x7a)) ∧
      uint256Compare (roundTrip (sampleTarget 25 0x7a)) (sampleTarget 25 0x7a) ≤ 0 ∧
      (significantBytes (uint256Value (sampleTarget 25 0x7a)) ≤
          keptBytes (uint256Value (sampleTarget 25 0x7a)) →
        roundTrip (sampleTarget 25 0x7a) = sampleTarget 25 0x7a) ∧
      roundTrip (roundTrip (sampleTarget 25 0x7a)) = roundTrip (sampleTarget 25 0x7a)) ↔
    uint256Value (sampleTarget 25 0x7a) < 2 ^ 231 := by
  have encodes : uint256ToCompact (sampleTarget 25 0x7a) ≠ compactUint256NaN := by decide +kernel
  exact roundTrip_iff encodes

/-- The target `2 ^ 254` is encoded, and decoded as zero. -/
theorem roundTrip_loses_target :
    ∃ target, uint256ToCompact target ≠ compactUint256NaN ∧ uint256Value target = 2 ^ 254 ∧
      roundTrip target = uint256Zero ∧
      ¬ (uint256Value (roundTrip target) = clearLowBytes (uint256Value target) ∧
        uint256Compare (roundTrip target) target ≤ 0 ∧
        (significantBytes (uint256Value target) ≤ keptBytes (uint256Value target) →
          roundTrip target = target) ∧
        roundTrip (roundTrip target) = roundTrip target) := by
  have value : uint256Value (uint256OfBytes (List.replicate 31 0 ++ [0x40])) = 2 ^ 254 := by
    decide +kernel
  have decoded : roundTrip (uint256OfBytes (List.replicate 31 0 ++ [0x40])) = uint256Zero := by
    decide +kernel
  refine ⟨uint256OfBytes (List.replicate 31 0 ++ [0x40]), by decide +kernel, value, decoded, ?_⟩
  intro holds
  have kept := holds.1
  rw [decoded, value, uint256Value_zero] at kept
  revert kept
  decide +kernel

/-! ## Comparison -/

/-- `mantissa[index]` -/
def mantissaByte (bits : UInt32) (index : Nat) : Nat := bits.toNat / 256 ^ index % 256

/-- A zero byte was appended to keep the sign bit clear. -/
def Appended (bits : UInt32) : Prop :=
  mantissaByte bits 2 = 0 ∧ mantissaByte bits 1 &&& 0x80 ≠ 0

instance (bits : UInt32) : Decidable (Appended bits) := inferInstanceAs (Decidable (_ ∧ _))

/-- `compact_uint256_compare` -/
def compactUint256Compare (a b : UInt32) : Int :=
  let valueA : Int := compactMantissa a
  let valueB : Int := compactMantissa b
  let expA : Int := compactExp a
  let expB : Int := compactExp b
  let (valueA, expA) := if Appended a then (valueA * 2 ^ 8, expA - 1) else (valueA, expA)
  let (valueB, expB) := if Appended b then (valueB * 2 ^ 8, expB - 1) else (valueB, expB)
  if expA = expB then valueA - valueB else expA - expB

/-- An exponent of a target, and a mantissa that uses it. -/
structure Normalised (bits : UInt32) : Prop where
  exp_ge : 3 ≤ compactExp bits
  exp_le : compactExp bits ≤ 32
  mantissa : mantissaByte bits 2 ≠ 0 ∨ mantissaByte bits 2 = 0 ∧ 0x80 ≤ mantissaByte bits 1

/-- The exponent without an appended zero byte, less two. -/
def normalExp (bits : UInt32) : Nat :=
  if Appended bits then compactExp bits - 3 else compactExp bits - 2

/-- The mantissa without an appended zero byte. -/
def normalMantissa (bits : UInt32) : Nat :=
  if Appended bits then compactMantissa bits * 2 ^ 8 else compactMantissa bits

theorem appended_iff {bits : UInt32} :
    Appended bits ↔ mantissaByte bits 2 = 0 ∧ 0x80 ≤ mantissaByte bits 1 := by
  have sign : ∀ byte < 256, (byte &&& 0x80 ≠ 0 ↔ 0x80 ≤ byte) := by decide +kernel
  exact and_congr_right fun _ => sign _ (Nat.mod_lt _ (by decide))

theorem compactMantissa_bytes (bits : UInt32) : compactMantissa bits =
    mantissaByte bits 0 + 256 * (mantissaByte bits 1 + 256 * mantissaByte bits 2) := by
  unfold compactMantissa mantissaByte
  omega

/-- A normalised mantissa has three significant bytes. -/
theorem Normalised.mantissa_bounds {bits : UInt32} (normalised : Normalised bits) :
    2 ^ 16 ≤ normalMantissa bits ∧ normalMantissa bits < 2 ^ 24 := by
  have bytes := compactMantissa_bytes bits
  have first : mantissaByte bits 0 < 256 := Nat.mod_lt _ (by decide)
  have second : mantissaByte bits 1 < 256 := Nat.mod_lt _ (by decide)
  have third : mantissaByte bits 2 < 256 := Nat.mod_lt _ (by decide)
  have used := normalised.mantissa
  unfold normalMantissa
  split
  next appended =>
    rw [appended_iff] at appended
    omega
  next plain =>
    rw [appended_iff] at plain
    omega

/-- The target, in units of `2 ^ -8`. -/
theorem Normalised.value {bits : UInt32} (normalised : Normalised bits) :
    256 * compactValue bits = normalMantissa bits * 256 ^ normalExp bits := by
  have low := normalised.exp_ge
  have high := normalised.exp_le
  rw [compactValue, if_neg (by omega), if_neg (by omega)]
  unfold normalMantissa normalExp
  split
  · ring
  · have exponent : compactExp bits - 2 = compactExp bits - 3 + 1 := by omega
    rw [exponent]
    ring

/-- Of two integers with leading digits in place, the one with the larger exponent is larger. -/
theorem mul_pow_lt_of_exp_lt {first second m n : Nat} (small : first < 2 ^ 24)
    (large : 2 ^ 16 ≤ second) (less : m < n) : first * 256 ^ m < second * 256 ^ n := by
  obtain ⟨gap, rfl⟩ := Nat.exists_eq_add_of_lt less
  have unit : 0 < 256 ^ m := by positivity
  have more : 1 ≤ 256 ^ gap := Nat.one_le_pow _ _ (by decide)
  calc
    first * 256 ^ m < 2 ^ 24 * 256 ^ m := Nat.mul_lt_mul_of_pos_right small unit
    _ = 2 ^ 16 * 256 ^ m * 256 * 1 := by ring
    _ ≤ second * 256 ^ m * 256 * 256 ^ gap := by gcongr
    _ = second * 256 ^ (m + gap + 1) := by ring

theorem compactUint256Compare_normal {a b : UInt32} (aLow : 3 ≤ compactExp a)
    (bLow : 3 ≤ compactExp b) : compactUint256Compare a b =
      if normalExp a = normalExp b then (normalMantissa a : Int) - normalMantissa b
      else (normalExp a : Int) - normalExp b := by
  have parts (bits : UInt32) (low : 3 ≤ compactExp bits) :
      (if Appended bits then ((compactMantissa bits : Int) * 2 ^ 8, (compactExp bits : Int) - 1)
        else ((compactMantissa bits : Int), (compactExp bits : Int))) =
      ((normalMantissa bits : Int), (normalExp bits : Int) + 2) := by
    unfold normalMantissa normalExp
    split
    · rw [Prod.mk.injEq]
      exact ⟨by push_cast; rfl, by omega⟩
    · rw [Prod.mk.injEq]
      exact ⟨rfl, by omega⟩
  unfold compactUint256Compare
  dsimp only
  rw [parts a aLow, parts b bLow]
  dsimp only
  split_ifs <;> omega

/-- Comparing two compact targets compares what they decode to. -/
theorem compactUint256Compare_sign {a b : UInt32} (aNormalised : Normalised a)
    (bNormalised : Normalised b) :
    (compactUint256Compare a b).sign =
        (uint256Compare (compactToUint256 a) (compactToUint256 b)).sign ∧
      (compactToUint256 a = compactToUint256 b → compactUint256Compare a b = 0) := by
  have order : (compactUint256Compare a b).sign =
      (uint256Compare (compactToUint256 a) (compactToUint256 b)).sign := by
    obtain ⟨aLarge, aSmall⟩ := aNormalised.mantissa_bounds
    obtain ⟨bLarge, bSmall⟩ := bNormalised.mantissa_bounds
    have aValue := aNormalised.value
    have bValue := bNormalised.value
    rw [compactUint256Compare_normal aNormalised.exp_ge bNormalised.exp_ge, uint256Compare_eq,
      compactToUint256_value, compactToUint256_value]
    rcases lt_trichotomy (normalExp a) (normalExp b) with less | equal | greater
    · have below := mul_pow_lt_of_exp_lt aSmall bLarge less
      rw [if_neg less.ne, if_neg (by omega), if_neg (by omega), Int.sign_eq_neg_one_of_neg (by omega)]
      rfl
    · rw [if_pos equal]
      rw [equal] at aValue
      have unit : 0 < 256 ^ normalExp b := by positivity
      rcases lt_trichotomy (normalMantissa a) (normalMantissa b) with low | same | high
      · have below := Nat.mul_lt_mul_of_pos_right low unit
        rw [if_neg (by omega), if_neg (by omega), Int.sign_eq_neg_one_of_neg (by omega)]
        rfl
      · rw [same] at aValue
        rw [if_pos (by omega), same, sub_self]
      · have above := Nat.mul_lt_mul_of_pos_right high unit
        rw [if_neg (by omega), if_pos (by omega), Int.sign_eq_one_of_pos (by omega)]
        rfl
    · have above := mul_pow_lt_of_exp_lt bSmall aLarge greater
      rw [if_neg greater.ne', if_neg (by omega), if_pos (by omega), Int.sign_eq_one_of_pos (by omega)]
      rfl
  refine ⟨order, fun same => ?_⟩
  rw [same, uint256Compare_eq, if_pos rfl, Int.sign_zero] at order
  exact Int.sign_eq_zero_iff_zero.1 order

theorem compactUint256Compare_sign_appended :
    (compactUint256Compare 0x1d008000 0x1c800000).sign =
        (uint256Compare (compactToUint256 0x1d008000) (compactToUint256 0x1c800000)).sign ∧
      (compactToUint256 0x1d008000 = compactToUint256 0x1c800000 →
        compactUint256Compare 0x1d008000 0x1c800000 = 0) := by
  have appended : Normalised 0x1d008000 := ⟨by decide, by decide, .inr (by decide)⟩
  have plain : Normalised 0x1c800000 := ⟨by decide, by decide, .inl (by decide)⟩
  exact compactUint256Compare_sign appended plain

end BitcoinClib.Block
