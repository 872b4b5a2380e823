import Mathlib.Data.List.Basic
import Mathlib.Tactic.Linarith
import Mathlib.Tactic.Ring
import Mathlib.Tactic.Positivity

/-!
Contract: byte strings, little-endian integers, and the `varint` / `varstr`
wire types of `satoshi-types.c`.

Owns:
- `leBytes` / `leValue`, the little-endian image of a fixed-width integer;
- `varintCalcSize`, `varintSetData`, `varintSize`, `varintGet`;
- `Varstr`, a stored length-prefixed string whose prefix announces exactly the
  bytes that follow it (a minimal prefix is not required: the parser keeps the
  prefix it was given);
- the fixed-size digests `Uint256` and `Uint160`.

Does not own: parsing of untrusted buffers.
-/

namespace BitcoinClib.Types

abbrev Bytes := List UInt8

/-- The `width` low-order bytes of `value`, least significant first. -/
def leBytes : Nat → Nat → Bytes
  | 0, _ => []
  | width + 1, value => UInt8.ofNat (value % 256) :: leBytes width (value / 256)

/-- The integer whose little-endian image is the given string. -/
def leValue : Bytes → Nat
  | [] => 0
  | byte :: rest => byte.toNat + 256 * leValue rest

@[simp] theorem leBytes_length (width value : Nat) : (leBytes width value).length = width := by
  induction width generalizing value with
  | zero => rfl
  | succ width inductionHypothesis => simp [leBytes, inductionHypothesis]

theorem leValue_leBytes (width value : Nat) (small : value < 256 ^ width) :
    leValue (leBytes width value) = value := by
  induction width generalizing value with
  | zero =>
      rw [pow_zero] at small
      simp [leBytes, leValue]
      omega
  | succ width inductionHypothesis =>
      have quotientSmall : value / 256 < 256 ^ width := by
        rw [Nat.div_lt_iff_lt_mul (by decide)]
        rwa [pow_succ] at small
      have digit : (UInt8.ofNat (value % 256)).toNat = value % 256 := by
        simp
      simp only [leBytes, leValue]
      rw [inductionHypothesis _ quotientSmall, digit]
      omega

theorem leValue_lt (bytes : Bytes) : leValue bytes < 256 ^ bytes.length := by
  induction bytes with
  | nil => simp [leValue]
  | cons byte rest inductionHypothesis =>
      have digit := byte.toNat_lt
      rw [leValue, List.length_cons, pow_succ]
      omega

theorem leBytes_leValue (bytes : Bytes) : leBytes bytes.length (leValue bytes) = bytes := by
  induction bytes with
  | nil => rfl
  | cons byte rest inductionHypothesis =>
      have digit := byte.toNat_lt
      have low : (byte.toNat + 256 * leValue rest) % 256 = byte.toNat := by omega
      have high : (byte.toNat + 256 * leValue rest) / 256 = leValue rest := by omega
      rw [leValue, List.length_cons, leBytes, low, high, inductionHypothesis]
      simp

theorem leValue_append (low high : Bytes) :
    leValue (low ++ high) = leValue low + 256 ^ low.length * leValue high := by
  induction low with
  | nil => simp [leValue]
  | cons byte rest inductionHypothesis =>
      rw [List.cons_append, leValue, leValue, inductionHypothesis, List.length_cons, pow_succ]
      ring

@[simp] theorem leValue_replicate_zero (width : Nat) : leValue (List.replicate width 0) = 0 := by
  induction width with
  | zero => rfl
  | succ width inductionHypothesis =>
      rw [List.replicate_succ, leValue, inductionHypothesis]
      rfl

/-- The low-order bytes are the remainder, the others the quotient. -/
theorem leValue_take (count : Nat) (bytes : Bytes) :
    leValue (bytes.take count) = leValue bytes % 256 ^ (bytes.take count).length := by
  have parts := leValue_append (bytes.take count) (bytes.drop count)
  rw [List.take_append_drop] at parts
  rw [parts, Nat.add_mul_mod_self_left, Nat.mod_eq_of_lt (leValue_lt _)]

theorem leValue_drop {count : Nat} {bytes : Bytes} (inside : count ≤ bytes.length) :
    leValue (bytes.drop count) = leValue bytes / 256 ^ count := by
  have parts := leValue_append (bytes.take count) (bytes.drop count)
  have length : (bytes.take count).length = count := List.length_take_of_le inside
  have low := leValue_lt (bytes.take count)
  rw [List.take_append_drop, length] at parts
  rw [length] at low
  rw [parts, Nat.add_mul_div_left _ _ (by positivity), Nat.div_eq_of_lt low, Nat.zero_add]

/-- Strings of one length are told apart by their integers. -/
theorem eq_of_leValue_eq {left right : Bytes} (length : left.length = right.length)
    (same : leValue left = leValue right) : left = right := by
  rw [← leBytes_leValue left, ← leBytes_leValue right, length, same]

/-- A fact about bytes can be checked one byte at a time. -/
theorem forall_byte {property : UInt8 → Prop}
    (each : ∀ value < 256, property (UInt8.ofNat value)) (byte : UInt8) : property byte := by
  have here := each byte.toNat byte.toNat_lt
  rwa [UInt8.ofNat_toNat] at here

/-! ## varint -/

/-- `varint_calc_size` -/
def varintCalcSize (value : Nat) : Nat :=
  if value < 0xFD then 1
  else if value ≤ 0xFFFF then 3
  else if value ≤ 0xFFFFFFFF then 5
  else 9

/-- `varint_set_data` -/
def varintSetData (value : Nat) : Bytes :=
  if value < 0xFD then leBytes 1 value
  else if value ≤ 0xFFFF then 0xFD :: leBytes 2 value
  else if value ≤ 0xFFFFFFFF then 0xFE :: leBytes 4 value
  else 0xFF :: leBytes 8 value

/-- `varint_size`: the tag byte decides. -/
def varintSize (vch : Bytes) : Nat :=
  match vch with
  | [] => 0
  | tag :: _ =>
      if tag < 0xFD then 1
      else if tag = 0xFD then 3
      else if tag = 0xFE then 5
      else 9

/-- `varint_get` -/
def varintGet (vch : Bytes) : Nat :=
  match vch with
  | [] => 0
  | tag :: rest =>
      if tag < 0xFD then tag.toNat
      else if tag = 0xFD then leValue (rest.take 2)
      else if tag = 0xFE then leValue (rest.take 4)
      else leValue (rest.take 8)

@[simp] theorem varintSetData_length (value : Nat) :
    (varintSetData value).length = varintCalcSize value := by
  unfold varintSetData varintCalcSize
  split_ifs <;> simp

theorem varintCalcSize_pos (value : Nat) : 0 < varintCalcSize value := by
  unfold varintCalcSize
  split_ifs <;> decide

theorem varintSetData_ne_nil (value : Nat) : varintSetData value ≠ [] := by
  have positive := varintCalcSize_pos value
  rw [← varintSetData_length] at positive
  exact List.ne_nil_of_length_pos positive

theorem varintSize_varintSetData (value : Nat) :
    varintSize (varintSetData value) = varintCalcSize value := by
  unfold varintSetData varintCalcSize
  split_ifs with oneByte twoBytes fourBytes
  · have tag : (UInt8.ofNat (value % 256)) < 0xFD := by
      rw [UInt8.lt_iff_toNat_lt]
      simp
      omega
    simp [leBytes, varintSize, tag]
  · rfl
  · rfl
  · rfl

theorem varintGet_varintSetData (value : Nat) (small : value < 2 ^ 64) :
    varintGet (varintSetData value) = value := by
  unfold varintSetData
  split_ifs with oneByte twoBytes fourBytes
  · have digit : (UInt8.ofNat (value % 256)).toNat = value := by
      simp
      omega
    have tag : (UInt8.ofNat (value % 256)) < 0xFD := by
      rw [UInt8.lt_iff_toNat_lt, digit]
      exact oneByte
    simp only [leBytes, varintGet, if_pos tag, digit]
  · have payload : (leBytes 2 value).take 2 = leBytes 2 value := by simp [leBytes]
    simp only [varintGet]
    rw [if_neg (by decide), if_pos trivial, payload, leValue_leBytes 2 value (by omega)]
  · have payload : (leBytes 4 value).take 4 = leBytes 4 value := by simp [leBytes]
    simp only [varintGet]
    rw [if_neg (by decide), if_neg (by decide), if_pos trivial, payload,
      leValue_leBytes 4 value (by omega)]
  · have payload : (leBytes 8 value).take 8 = leBytes 8 value := by simp [leBytes]
    simp only [varintGet]
    rw [if_neg (by decide), if_neg (by decide), if_neg (by decide), payload,
      leValue_leBytes 8 value (by omega)]

theorem varintSize_pos {p : Bytes} (nonempty : p ≠ []) : 0 < varintSize p := by
  cases p with
  | nil => exact absurd rfl nonempty
  | cons tag data =>
      simp only [varintSize]
      split_ifs <;> decide

theorem varintGet_lt (vch : Bytes) : varintGet vch < 2 ^ 64 := by
  cases vch with
  | nil => decide
  | cons tag rest =>
      have bound (width : Nat) (most : width ≤ 8) : leValue (rest.take width) < 2 ^ 64 :=
        calc leValue (rest.take width) < 256 ^ (rest.take width).length := leValue_lt _
          _ ≤ 256 ^ 8 := Nat.pow_le_pow_right (by decide) (by rw [List.length_take]; omega)
          _ = 2 ^ 64 := by decide
      unfold varintGet
      have digit := tag.toNat_lt
      dsimp only
      split_ifs
      · omega
      · exact bound 2 (by decide)
      · exact bound 4 (by decide)
      · exact bound 8 (by decide)

/-! ## varstr -/

/-- A stored `varstr_t`: its length prefix as it stands in memory, then its data.
The prefix announces its own size and the size of the data. -/
structure Varstr where
  vint : Bytes
  data : Bytes
  vint_size : varintSize vint = vint.length
  vint_value : varintGet vint = data.length
deriving DecidableEq, Repr

namespace Varstr

/-- The bytes of the buffer, prefix included. -/
def vch (vstr : Varstr) : Bytes := vstr.vint ++ vstr.data

/-- `varstr_size` -/
def size (vstr : Varstr) : Nat := varintSize vstr.vint + varintGet vstr.vint

/-- A stored string with a minimal prefix. -/
def ofData (data : Bytes) (small : data.length < 2 ^ 64) : Varstr where
  vint := varintSetData data.length
  data := data
  vint_size := by rw [varintSize_varintSetData, varintSetData_length]
  vint_value := varintGet_varintSetData _ small

theorem nil_small : ([] : Bytes).length < 2 ^ 64 := by decide

end Varstr

/-- The buffer allocated by `varstr_new`: a minimal prefix, then the data. -/
def varstrNew (data : Bytes) : Bytes := varintSetData data.length ++ data

/-- The static `varstr_empty`: one zero byte. -/
def varstrEmpty : Bytes := [0]

/-! ## Digests -/

/-- `uint256_t` -/
abbrev Uint256 := { val : Bytes // val.length = 32 }

/-- A 20-byte hash. -/
abbrev Uint160 := { val : Bytes // val.length = 20 }

/-- `uint256_zero` -/
def uint256Zero : Uint256 := ⟨List.replicate 32 0, rfl⟩

end BitcoinClib.Types
