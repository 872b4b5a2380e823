import Mathlib.Data.List.Basic

/-!
Contract: groups of eight bits regrouped into groups of six.

Owns:
- `toSextets` and `ofSextets`, with the round trip of bytes (`ofSextets_toSextets`);
- how many groups there are, and how large they get.

Does not own: an alphabet, padding, or a text.
-/

namespace BitcoinClib.Lib

/-- The groups of six bits of a list of bytes; the last one is filled up with zeros. -/
def toSextets : List Nat → List Nat
  | [] => []
  | [a] => [a / 4, a % 4 * 16]
  | [a, b] => [a / 4, a % 4 * 16 + b / 16, b % 16 * 4]
  | a :: b :: c :: rest =>
      a / 4 :: (a % 4 * 16 + b / 16) :: (b % 16 * 4 + c / 64) :: c % 64 :: toSextets rest

/-- The bytes of a list of groups of six bits; bits that fill no byte are dropped. -/
def ofSextets : List Nat → List Nat
  | [] => []
  | [_] => []
  | [a, b] => [a * 4 + b / 16]
  | [a, b, c] => [a * 4 + b / 16, b % 16 * 16 + c / 4]
  | a :: b :: c :: d :: rest =>
      (a * 4 + b / 16) :: (b % 16 * 16 + c / 4) :: (c % 4 * 64 + d) :: ofSextets rest

/-- Bytes come back. -/
theorem ofSextets_toSextets : ∀ {bytes : List Nat}, (∀ byte ∈ bytes, byte < 256) →
    ofSextets (toSextets bytes) = bytes
  | [], _ => rfl
  | [a], _ => by
      have first : a / 4 * 4 + a % 4 * 16 / 16 = a := by omega
      rw [toSextets, ofSextets, first]
  | [a, b], bounded => by
      have second := bounded b (by simp)
      have low : a / 4 * 4 + (a % 4 * 16 + b / 16) / 16 = a := by omega
      have high : (a % 4 * 16 + b / 16) % 16 * 16 + b % 16 * 4 / 4 = b := by omega
      rw [toSextets, ofSextets, low, high]
  | a :: b :: c :: rest, bounded => by
      have second := bounded b (by simp)
      have third := bounded c (by simp)
      have below : ∀ byte ∈ rest, byte < 256 := fun byte member => bounded byte (by simp [member])
      have low : a / 4 * 4 + (a % 4 * 16 + b / 16) / 16 = a := by omega
      have middle : (a % 4 * 16 + b / 16) % 16 * 16 + (b % 16 * 4 + c / 64) / 4 = b := by omega
      have high : (b % 16 * 4 + c / 64) % 4 * 64 + c % 64 = c := by omega
      rw [toSextets, ofSextets, low, middle, high, ofSextets_toSextets below]

theorem toSextets_lt : ∀ {bytes : List Nat}, (∀ byte ∈ bytes, byte < 256) →
    ∀ sextet ∈ toSextets bytes, sextet < 64
  | [], _, sextet, member => absurd member List.not_mem_nil
  | [a], bounded, sextet, member => by
      have first := bounded a (by simp)
      simp only [toSextets, List.mem_cons, List.not_mem_nil, or_false] at member
      omega
  | [a, b], bounded, sextet, member => by
      have first := bounded a (by simp)
      have second := bounded b (by simp)
      simp only [toSextets, List.mem_cons, List.not_mem_nil, or_false] at member
      omega
  | a :: b :: c :: rest, bounded, sextet, member => by
      have first := bounded a (by simp)
      have second := bounded b (by simp)
      have third := bounded c (by simp)
      simp only [toSextets, List.mem_cons] at member
      rcases member with same | same | same | same | later
      · omega
      · omega
      · omega
      · omega
      · exact toSextets_lt (fun byte inRest => bounded byte (by simp [inRest])) sextet later

theorem toSextets_length : ∀ bytes : List Nat,
    (toSextets bytes).length = (bytes.length * 4 + 2) / 3
  | [] => rfl
  | [_] => by simp [toSextets]
  | [_, _] => by simp [toSextets]
  | _ :: _ :: _ :: rest => by
      simp only [toSextets, List.length_cons, toSextets_length rest]
      omega

end BitcoinClib.Lib
