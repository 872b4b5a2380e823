import BitcoinClib.Lib.Exec
import Mathlib.Algebra.Group.Int.Defs
import Mathlib.Algebra.Group.Nat.Defs
import Mathlib.Data.List.Basic

/-!
Contract: arrays of fixed size behind a pointer.

Owns:
- `readAt` and `writeAt`, which stop outside the array;
- `checkedInt` and `checkedLong`, values that have to fit a signed integer of 32 or 64 bits, and
  `intOfSize`, a conversion that keeps its low bits;
- when an access succeeds (`readAt_eq_ok`, `writeAt_of_lt`, `checkedInt_eq_ok`).

Does not own: growth, allocation, or what the cells mean.
-/

namespace BitcoinClib.Lib

/-- The conversion of a `size_t` to `int` keeps the low 32 bits. -/
def intOfSize (size : Nat) : Int :=
  let low : Nat := size % 2 ^ 32
  if low < 2 ^ 31 then low else low - 2 ^ 32

theorem intOfSize_of_small {size : Nat} (small : size < 2 ^ 31) : intOfSize size = size := by
  unfold intOfSize
  rw [Nat.mod_eq_of_lt (by omega)]
  exact if_pos small

namespace Exec

universe u

variable {α : Type u}

/-- `cells[i]` -/
def readAt (cells : List α) (i : Nat) : Exec α :=
  match cells[i]? with
  | some cell => .ok cell
  | none => .fault .bounds

/-- `cells[i] = cell` -/
def writeAt (cells : List α) (i : Nat) (cell : α) : Exec (List α) :=
  if i < cells.length then .ok (cells.set i cell) else .fault .bounds

/-- The result of an `int` operation on values that are not negative. -/
def checkedInt (value : Nat) : Exec Nat :=
  if value < 2 ^ 31 then .ok value else .fault .overflow

/-- The result of a `long` operation on values that are not negative. -/
def checkedLong (value : Nat) : Exec Nat :=
  if value < 2 ^ 63 then .ok value else .fault .overflow

@[simp] theorem readAt_eq_ok {cells : List α} {i : Nat} {cell : α} :
    readAt cells i = .ok cell ↔ cells[i]? = some cell := by
  unfold readAt
  cases cells[i]? with
  | none => simp
  | some stored => simp

theorem readAt_of_lt {cells : List α} {i : Nat} (inside : i < cells.length) :
    readAt cells i = .ok cells[i] := by
  rw [readAt_eq_ok]
  exact List.getElem?_eq_getElem inside

theorem writeAt_of_lt {cells : List α} {i : Nat} (inside : i < cells.length) (cell : α) :
    writeAt cells i cell = .ok (cells.set i cell) := if_pos inside

theorem checkedInt_of_lt {value : Nat} (fits : value < 2 ^ 31) :
    checkedInt value = .ok value := if_pos fits

theorem checkedLong_of_lt {value : Nat} (fits : value < 2 ^ 63) :
    checkedLong value = .ok value := if_pos fits

theorem checkedLong_of_not_lt {value : Nat} (long : ¬ value < 2 ^ 63) :
    checkedLong value = .fault .overflow := if_neg long

@[simp] theorem checkedInt_eq_ok {value result : Nat} :
    checkedInt value = .ok result ↔ value < 2 ^ 31 ∧ value = result := by
  by_cases fits : value < 2 ^ 31
  · rw [checkedInt, if_pos fits, Exec.ok.injEq]
    exact (and_iff_right fits).symm
  · rw [checkedInt, if_neg fits]
    constructor
    · intro same
      cases same
    · intro both
      exact absurd both.1 fits

end Exec

end BitcoinClib.Lib
