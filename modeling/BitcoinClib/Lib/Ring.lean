import Mathlib.Data.List.Basic

/-!
Contract: the cells of an array that are used as a ring.

Owns:
- `Slice`, a list that lies in the cells from a start on and round their end;
- what writing behind it, reading its first cell and appending cells does to it.

Does not own: lengths in machine integers, or when an array is replaced.
-/

namespace BitcoinClib.Lib

universe u

variable {β : Type u}

/-- The cells from `start` on, round the end of the array, hold the list. -/
structure Slice (cells : List β) (start : Nat) (pending : List β) : Prop where
  start_lt : start < cells.length
  fits : pending.length ≤ cells.length
  holds : ∀ i < pending.length, cells[(start + i) % cells.length]? = pending[i]?

/-- A position of the ring, without the remainder. -/
theorem ring_index {size start i : Nat} (inside : start < size) (short : i ≤ size) :
    (start + i) % size = if start + i < size then start + i else start + i - size := by
  split
  · rename_i before
    exact Nat.mod_eq_of_lt before
  · rename_i behind
    rw [Nat.mod_eq_sub_mod (by omega)]
    exact Nat.mod_eq_of_lt (by omega)

namespace Slice

variable {cells pending : List β} {start : Nat}

theorem empty (inside : start < cells.length) : Slice cells start [] where
  start_lt := inside
  fits := Nat.zero_le _
  holds i below := absurd below (Nat.not_lt_zero i)

/-- The first part of the list lies in the same cells. -/
theorem take (slice : Slice cells start pending) (count : Nat) :
    Slice cells start (pending.take count) where
  start_lt := slice.start_lt
  fits := by
    have fits := slice.fits
    rw [List.length_take]
    omega
  holds i below := by
    rw [List.length_take] at below
    rw [List.getElem?_take_of_lt (by omega)]
    exact slice.holds i (by omega)

/-- A cell outside the list can be written. -/
theorem set_outside (slice : Slice cells start pending) {place : Nat} (item : β)
    (outside : ∀ i < pending.length, (start + i) % cells.length ≠ place) :
    Slice (cells.set place item) start pending where
  start_lt := by
    rw [List.length_set]
    exact slice.start_lt
  fits := by
    rw [List.length_set]
    exact slice.fits
  holds i below := by
    rw [List.length_set, List.getElem?_set_ne (outside i below).symm]
    exact slice.holds i below

/-- An item is added at the end where a cell is left. -/
theorem push (slice : Slice cells start pending) (room : pending.length < cells.length) (item : β) :
    Slice (cells.set ((start + pending.length) % cells.length) item) start
      (pending ++ [item]) := by
  have inside := slice.start_lt
  have kept : Slice (cells.set ((start + pending.length) % cells.length) item) start pending := by
    apply slice.set_outside
    intro i below same
    rw [ring_index inside (by omega), ring_index inside (by omega)] at same
    split at same <;> split at same <;> omega
  refine ⟨kept.start_lt, ?_, fun i below => ?_⟩
  · rw [List.length_append, List.length_set, List.length_singleton]
    exact room
  · rw [List.length_append, List.length_singleton] at below
    by_cases old : i < pending.length
    · rw [List.getElem?_append_left old]
      exact kept.holds i old
    · have last : i = pending.length := by omega
      have target : (start + pending.length) % cells.length < cells.length :=
        Nat.mod_lt _ (by omega)
      rw [last, List.length_set, List.getElem?_set_self target,
        List.getElem?_append_right (Nat.le_refl _), Nat.sub_self]
      rfl

/-- The oldest item is in the first cell, and the others lie behind it. -/
theorem pop {item : β} (slice : Slice cells start (item :: pending)) :
    cells[start]? = some item ∧ Slice cells ((start + 1) % cells.length) pending := by
  have inside := slice.start_lt
  have fits := slice.fits
  rw [List.length_cons] at fits
  constructor
  · have first := slice.holds 0 (by rw [List.length_cons]; omega)
    rwa [Nat.add_zero, Nat.mod_eq_of_lt inside] at first
  · refine ⟨Nat.mod_lt _ (by omega), by omega, fun i below => ?_⟩
    have next := slice.holds (i + 1) (by rw [List.length_cons]; omega)
    rw [List.getElem?_cons_succ] at next
    rw [← next, Nat.mod_add_mod]
    congr 2
    omega

/-- Appending cells moves nothing where the list does not go round the end. -/
theorem grow (slice : Slice cells start pending) (straight : start + pending.length ≤ cells.length)
    (more : List β) : Slice (cells ++ more) start pending := by
  have inside := slice.start_lt
  refine ⟨?_, ?_, fun i below => ?_⟩
  · rw [List.length_append]
    omega
  · rw [List.length_append]
    omega
  · have same := slice.holds i below
    rw [Nat.mod_eq_of_lt (by omega)] at same
    rw [List.length_append, Nat.mod_eq_of_lt (by omega), List.getElem?_append_left (by omega)]
    exact same

end Slice

end BitcoinClib.Lib
