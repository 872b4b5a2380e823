import Mathlib.Data.List.Basic

/-!
Contract: queues that lie in a window of an array.

Owns:
- `Conserves`, the law of a queue over any stretch of its life (`Conserves.trans`);
- `Window`, the list that lies in the cells from a start on, with its rules for writing behind it,
  taking from its front, and growing the array.

Does not own: an allocation, or the width of a length.
-/

namespace BitcoinClib.Lib

universe u

variable {α : Type u}

/-- What was in the queue and what went in is what came out and what is in the queue. -/
def Conserves (before pushed popped after : List α) : Prop := before ++ pushed = popped ++ after

theorem Conserves.refl (contents : List α) : Conserves contents [] [] contents :=
  List.append_nil contents

theorem Conserves.push (contents pushed : List α) :
    Conserves contents pushed [] (contents ++ pushed) := rfl

theorem Conserves.pop (contents : List α) (count : Nat) :
    Conserves contents [] (contents.take count) (contents.drop count) := by
  rw [Conserves, List.append_nil, List.take_append_drop]

theorem Conserves.trans {before middle after pushed more popped rest : List α}
    (first : Conserves before pushed popped middle)
    (second : Conserves middle more rest after) :
    Conserves before (pushed ++ more) (popped ++ rest) after := by
  rw [Conserves, ← List.append_assoc, first, List.append_assoc, second, List.append_assoc]

/-- The cells from `start` on hold the list; the other cells may hold nothing. -/
structure Window (cells : List (Option α)) (start : Nat) (contents : List α) : Prop where
  inside : start + contents.length ≤ cells.length
  holds : (cells.drop start).take contents.length = contents.map some

namespace Window

variable {cells : List (Option α)} {start : Nat} {contents : List α}

/-- Nothing lies anywhere. -/
theorem empty (inside : start ≤ cells.length) : Window cells start ([] : List α) where
  inside := inside
  holds := List.take_zero

/-- More cells come behind the array. -/
theorem grow (window : Window cells start contents) (more : List (Option α)) :
    Window (cells ++ more) start contents where
  inside := by
    have inside := window.inside
    rw [List.length_append]
    omega
  holds := by
    have inside := window.inside
    rw [List.drop_append_of_le_length (by omega), List.take_append_of_le_length]
    · exact window.holds
    · rw [List.length_drop]
      omega

/-- The cells behind the list are written. -/
theorem write (window : Window cells start contents) {pushed : List α}
    (fits : start + contents.length + pushed.length ≤ cells.length) :
    Window (cells.take (start + contents.length) ++ pushed.map some ++
      cells.drop (start + contents.length + pushed.length)) start (contents ++ pushed) where
  inside := by
    simp only [List.length_append, List.length_take, List.length_map, List.length_drop]
    omega
  holds := by
    have front : (cells.take (start + contents.length)).drop start = contents.map some := by
      rw [List.drop_take, Nat.add_sub_cancel_left]
      exact window.holds
    have before : start ≤ (cells.take (start + contents.length)).length := by
      rw [List.length_take]
      omega
    rw [List.append_assoc, List.drop_append_of_le_length before, front, ← List.append_assoc,
      ← List.map_append, ← List.length_map (f := some), List.take_left]

/-- The front of the list is read. -/
theorem read (window : Window cells start contents) {count : Nat}
    (enough : count ≤ contents.length) :
    (cells.drop start).take count = (contents.take count).map some := by
  rw [List.map_take, ← window.holds, List.take_take, Nat.min_eq_left enough]

/-- The window slides over the front of the list. -/
theorem slide (window : Window cells start contents) {count : Nat}
    (enough : count ≤ contents.length) : Window cells (start + count) (contents.drop count) where
  inside := by
    have inside := window.inside
    rw [List.length_drop]
    omega
  holds := by
    rw [← List.drop_drop, List.length_drop, ← List.drop_take, window.holds, List.map_drop]

end Window

end BitcoinClib.Lib
