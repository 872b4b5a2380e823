import BitcoinClib.Lib.Exec
import Mathlib.Data.List.Basic

/-!
Contract: edits made in place and undone.

Owns:
- `overwrite`, a copy over the front of a buffer, and the copy that takes it back;
- `editOthers`, a loop over an array that leaves one entry out, what it leaves behind, and the
  loop that takes it back.

Does not own: what the cells mean.
-/

namespace BitcoinClib.Lib

variable {α : Type}

/-! ## The front of a buffer -/

/-- `memcpy` over the front of a buffer. -/
def overwrite (cells image : List α) : Exec (List α) :=
  if image.length ≤ cells.length then .ok (image ++ cells.drop image.length) else .fault .bounds

theorem overwrite_of_le {cells image : List α} (fits : image.length ≤ cells.length) :
    overwrite cells image = .ok (image ++ cells.drop image.length) := if_pos fits

/-- A shorter image leaves what stood behind it, so the old front takes it back. -/
theorem overwrite_undo {front image : List α} (shorter : image.length ≤ front.length)
    (rest : List α) :
    overwrite (image ++ (front ++ rest).drop image.length) front = .ok (front ++ rest) := by
  have length : (image ++ (front ++ rest).drop image.length).length = (front ++ rest).length := by
    rw [List.length_append, List.length_drop, List.length_append]
    omega
  rw [overwrite_of_le (by rw [length, List.length_append]; omega), List.drop_append,
    List.drop_eq_nil_of_le shorter, List.nil_append, List.drop_drop]
  congr 2
  rw [Nat.add_sub_cancel' shorter, List.drop_left]

/-! ## All entries but one -/

/-- The body of the loop: the entry `kept` is passed over. -/
def editOther (kept : Nat) (edit : α → Exec α) (i : Nat) (entry : α) : Exec α :=
  if i = kept then .ok entry else edit entry

/-- A loop over an array from index `i` on that leaves the entry `kept` out. -/
def editOthers (kept : Nat) (edit : α → Exec α) : Nat → List α → Exec (List α)
  | _, [] => .ok []
  | i, entry :: entries => do
      let edited ← editOther kept edit i entry
      let others ← editOthers kept edit (i + 1) entries
      .ok (edited :: others)

/-- The array the loop leaves behind. -/
def mapOthers (kept : Nat) (image : α → α) (start : Nat) (entries : List α) : List α :=
  entries.mapIdx fun i entry => if start + i = kept then entry else image entry

theorem mapOthers_cons (kept : Nat) (image : α → α) (start : Nat) (entry : α)
    (entries : List α) :
    mapOthers kept image start (entry :: entries) =
      (if start = kept then entry else image entry) ::
        mapOthers kept image (start + 1) entries := by
  rw [mapOthers, List.mapIdx_cons]
  simp only [Nat.add_zero, Nat.add_assoc, Nat.add_comm 1, mapOthers]

theorem getElem?_mapOthers (kept : Nat) (image : α → α) (entries : List α) (i : Nat) :
    (mapOthers kept image 0 entries)[i]? =
      entries[i]?.map fun entry => if i = kept then entry else image entry := by
  unfold mapOthers
  rw [List.getElem?_mapIdx]
  simp only [Nat.zero_add]

/-- The entry that is left out can be changed before the loop and changed back after it. -/
theorem mapOthers_modify_undo {kept : Nat} {image change undo : α → α} {entries : List α}
    {entry : α} (here : entries[kept]? = some entry) (undone : undo (change entry) = entry) :
    (mapOthers kept image 0 (entries.modify kept change)).modify kept undo =
      mapOthers kept image 0 entries := by
  apply List.ext_getElem?
  intro i
  by_cases same : i = kept
  · subst same
    simp only [List.getElem?_modify_eq, getElem?_mapOthers, here, Option.map_eq_map,
      Option.map_some, ↓reduceIte, undone]
  · simp only [List.getElem?_modify_ne _ _ (Ne.symm same), getElem?_mapOthers, if_neg same]

theorem editOthers_of {kept : Nat} {edit : α → Exec α} {image : α → α} {entries : List α}
    (returns : ∀ entry ∈ entries, edit entry = .ok (image entry)) (start : Nat) :
    editOthers kept edit start entries = .ok (mapOthers kept image start entries) := by
  induction entries generalizing start with
  | nil => rfl
  | cons entry entries inductionHypothesis =>
      have edited : editOther kept edit start entry =
          .ok (if start = kept then entry else image entry) := by
        unfold editOther
        split
        · rfl
        · exact returns entry List.mem_cons_self
      have others := inductionHypothesis
        (fun other member => returns other (List.mem_cons_of_mem _ member)) (start + 1)
      rw [editOthers, edited, Exec.ok_bind, others, Exec.ok_bind, mapOthers_cons]

/-- The loop with the inverse edit takes the edits back. -/
theorem editOthers_undo {kept : Nat} {undo : α → Exec α} {image : α → α} {entries : List α}
    (returns : ∀ entry ∈ entries, undo (image entry) = .ok entry) (start : Nat) :
    editOthers kept undo start (mapOthers kept image start entries) = .ok entries := by
  induction entries generalizing start with
  | nil => rfl
  | cons entry entries inductionHypothesis =>
      have undone : editOther kept undo start (if start = kept then entry else image entry) =
          .ok entry := by
        unfold editOther
        split
        · rfl
        · exact returns entry List.mem_cons_self
      have others := inductionHypothesis
        (fun other member => returns other (List.mem_cons_of_mem _ member)) (start + 1)
      rw [mapOthers_cons, editOthers, undone, Exec.ok_bind, others, Exec.ok_bind]

end BitcoinClib.Lib
