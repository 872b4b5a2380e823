import Mathlib.Data.List.Dedup
import Mathlib.Data.List.Perm.Basic

/-!
Contract: tables that keep the latest row for every key.

Owns:
- `latest`, the last row with a key among those received;
- `Latest`, that a table holds the latest row for each key received and nothing else, and how
  it follows the next row: a new key, or a row in the place of an old one;
- the size of such a table, and that any two hold the same rows.
-/

namespace BitcoinClib.Lib

variable {α κ : Type} [DecidableEq κ] {key : α → κ}

/-- The last row with this key. -/
def latest (key : α → κ) (received : List α) (k : κ) : Option α :=
  received.reverse.find? fun row => key row = k

@[simp] theorem latest_nil (k : κ) : latest key [] k = none := rfl

theorem latest_append (received : List α) (row : α) (k : κ) :
    latest key (received ++ [row]) k = if key row = k then some row else latest key received k := by
  rw [latest, List.reverse_append, List.reverse_singleton, List.singleton_append, List.find?_cons]
  by_cases same : key row = k
  · simp [same]
  · simp [same, latest]

theorem key_of_latest {received : List α} {k : κ} {row : α}
    (last : latest key received k = some row) : key row = k := by
  have holds := List.find?_some last
  exact of_decide_eq_true holds

theorem mem_of_latest {received : List α} {k : κ} {row : α}
    (last : latest key received k = some row) : row ∈ received :=
  List.mem_reverse.1 (List.mem_of_find?_eq_some last)

theorem exists_latest {received : List α} {k : κ} (known : k ∈ received.map key) :
    ∃ row, latest key received k = some row := by
  obtain ⟨row, member, same⟩ := List.mem_map.1 known
  apply Option.isSome_iff_exists.1
  rw [latest, List.find?_isSome]
  exact ⟨row, List.mem_reverse.2 member, decide_eq_true same⟩

/-- One row for each key received: the latest. -/
structure Latest (key : α → κ) (received table : List α) : Prop where
  distinct : (table.map key).Nodup
  rows : ∀ row, row ∈ table ↔ latest key received (key row) = some row

namespace Latest

variable {received table before after : List α} {row old : α}

theorem nil : Latest key [] [] :=
  ⟨List.nodup_nil, fun row => by simp⟩

theorem keys (holds : Latest key received table) (k : κ) :
    k ∈ table.map key ↔ k ∈ received.map key := by
  constructor
  · intro member
    obtain ⟨row, inside, rfl⟩ := List.mem_map.1 member
    exact List.mem_map_of_mem (mem_of_latest ((holds.rows row).1 inside))
  · intro known
    obtain ⟨row, last⟩ := exists_latest known
    have same := key_of_latest last
    subst same
    exact List.mem_map_of_mem ((holds.rows row).2 last)

/-- The first row with its key is put somewhere. -/
theorem insert (holds : Latest key received (before ++ after))
    (new : key row ∉ (before ++ after).map key) :
    Latest key (received ++ [row]) (before ++ row :: after) := by
  constructor
  · have moved : ((before ++ row :: after).map key).Perm
        (key row :: (before ++ after).map key) := by
      rw [List.map_append, List.map_cons, List.map_append]
      exact List.perm_middle
    rw [moved.nodup_iff, List.nodup_cons]
    exact ⟨new, holds.distinct⟩
  · intro other
    have members : other ∈ before ++ row :: after ↔ other = row ∨ other ∈ before ++ after := by
      rw [List.perm_middle.mem_iff, List.mem_cons]
    rw [members, latest_append]
    by_cases same : key row = key other
    · have elsewhere : other ∉ before ++ after := fun inside =>
        new (same ▸ List.mem_map_of_mem inside)
      simp [same, elsewhere, eq_comm]
    · have apart : other ≠ row := fun equal => same (equal ▸ rfl)
      rw [if_neg same, holds.rows]
      simp [apart]

/-- A row takes the place of the one with its key. -/
theorem update (holds : Latest key received (before ++ old :: after)) (same : key old = key row) :
    Latest key (received ++ [row]) (before ++ row :: after) := by
  have keysSame : (before ++ row :: after).map key = (before ++ old :: after).map key := by
    simp [same]
  have distinct := holds.distinct
  rw [List.map_append, List.map_cons, List.perm_middle.nodup_iff, List.nodup_cons,
    ← List.map_append] at distinct
  constructor
  · rw [keysSame]
    exact holds.distinct
  · intro other
    have members : other ∈ before ++ row :: after ↔ other = row ∨ other ∈ before ++ after := by
      rw [List.perm_middle.mem_iff, List.mem_cons]
    rw [members, latest_append]
    by_cases equal : key row = key other
    · have elsewhere : other ∉ before ++ after := fun inside =>
        distinct.1 ((same.trans equal) ▸ List.mem_map_of_mem inside)
      simp [equal, elsewhere, eq_comm]
    · have apart : other ≠ row := fun here => equal (here ▸ rfl)
      have notOld : other ≠ old := fun here => equal (here ▸ same.symm)
      have rows := holds.rows other
      rw [List.perm_middle.mem_iff, List.mem_cons] at rows
      rw [if_neg equal, ← rows]
      simp [apart, notOld]

/-- The table is as long as there are keys. -/
theorem length_eq (holds : Latest key received table) :
    table.length = (received.map key).dedup.length := by
  have same : (table.map key).Perm (received.map key).dedup := by
    rw [List.perm_ext_iff_of_nodup holds.distinct (List.nodup_dedup _)]
    intro k
    rw [List.mem_dedup]
    exact holds.keys k
  have rows : (table.map key).length = table.length := List.length_map key
  rw [← rows]
  exact same.length_eq

theorem perm {other : List α} (holds : Latest key received table)
    (holdsOther : Latest key received other) : table.Perm other := by
  rw [List.perm_ext_iff_of_nodup (List.Nodup.of_map key holds.distinct)
    (List.Nodup.of_map key holdsOther.distinct)]
  intro row
  rw [holds.rows, holdsOther.rows]

/-- The rows under another type. -/
theorem map {β : Type} {keyOf : β → κ} {f : α → β} (holds : Latest key received table)
    (sameKey : ∀ row, keyOf (f row) = key row) :
    Latest keyOf (received.map f) (table.map f) := by
  have keysOf : keyOf ∘ f = key := funext sameKey
  have latestOf : ∀ k, latest keyOf (received.map f) k = (latest key received k).map f := by
    intro k
    rw [latest, ← List.map_reverse, List.find?_map]
    simp only [Function.comp_def, sameKey]
    rfl
  constructor
  · rw [List.map_map, keysOf]
    exact holds.distinct
  · intro row
    rw [latestOf, List.mem_map, Option.map_eq_some_iff]
    constructor
    · rintro ⟨source, member, rfl⟩
      rw [sameKey]
      exact ⟨source, (holds.rows source).1 member, rfl⟩
    · rintro ⟨source, last, rfl⟩
      rw [sameKey] at last
      exact ⟨source, (holds.rows source).2 last, rfl⟩

end Latest

end BitcoinClib.Lib
