import Mathlib.Order.Lattice

/-!
Contract: the running maximum of weighted entries.

Owns:
- `outweigh` and `elect`, the leader after one entry and after a list of them;
- that the leader of an election is not lighter than any of its entries (`elect_le`);
- `elect_first`, the leader is the first entry of maximal weight, or the old one.

Does not own: what the entries are, or where their weights come from.
-/

namespace BitcoinClib.Lib

universe u v

variable {ι : Type u} {W : Type v} [LinearOrder W]

/-- The leader after one more entry: only a heavier entry takes his place. -/
def outweigh (best : Option (ι × W)) (entry : ι × W) : Option (ι × W) :=
  match best with
  | none => some entry
  | some leader => if leader.2 < entry.2 then some entry else some leader

/-- The leader after all entries. -/
def elect (best : Option (ι × W)) (entries : List (ι × W)) : Option (ι × W) :=
  entries.foldl outweigh best

section Elect

variable {best : Option (ι × W)} {entry leader : ι × W} {entries more : List (ι × W)}

@[simp] theorem elect_nil : elect best [] = best := rfl

theorem elect_cons : elect best (entry :: entries) = elect (outweigh best entry) entries := rfl

theorem elect_append : elect best (entries ++ more) = elect (elect best entries) more :=
  List.foldl_append

theorem outweigh_of_le (lighter : entry.2 ≤ leader.2) :
    outweigh (some leader) entry = some leader := if_neg (not_lt_of_ge lighter)

/-- After an entry there is a leader, who is not lighter. -/
theorem outweigh_some (best : Option (ι × W)) (entry : ι × W) :
    ∃ leader, outweigh best entry = some leader ∧ entry.2 ≤ leader.2 ∧
      ∀ old, best = some old → old.2 ≤ leader.2 := by
  cases best with
  | none => exact ⟨entry, rfl, le_refl _, fun old same => nomatch same⟩
  | some old =>
      by_cases heavier : old.2 < entry.2
      · refine ⟨entry, if_pos heavier, le_refl _, fun other same => ?_⟩
        cases same
        exact le_of_lt heavier
      · refine ⟨old, if_neg heavier, not_lt.1 heavier, fun other same => ?_⟩
        cases same
        exact le_refl _

/-- The leader after an entry is the old one or the entry. -/
theorem outweigh_origin (outweighs : outweigh best entry = some leader) :
    best = some leader ∨ leader = entry := by
  cases best with
  | none =>
      cases outweighs
      exact .inr rfl
  | some old =>
      rw [outweigh] at outweighs
      split at outweighs
      · cases outweighs
        exact .inr rfl
      · exact .inl outweighs

/-- The leader is the old one, where no entry is heavier, or the first of the heaviest
entries. -/
theorem elect_first (elected : elect best entries = some leader) :
    best = some leader ∧ (∀ entry ∈ entries, entry.2 ≤ leader.2) ∨
      ∃ front back, entries = front ++ leader :: back ∧ (∀ entry ∈ front, entry.2 < leader.2) ∧
        (∀ entry ∈ back, entry.2 ≤ leader.2) ∧ ∀ old, best = some old → old.2 < leader.2 := by
  induction entries generalizing best with
  | nil => exact .inl ⟨elected, fun entry member => absurd member List.not_mem_nil⟩
  | cons entry entries inductionHypothesis =>
      obtain ⟨next, outweighs, heavier, kept⟩ := outweigh_some best entry
      rw [elect_cons, outweighs] at elected
      rcases inductionHypothesis elected with ⟨same, lighter⟩ | ⟨front, back, split, less, rest, old⟩
      · cases same
        cases best with
        | none =>
            cases outweighs
            exact .inr ⟨[], entries, rfl, fun other member => absurd member List.not_mem_nil,
              lighter, fun other same => nomatch same⟩
        | some old =>
            by_cases taken : old.2 < entry.2
            · rw [outweigh, if_pos taken] at outweighs
              cases outweighs
              refine .inr ⟨[], entries, rfl, fun other member => absurd member List.not_mem_nil,
                lighter, fun other same => ?_⟩
              cases same
              exact taken
            · rw [outweigh, if_neg taken] at outweighs
              cases outweighs
              refine .inl ⟨rfl, fun other member => ?_⟩
              rcases List.mem_cons.1 member with rfl | later
              · exact heavier
              · exact lighter other later
      · have below := old next rfl
        refine .inr ⟨entry :: front, back, by rw [split, List.cons_append], fun other member => ?_,
          rest, fun former same => lt_of_le_of_lt (kept former same) below⟩
        rcases List.mem_cons.1 member with rfl | later
        · exact lt_of_le_of_lt heavier below
        · exact less other later

/-- No entry is heavier than the leader. -/
theorem elect_le (elected : elect best entries = some leader) :
    ∀ entry ∈ entries, entry.2 ≤ leader.2 := by
  rcases elect_first elected with ⟨-, lighter⟩ | ⟨front, back, split, less, rest, -⟩
  · exact lighter
  · intro entry member
    rw [split, List.mem_append, List.mem_cons] at member
    rcases member with first | rfl | later
    · exact le_of_lt (less entry first)
    · exact le_refl _
    · exact rest entry later

/-- An election leaves a leader. -/
theorem elect_ne_none (candidates : best ≠ none ∨ entries ≠ []) : elect best entries ≠ none := by
  induction entries generalizing best with
  | nil => exact candidates.resolve_right fun nonempty => nonempty rfl
  | cons entry entries inductionHypothesis =>
      obtain ⟨next, outweighs, -⟩ := outweigh_some best entry
      rw [elect_cons, outweighs]
      exact inductionHypothesis (.inl fun none => nomatch none)

end Elect

end BitcoinClib.Lib
