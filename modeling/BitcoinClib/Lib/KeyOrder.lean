import Mathlib.Data.List.Nodup
import Mathlib.Logic.Function.Basic

/-!
Contract: lists of keys with different values, as dictionaries.

Owns:
- `entry`, the key of a list that has a value;
- the dictionary of a list into which a key is put (`entry_middle`), and of a list from which it
  is taken (`entry_without`).

Does not own: where in a list a key is put.
-/

namespace BitcoinClib.Lib

variable {κ ν : Type} [DecidableEq ν] {valueOf : κ → ν} {before after : List κ} {key : κ}

/-- The key with this value. -/
def entry (valueOf : κ → ν) (keys : List κ) (value : ν) : Option κ :=
  keys.find? fun key => valueOf key = value

@[simp] theorem entry_nil (value : ν) : entry valueOf [] value = none := rfl

theorem entry_eq_none {keys : List κ} {value : ν} :
    entry valueOf keys value = none ↔ value ∉ keys.map valueOf := by
  rw [entry, List.find?_eq_none, List.mem_map]
  constructor
  · intro others present
    obtain ⟨other, member, same⟩ := present
    exact others other member (decide_eq_true same)
  · intro absent other member same
    exact absent ⟨other, member, of_decide_eq_true same⟩

theorem entry_eq_some {keys : List κ} {value : ν} (distinct : (keys.map valueOf).Nodup) :
    entry valueOf keys value = some key ↔ key ∈ keys ∧ valueOf key = value := by
  constructor
  · intro found
    have same := List.find?_some found
    exact ⟨List.mem_of_find?_eq_some found, of_decide_eq_true same⟩
  · intro found
    obtain ⟨member, same⟩ := found
    rcases Option.eq_none_or_eq_some (entry valueOf keys value) with none | there
    · exact absurd (List.mem_map.2 ⟨key, member, same⟩) (entry_eq_none.1 none)
    · obtain ⟨other, there⟩ := there
      have otherSame := List.find?_some there
      have unique := List.inj_on_of_nodup_map distinct (List.mem_of_find?_eq_some there) member
        ((of_decide_eq_true otherSame).trans same.symm)
      rw [there, unique]

/-- A key with a value of its own is put somewhere. -/
theorem entry_middle (distinct : ((before ++ key :: after).map valueOf).Nodup) :
    entry valueOf (before ++ key :: after) =
      Function.update (entry valueOf (before ++ after)) (valueOf key) (some key) := by
  have middle : (before ++ key :: after).Perm (key :: (before ++ after)) := List.perm_middle
  have front := (middle.map valueOf).nodup_iff.1 distinct
  rw [List.map_cons, List.nodup_cons] at front
  funext value
  apply Option.ext
  intro other
  rw [entry_eq_some distinct, middle.mem_iff, List.mem_cons]
  by_cases here : value = valueOf key
  · rw [here, Function.update_self]
    constructor
    · intro found
      obtain ⟨rfl | elsewhere, same⟩ := found
      · rfl
      · exact absurd (List.mem_map.2 ⟨other, elsewhere, same⟩) front.1
    · intro found
      cases found
      exact ⟨.inl rfl, rfl⟩
  · rw [Function.update_of_ne here, entry_eq_some front.2]
    constructor
    · intro found
      obtain ⟨rfl | elsewhere, same⟩ := found
      · exact absurd same.symm here
      · exact ⟨elsewhere, same⟩
    · intro found
      exact ⟨.inr found.1, found.2⟩

/-- A key is taken out. -/
theorem entry_without (distinct : ((before ++ key :: after).map valueOf).Nodup) :
    entry valueOf (before ++ after) =
      Function.update (entry valueOf (before ++ key :: after)) (valueOf key) none := by
  have middle : (before ++ key :: after).Perm (key :: (before ++ after)) := List.perm_middle
  have front := (middle.map valueOf).nodup_iff.1 distinct
  rw [List.map_cons, List.nodup_cons] at front
  have nothing := entry_eq_none.2 front.1
  rw [entry_middle distinct, Function.update_idem, ← nothing, Function.update_eq_self]

end BitcoinClib.Lib
