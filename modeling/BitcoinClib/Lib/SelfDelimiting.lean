import Mathlib.Data.List.Basic

/-!
Contract: codes whose words end by themselves.

Owns:
- `SelfDelimiting`: a word, followed by anything, is read in one way;
- sequences of words are read in one way.
-/

namespace BitcoinClib.Lib

variable {α β : Type} {encode : α → List β}

/-- No word is empty, and the first word of a text is determined. -/
structure SelfDelimiting (encode : α → List β) : Prop where
  nonempty : ∀ word, encode word ≠ []
  reads : ∀ {first second : α} {rest rest' : List β},
    encode first ++ rest = encode second ++ rest' → first = second ∧ rest = rest'

theorem SelfDelimiting.flatMap_injective (code : SelfDelimiting encode) :
    ∀ {words words' : List α}, words.flatMap encode = words'.flatMap encode → words = words'
  | [], [], _ => rfl
  | [], word :: words, same => by
      rw [List.flatMap_nil, List.flatMap_cons] at same
      exact absurd (List.append_eq_nil_iff.1 same.symm).1 (code.nonempty word)
  | word :: words, [], same => by
      rw [List.flatMap_nil, List.flatMap_cons] at same
      exact absurd (List.append_eq_nil_iff.1 same).1 (code.nonempty word)
  | word :: words, word' :: words', same => by
      rw [List.flatMap_cons, List.flatMap_cons] at same
      obtain ⟨rfl, rest⟩ := code.reads same
      rw [code.flatMap_injective rest]

end BitcoinClib.Lib
