import Mathlib.Algebra.GroupWithZero.Nat
import Mathlib.Algebra.Order.BigOperators.Group.List
import Mathlib.Algebra.Order.Group.Nat
import Mathlib.Data.List.Nodup
import Mathlib.Data.List.Perm.Subperm

/-!
Contract: JSON texts of objects whose values are strings.

Owns:
- the grammar as a reader, with white space, every escape, and repeated names;
- `Denotes`, the map that a text stands for (`denotes_unique`);
- `bare`, the text that escapes nothing, and the members it is right for (`denotes_bare_iff`).

Does not own: an encoding of the characters. A text with another value denotes nothing here.
-/

namespace BitcoinClib.Lib.Json

abbrev Text := List Char

abbrev Member := Text × Text

/-! ## Strings -/

/-- A character that stands for itself in a string. -/
def Plain (char : Char) : Prop := char ≠ '"' ∧ char ≠ '\\' ∧ 0x20 ≤ char.toNat

instance (char : Char) : Decidable (Plain char) :=
  inferInstanceAs (Decidable (_ ∧ _ ∧ _))

def hexDigit (char : Char) : Option Nat :=
  if '0' ≤ char ∧ char ≤ '9' then some (char.toNat - '0'.toNat)
  else if 'a' ≤ char ∧ char ≤ 'f' then some (char.toNat - 'a'.toNat + 10)
  else if 'A' ≤ char ∧ char ≤ 'F' then some (char.toNat - 'A'.toNat + 10)
  else none

/-- Four hexadecimal digits. -/
def codeUnit : Text → Option (Nat × Text)
  | a :: b :: c :: d :: rest => do
      let a ← hexDigit a
      let b ← hexDigit b
      let c ← hexDigit c
      let d ← hexDigit d
      some (((a * 16 + b) * 16 + c) * 16 + d, rest)
  | _ => none

/-- What follows `\u`: a code unit, or a pair of surrogates. -/
def unicodeEscape (text : Text) : Option (Char × Text) := do
  let (high, rest) ← codeUnit text
  if 0xD800 ≤ high ∧ high < 0xDC00 then
    match rest with
    | '\\' :: 'u' :: rest => do
        let (low, rest) ← codeUnit rest
        if 0xDC00 ≤ low ∧ low < 0xE000 then
          some (Char.ofNat (0x10000 + (high - 0xD800) * 0x400 + (low - 0xDC00)), rest)
        else none
    | _ => none
  else if 0xDC00 ≤ high ∧ high < 0xE000 then none
  else some (Char.ofNat high, rest)

def shortEscape (char : Char) : Option Char :=
  if char = '"' ∨ char = '\\' ∨ char = '/' then some char
  else if char = 'b' then some (Char.ofNat 0x08)
  else if char = 'f' then some (Char.ofNat 0x0C)
  else if char = 'n' then some (Char.ofNat 0x0A)
  else if char = 'r' then some (Char.ofNat 0x0D)
  else if char = 't' then some (Char.ofNat 0x09)
  else none

/-- What follows a backslash. -/
def escape : Text → Option (Char × Text)
  | [] => none
  | char :: rest =>
      if char = 'u' then unicodeEscape rest else (shortEscape char).map fun meant => (meant, rest)

/-- The characters of a string behind its opening quote. One unit of fuel for each of them. -/
def body : Nat → Text → Option (Text × Text)
  | 0, _ => none
  | _ + 1, [] => none
  | fuel + 1, char :: rest =>
      if char = '"' then some ([], rest)
      else if char = '\\' then do
        let (meant, rest) ← escape rest
        let (chars, rest) ← body fuel rest
        some (meant :: chars, rest)
      else if char.toNat < 0x20 then none
      else do
        let (chars, rest) ← body fuel rest
        some (char :: chars, rest)

/-! ## Objects -/

def isSpace (char : Char) : Bool := char = ' ' || char = '\t' || char = '\n' || char = '\r'

def skipSpace (text : Text) : Text := text.dropWhile isSpace

/-- A character behind white space. -/
def token (expected : Char) (text : Text) : Option Text :=
  match skipSpace text with
  | char :: rest => if char = expected then some rest else none
  | [] => none

def string (text : Text) : Option (Text × Text) := do
  let rest ← token '"' text
  body (rest.length + 1) rest

def member (text : Text) : Option (Member × Text) := do
  let (name, rest) ← string text
  let rest ← token ':' rest
  let (value, rest) ← string rest
  some ((name, value), rest)

/-- Members up to the closing brace. One unit of fuel for each of them. -/
def members : Nat → Text → Option (List Member × Text)
  | 0, _ => none
  | fuel + 1, text => do
      let (first, rest) ← member text
      match token ',' rest with
      | some rest => do
          let (others, rest) ← members fuel rest
          some (first :: others, rest)
      | none => do
          let rest ← token '}' rest
          some ([first], rest)

def object (text : Text) : Option (List Member) := do
  let rest ← token '{' text
  match token '}' rest with
  | some rest => if skipSpace rest = [] then some [] else none
  | none => do
      let (all, rest) ← members rest.length rest
      if skipSpace rest = [] then some all else none

/-- The text is an object with these members; a later one replaces one of the same name. -/
def Denotes (text : Text) (map : List Member) : Prop :=
  ∃ read, object text = some read ∧ ∀ name, read.reverse.lookup name = map.lookup name

/-- A text stands for one map. -/
theorem denotes_unique {text : Text} {map other : List Member} (first : Denotes text map)
    (second : Denotes text other) : ∀ name, map.lookup name = other.lookup name := by
  intro name
  obtain ⟨read, reads, same⟩ := first
  obtain ⟨again, readsAgain, sameAgain⟩ := second
  rw [reads] at readsAgain
  injection readsAgain with equal
  subst equal
  rw [← same, ← sameAgain]

/-! ## The text that escapes nothing -/

def quoted (chars : Text) : Text := '"' :: (chars ++ ['"'])

def bareMember (member : Member) : Text := quoted member.1 ++ ':' :: quoted member.2

def bareMembers : List Member → Text
  | [] => []
  | [last] => bareMember last
  | first :: others => bareMember first ++ ',' :: bareMembers others

def bare (all : List Member) : Text := '{' :: (bareMembers all ++ ['}'])

/-- Names and values of plain characters. -/
def AllPlain (all : List Member) : Prop :=
  ∀ member ∈ all, (∀ char ∈ member.1, Plain char) ∧ ∀ char ∈ member.2, Plain char

instance plainText (text : Text) : Decidable (∀ char ∈ text, Plain char) :=
  List.decidableBAll Plain text

instance (all : List Member) : Decidable (AllPlain all) :=
  List.decidableBAll
    (fun member : Member => (∀ char ∈ member.1, Plain char) ∧ ∀ char ∈ member.2, Plain char) all

/-! ## What a reader uses up -/

/-- From one text to the rest of it at least `cost` characters are read, and no more than these
only under a condition. -/
def Spends (cost : Nat) (tight : Prop) (text rest : Text) : Prop :=
  cost + rest.length ≤ text.length ∧ (cost + rest.length = text.length → tight)

theorem Spends.trans {cost next : Nat} {tight also : Prop} {text middle rest : Text}
    (first : Spends cost tight text middle) (second : Spends next also middle rest) :
    Spends (cost + next) (tight ∧ also) text rest := by
  constructor
  · have before := first.1
    have behind := second.1
    omega
  · intro exactly
    have before := first.1
    have behind := second.1
    exact ⟨first.2 (by omega), second.2 (by omega)⟩

theorem Spends.imp {cost : Nat} {tight also : Prop} {text rest : Text}
    (spends : Spends cost tight text rest) (weaker : tight → also) :
    Spends cost also text rest :=
  ⟨spends.1, fun exactly => weaker (spends.2 exactly)⟩

/-- More is read than has to be. -/
theorem Spends.of_lt {cost : Nat} {tight : Prop} {text rest : Text}
    (more : cost + rest.length < text.length) : Spends cost tight text rest :=
  ⟨le_of_lt more, fun exactly => absurd exactly (ne_of_lt more)⟩

theorem spends_cons {tight : Prop} (char : Char) (rest : Text) (holds : tight) :
    Spends 1 tight (char :: rest) rest :=
  ⟨by rw [List.length_cons]; omega, fun _ => holds⟩

theorem codeUnit_length {text rest : Text} {unit : Nat}
    (reads : codeUnit text = some (unit, rest)) : rest.length < text.length := by
  unfold codeUnit at reads
  split at reads
  next =>
    simp only [Option.bind_eq_bind, Option.bind_eq_some_iff, Option.some.injEq,
      Prod.mk.injEq] at reads
    obtain ⟨_, _, _, _, _, _, _, _, _, rfl⟩ := reads
    simp only [List.length_cons]
    omega
  next => cases reads

theorem unicodeEscape_length {text rest : Text} {char : Char}
    (reads : unicodeEscape text = some (char, rest)) : rest.length < text.length := by
  unfold unicodeEscape at reads
  obtain ⟨⟨high, middle⟩, unit, reads⟩ := Option.bind_eq_some_iff.1 reads
  have shorter := codeUnit_length unit
  dsimp only at reads
  split at reads
  next =>
    split at reads
    next low =>
      obtain ⟨⟨low, last⟩, unit, reads⟩ := Option.bind_eq_some_iff.1 reads
      have again := codeUnit_length unit
      dsimp only at reads
      split at reads
      next =>
        obtain ⟨-, rfl⟩ := Prod.mk.inj (Option.some.inj reads)
        simp only [List.length_cons] at shorter
        omega
      next => cases reads
    next => cases reads
  next =>
    split at reads
    next => cases reads
    next =>
      cases reads
      exact shorter

theorem escape_length {text rest : Text} {char : Char}
    (reads : escape text = some (char, rest)) : rest.length < text.length := by
  cases text with
  | nil => cases reads
  | cons first others =>
      rw [escape] at reads
      split at reads
      next =>
        have shorter := unicodeEscape_length reads
        rw [List.length_cons]
        omega
      next =>
        obtain ⟨meant, -, same⟩ := Option.map_eq_some_iff.1 reads
        cases same
        rw [List.length_cons]
        omega

theorem body_spends : ∀ {fuel : Nat} {text chars rest : Text},
    body fuel text = some (chars, rest) →
      Spends (chars.length + 1) (∀ char ∈ chars, Plain char) text rest
  | 0, _, _, _, reads => nomatch reads
  | _ + 1, [], _, _, reads => nomatch reads
  | fuel + 1, char :: others, chars, rest, reads => by
      rw [body] at reads
      split at reads
      next =>
        cases reads
        exact spends_cons char others fun char member => absurd member List.not_mem_nil
      next noQuote =>
        split at reads
        next =>
          obtain ⟨⟨meant, middle⟩, escapes, reads⟩ := Option.bind_eq_some_iff.1 reads
          obtain ⟨⟨later, last⟩, follows, same⟩ := Option.bind_eq_some_iff.1 reads
          cases same
          have shorter := escape_length escapes
          have spends := (body_spends follows).1
          apply Spends.of_lt
          simp only [List.length_cons]
          omega
        next noEscape =>
          split at reads
          next => cases reads
          next printable =>
            obtain ⟨⟨later, last⟩, follows, same⟩ := Option.bind_eq_some_iff.1 reads
            cases same
            have plain : Plain char := ⟨noQuote, noEscape, by omega⟩
            have spends := (spends_cons char others plain).trans (body_spends follows)
            rw [Nat.add_comm] at spends
            exact spends.imp fun both => List.forall_mem_cons.2 both

theorem token_spends {expected : Char} {text rest : Text}
    (reads : token expected text = some rest) : Spends 1 True text rest := by
  have shorter : (skipSpace text).length ≤ text.length :=
    (List.dropWhile_sublist isSpace).length_le
  unfold token at reads
  split at reads
  next char others behind =>
    split at reads
    next =>
      cases reads
      rw [behind, List.length_cons] at shorter
      exact ⟨by omega, fun _ => trivial⟩
    next => cases reads
  next => cases reads

theorem string_spends {text chars rest : Text} (reads : string text = some (chars, rest)) :
    Spends (chars.length + 2) (∀ char ∈ chars, Plain char) text rest := by
  obtain ⟨inner, opens, reads⟩ := Option.bind_eq_some_iff.1 reads
  have spends := (token_spends opens).trans (body_spends reads)
  rw [Nat.add_comm] at spends
  exact spends.imp And.right

/-- The characters of a member and its punctuation. -/
def memberCost (member : Member) : Nat := member.1.length + member.2.length + 6

theorem member_spends {text rest : Text} {read : Member} (reads : member text = some (read, rest)) :
    Spends (read.1.length + 2 + 1 + (read.2.length + 2)) (AllPlain [read]) text rest := by
  obtain ⟨⟨name, middle⟩, named, reads⟩ := Option.bind_eq_some_iff.1 reads
  obtain ⟨inner, colon, reads⟩ := Option.bind_eq_some_iff.1 reads
  obtain ⟨⟨value, last⟩, valued, same⟩ := Option.bind_eq_some_iff.1 reads
  cases same
  apply Spends.imp (((string_spends named).trans (token_spends colon)).trans (string_spends valued))
  intro plain other single
  rw [List.mem_singleton.1 single]
  exact ⟨plain.1.1, plain.2⟩

theorem members_spends : ∀ {fuel : Nat} {text rest : Text} {all : List Member},
    members fuel text = some (all, rest) →
      Spends (all.map memberCost).sum (AllPlain all) text rest
  | 0, _, _, _, reads => nomatch reads
  | fuel + 1, text, rest, all, reads => by
      rw [members] at reads
      obtain ⟨⟨first, middle⟩, reads1, reads⟩ := Option.bind_eq_some_iff.1 reads
      have cost : memberCost first = first.1.length + 2 + 1 + (first.2.length + 2) + 1 := by
        unfold memberCost
        omega
      dsimp only at reads
      split at reads
      next behind comma =>
        obtain ⟨⟨others, last⟩, reads2, same⟩ := Option.bind_eq_some_iff.1 reads
        cases same
        rw [List.map_cons, List.sum_cons, cost]
        apply Spends.imp (((member_spends reads1).trans (token_spends comma)).trans
          (members_spends reads2))
        intro plain
        exact List.forall_mem_cons.2 ⟨plain.1.1 first (List.mem_singleton_self first), plain.2⟩
      next =>
        obtain ⟨last, brace, same⟩ := Option.bind_eq_some_iff.1 reads
        cases same
        rw [List.map_cons, List.sum_cons, List.map_nil, List.sum_nil, Nat.add_zero, cost]
        exact ((member_spends reads1).trans (token_spends brace)).imp And.left

/-- An object that is no longer than its members need to be has plain members. -/
theorem object_spends {text : Text} {all : List Member} (reads : object text = some all) :
    Spends ((all.map memberCost).sum + 1) (AllPlain all) text [] := by
  obtain ⟨inner, brace, reads⟩ := Option.bind_eq_some_iff.1 reads
  have opens := token_spends brace
  dsimp only at reads
  split at reads
  next behind closes =>
    split at reads
    next =>
      cases reads
      have shorter := (token_spends closes).1
      refine ⟨?_, fun _ member inNone => absurd inNone List.not_mem_nil⟩
      have before := opens.1
      simp only [List.map_nil, List.sum_nil, List.length_nil]
      omega
    next => cases reads
  next =>
    obtain ⟨⟨read, last⟩, reads, ends⟩ := Option.bind_eq_some_iff.1 reads
    dsimp only at ends
    split at ends
    next =>
      cases ends
      have whole := opens.trans (members_spends reads)
      rw [Nat.add_comm] at whole
      have shorter := whole.1
      constructor
      · rw [List.length_nil]
        omega
      · intro exactly
        rw [List.length_nil] at exactly
        exact (whole.2 (by omega)).2
    next => cases ends

/-! ## Reading what escapes nothing -/

theorem token_cons {expected : Char} {text : Text} (noSpace : isSpace expected = false) :
    token expected (expected :: text) = some text := by
  have stays : skipSpace (expected :: text) = expected :: text :=
    List.dropWhile_cons_of_neg (by simp [noSpace])
  rw [token, stays]
  exact if_pos rfl

theorem token_of_ne {expected other : Char} {text : Text} (noSpace : isSpace other = false)
    (different : other ≠ expected) : token expected (other :: text) = none := by
  have stays : skipSpace (other :: text) = other :: text :=
    List.dropWhile_cons_of_neg (by simp [noSpace])
  rw [token, stays]
  exact if_neg different

theorem body_plain (rest : Text) : ∀ {chars : Text} {fuel : Nat}, (∀ char ∈ chars, Plain char) →
    chars.length < fuel → body fuel (chars ++ '"' :: rest) = some (chars, rest)
  | [], fuel + 1, _, _ => if_pos rfl
  | char :: chars, fuel + 1, plain, enough => by
      obtain ⟨noQuote, noEscape, printable⟩ := plain char List.mem_cons_self
      have later : ∀ char ∈ chars, Plain char := fun char member =>
        plain char (List.mem_cons_of_mem _ member)
      rw [List.cons_append, body, if_neg noQuote, if_neg noEscape, if_neg (by omega),
        body_plain rest later (Nat.lt_of_succ_lt_succ enough)]
      rfl
  | _, 0, _, enough => absurd enough (Nat.not_lt_zero _)

theorem string_quoted {chars : Text} (plain : ∀ char ∈ chars, Plain char) (rest : Text) :
    string (quoted chars ++ rest) = some (chars, rest) := by
  have text : quoted chars ++ rest = '"' :: (chars ++ '"' :: rest) := by
    simp [quoted]
  have opens : token '"' ('"' :: (chars ++ '"' :: rest)) = some (chars ++ '"' :: rest) :=
    token_cons (by decide)
  rw [string, text, opens]
  apply body_plain rest plain
  rw [List.length_append]
  omega

theorem member_bare {read : Member} (plain : AllPlain [read]) (rest : Text) :
    member (bareMember read ++ rest) = some (read, rest) := by
  obtain ⟨name, value⟩ := plain read (List.mem_singleton_self read)
  rw [member, bareMember, List.append_assoc, string_quoted name, Option.bind_eq_bind,
    Option.bind_some]
  dsimp only
  rw [List.cons_append, token_cons (by decide), Option.bind_eq_bind, Option.bind_some,
    string_quoted value]
  rfl

theorem members_bare (rest : Text) : ∀ {all : List Member} {fuel : Nat}, all ≠ [] →
    AllPlain all → all.length ≤ fuel →
      members fuel (bareMembers all ++ '}' :: rest) = some (all, rest)
  | [], _, nonempty, _, _ => absurd rfl nonempty
  | _ :: _, 0, _, _, enough => absurd enough (Nat.not_succ_le_zero _)
  | [last], fuel + 1, _, plain, _ => by
      rw [members, bareMembers, member_bare plain, Option.bind_eq_bind, Option.bind_some]
      dsimp only
      rw [token_of_ne (by decide) (by decide)]
      dsimp only
      rw [token_cons (by decide)]
      rfl
  | first :: second :: others, fuel + 1, _, plain, enough => by
      obtain ⟨here, later⟩ := List.forall_mem_cons.1 plain
      have single : AllPlain [first] := by
        intro other member
        rw [List.mem_singleton.1 member]
        exact here
      have text : bareMembers (first :: second :: others) =
          bareMember first ++ ',' :: bareMembers (second :: others) := rfl
      rw [members, text, List.append_assoc, member_bare single, Option.bind_eq_bind,
        Option.bind_some]
      dsimp only
      rw [List.cons_append, token_cons (by decide)]
      dsimp only
      rw [members_bare rest (List.cons_ne_nil _ _) later (Nat.le_of_succ_le_succ enough)]
      rfl

theorem length_le_bareMembers : ∀ all : List Member, all.length ≤ (bareMembers all).length
  | [] => le_refl _
  | [last] => by
      simp only [bareMembers, bareMember, quoted, List.length_append, List.length_cons]
      omega
  | first :: second :: others => by
      have later := length_le_bareMembers (second :: others)
      simp only [List.length_cons] at later
      simp only [bareMembers, bareMember, quoted, List.length_append, List.length_cons]
      omega

theorem object_bare {all : List Member} (plain : AllPlain all) : object (bare all) = some all := by
  rw [object, bare, token_cons (by decide), Option.bind_eq_bind, Option.bind_some]
  match all with
  | [] => rfl
  | first :: others =>
      have opens : ∃ text, bareMembers (first :: others) = '"' :: text := by
        cases others with
        | nil => exact ⟨_, rfl⟩
        | cons second others => exact ⟨_, rfl⟩
      obtain ⟨text, opens⟩ := opens
      have noBrace : token '}' (bareMembers (first :: others) ++ ['}']) = none := by
        rw [opens]
        exact token_of_ne (by decide) (by decide)
      have fuel : (first :: others).length ≤
          (bareMembers (first :: others) ++ ['}']).length := by
        rw [List.length_append]
        exact Nat.le_add_right_of_le (length_le_bareMembers _)
      rw [noBrace]
      dsimp only
      rw [members_bare [] (List.cons_ne_nil _ _) plain fuel]
      rfl

/-! ## The members that the text is right for -/

theorem bareMembers_length : ∀ {all : List Member}, all ≠ [] →
    (bareMembers all).length + 1 = (all.map memberCost).sum
  | [], nonempty => absurd rfl nonempty
  | [last], _ => by
      simp [bareMembers, bareMember, quoted, memberCost]
      omega
  | first :: second :: others, _ => by
      have later := bareMembers_length (List.cons_ne_nil second others)
      rw [List.map_cons, List.sum_cons, ← later]
      simp [bareMembers, bareMember, quoted, memberCost]
      omega

/-- The value of a name that stands once. -/
theorem lookup_of_mem {name value : Text} : ∀ {all : List Member},
    (all.map Prod.fst).Nodup → (name, value) ∈ all → all.lookup name = some value
  | [], _, inside => absurd inside List.not_mem_nil
  | first :: others, distinct, inside => by
      rw [List.map_cons, List.nodup_cons] at distinct
      rcases List.mem_cons.1 inside with rfl | later
      · exact List.lookup_cons_self
      · have other : name ≠ first.1 := by
          rintro rfl
          exact distinct.1 (List.mem_map.2 ⟨_, later, rfl⟩)
        obtain ⟨key, stored⟩ := first
        rw [List.lookup_cons, beq_false_of_ne other]
        exact lookup_of_mem distinct.2 later

theorem mem_of_lookup {name value : Text} : ∀ {all : List Member},
    all.lookup name = some value → (name, value) ∈ all
  | [], found => nomatch found
  | (key, stored) :: others, found => by
      rw [List.lookup_cons] at found
      split at found
      next same =>
        cases found
        rw [eq_of_beq same]
        exact List.mem_cons_self
      next => exact List.mem_cons_of_mem _ (mem_of_lookup found)

/-- The order of members with distinct names does not matter. -/
theorem lookup_reverse {all : List Member} (distinct : (all.map Prod.fst).Nodup) (name : Text) :
    all.reverse.lookup name = all.lookup name := by
  have reversed : (all.reverse.map Prod.fst).Nodup := by
    rw [List.map_reverse]
    exact List.nodup_reverse.2 distinct
  apply Option.ext
  intro value
  constructor
  · intro found
    exact lookup_of_mem distinct (List.mem_reverse.1 (mem_of_lookup found))
  · intro found
    exact lookup_of_mem reversed (List.mem_reverse.2 (mem_of_lookup found))

/-- A text without escapes stands for its members when, and only when, they are plain: any text
for the others is longer. -/
theorem denotes_bare_iff {all : List Member} (distinct : (all.map Prod.fst).Nodup) :
    Denotes (bare all) all ↔ AllPlain all := by
  constructor
  · intro denotes
    obtain ⟨read, reads, same⟩ := denotes
    have inside : all ⊆ read := by
      intro (name, value) member
      have found : read.reverse.lookup name = some value :=
        (same name).trans (lookup_of_mem distinct member)
      exact List.mem_reverse.1 (mem_of_lookup found)
    match all with
    | [] => exact fun member inNone => absurd inNone List.not_mem_nil
    | first :: others =>
        have fewer := (List.Nodup.of_map _ distinct).subperm inside
        obtain ⟨kept, permuted, sub⟩ := fewer
        have costs : ((first :: others).map memberCost).sum ≤ (read.map memberCost).sum := by
          rw [← (permuted.map memberCost).sum_eq]
          exact (sub.map memberCost).sum_le_sum fun cost _ => Nat.zero_le cost
        have spends := object_spends reads
        have length := bareMembers_length (List.cons_ne_nil first others)
        have whole : (bare (first :: others)).length =
            (bareMembers (first :: others)).length + 2 := by
          simp [bare]
        have least := spends.1
        rw [List.length_nil] at least
        have plain : AllPlain read := spends.2 (by rw [List.length_nil]; omega)
        exact fun member here => plain member (inside here)
  · intro plain
    exact ⟨all, object_bare plain, lookup_reverse distinct⟩

end BitcoinClib.Lib.Json
