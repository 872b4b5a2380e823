import BitcoinClib.Lib.Exec
import Mathlib.Data.List.Basic
import Mathlib.Data.List.Forall2

/-!
Contract: readers of a buffer that reject, fault or leave the rest of the buffer.

Owns:
- `Parser` with its sequencing and the primitive readers;
- `Parses`, a successful read, with one rule for each combinator;
- `many`, a counted repetition, read forwards (`parses_many`) and inverted
  (`many_reads`).

Does not own: any wire format.
-/

namespace BitcoinClib.Lib

/-- A reader: a fault, a rejection (`none`), or a value and what is left of the buffer. -/
def Parser (σ α : Type) := List σ → Exec (Option (α × List σ))

namespace Parser

variable {σ α β : Type}

protected def pure (value : α) : Parser σ α := fun p => .ok (some (value, p))

protected def bind (first : Parser σ α) (next : α → Parser σ β) : Parser σ β := fun p =>
  match first p with
  | .ok (some (value, rest)) => next value rest
  | .ok none => .ok none
  | .fault cause => .fault cause
  | .timeout => .timeout

instance : Monad (Parser σ) where
  pure := Parser.pure
  bind := Parser.bind

/-- Reject. -/
def fail : Parser σ α := fun _ => .ok none

/-- Reject unless the condition holds. -/
def require (condition : Prop) [Decidable condition] : Parser σ Unit :=
  if condition then pure () else fail

/-- A computation that reads nothing. -/
def lift (run : Exec α) : Parser σ α := fun p => do
  let value ← run
  .ok (some (value, p))

/-- What is left of the buffer. -/
def remaining : Parser σ (List σ) := fun p => .ok (some (p, p))

/-- The next `count` entries. -/
def take (count : Nat) : Parser σ (List σ) := fun p =>
  if p.length < count then .ok none else .ok (some (p.take count, p.drop count))

/-- `count` reads in a row. -/
def many (reader : Parser σ α) : Nat → Parser σ (List α)
  | 0 => pure []
  | count + 1 => do
      let value ← reader
      let values ← many reader count
      pure (value :: values)

/-- The reader returns `value` and leaves `rest`. -/
def Parses (reader : Parser σ α) (p : List σ) (value : α) (rest : List σ) : Prop :=
  reader p = .ok (some (value, rest))

instance [DecidableEq σ] [DecidableEq α] (reader : Parser σ α) (p : List σ) (value : α)
    (rest : List σ) : Decidable (Parses reader p value rest) :=
  inferInstanceAs (Decidable (_ = _))

variable {p rest : List σ} {value : α} {result : β}

theorem parses_pure {given : α} :
    Parses (pure given : Parser σ α) p value rest ↔ value = given ∧ rest = p := by
  show Exec.ok (some (given, p)) = Exec.ok (some (value, rest)) ↔ _
  simp only [Exec.ok.injEq, Option.some.injEq, Prod.mk.injEq]
  exact ⟨fun both => ⟨both.1.symm, both.2.symm⟩, fun both => ⟨both.1.symm, both.2.symm⟩⟩

/-- A sequence succeeds exactly when both of its parts do. -/
theorem parses_bind {first : Parser σ α} {next : α → Parser σ β} :
    Parses (first >>= next) p result rest ↔
      ∃ value middle, Parses first p value middle ∧ Parses (next value) middle result rest := by
  show Parser.bind first next p = _ ↔ _
  unfold Parser.bind Parses
  cases first p with
  | ok outcome =>
      cases outcome with
      | none => simp
      | some pair =>
          constructor
          · exact fun second => ⟨pair.1, pair.2, rfl, second⟩
          · rintro ⟨value, middle, first, second⟩
            cases first
            exact second
  | fault cause => simp
  | timeout => simp

@[simp] theorem not_parses_fail : ¬ Parses (fail : Parser σ α) p value rest := by
  unfold Parses fail
  simp

theorem parses_require {condition : Prop} [Decidable condition] {done : Unit} :
    Parses (require condition : Parser σ Unit) p done rest ↔ condition ∧ rest = p := by
  unfold require
  split
  next holds =>
    rw [parses_pure]
    simp [holds]
  next fails => simp [fails]

theorem parses_lift {run : Exec α} :
    Parses (lift run : Parser σ α) p value rest ↔ run = .ok value ∧ rest = p := by
  unfold Parses lift
  cases run with
  | ok given =>
      simp only [Exec.ok_bind, Exec.ok.injEq, Option.some.injEq, Prod.mk.injEq]
      exact and_congr_right fun _ => eq_comm
  | fault cause => simp
  | timeout => simp

theorem parses_remaining {here : List σ} :
    Parses (remaining : Parser σ (List σ)) p here rest ↔ here = p ∧ rest = p := by
  unfold Parses remaining
  simp only [Exec.ok.injEq, Option.some.injEq, Prod.mk.injEq]
  exact ⟨fun both => ⟨both.1.symm, both.2.symm⟩, fun both => ⟨both.1.symm, both.2.symm⟩⟩

theorem parses_take {count : Nat} {bytes : List σ} :
    Parses (take count : Parser σ (List σ)) p bytes rest ↔
      bytes.length = count ∧ p = bytes ++ rest := by
  unfold Parses take
  split
  next short =>
    simp only [reduceCtorEq, false_iff, Exec.ok.injEq]
    rintro ⟨rfl, rfl⟩
    rw [List.length_append] at short
    omega
  next enough =>
    simp only [Exec.ok.injEq, Option.some.injEq, Prod.mk.injEq]
    constructor
    · rintro ⟨rfl, rfl⟩
      exact ⟨by rw [List.length_take]; omega, (List.take_append_drop count p).symm⟩
    · rintro ⟨rfl, rfl⟩
      exact ⟨List.take_left, List.drop_left⟩

/-! ## One step of a sequence -/

theorem parses_remaining_bind {next : List σ → Parser σ α}
    {value : α} :
    Parses (remaining >>= next) p value rest ↔ Parses (next p) p value rest := by
  rw [parses_bind]
  constructor
  · rintro ⟨here, middle, read, parses⟩
    obtain ⟨rfl, rfl⟩ := parses_remaining.1 read
    exact parses
  · exact fun parses => ⟨p, p, parses_remaining.2 ⟨rfl, rfl⟩, parses⟩

theorem parses_require_bind {condition : Prop} [Decidable condition]
    {next : Unit → Parser σ α} {p rest : List σ} {value : α} :
    Parses (require condition >>= next) p value rest ↔
      condition ∧ Parses (next ()) p value rest := by
  rw [parses_bind]
  constructor
  · rintro ⟨done, middle, checked, parses⟩
    obtain ⟨holds, rfl⟩ := parses_require.1 checked
    exact ⟨holds, parses⟩
  · rintro ⟨holds, parses⟩
    exact ⟨(), p, parses_require.2 ⟨holds, rfl⟩, parses⟩

theorem parses_lift_bind {run : Exec β} {next : β → Parser σ α}
    {value : α} :
    Parses (lift run >>= next) p value rest ↔
      ∃ result, run = .ok result ∧ Parses (next result) p value rest := by
  rw [parses_bind]
  constructor
  · rintro ⟨result, middle, ran, parses⟩
    obtain ⟨returns, rfl⟩ := parses_lift.1 ran
    exact ⟨result, returns, parses⟩
  · rintro ⟨result, returns, parses⟩
    exact ⟨result, p, parses_lift.2 ⟨returns, rfl⟩, parses⟩

theorem parses_take_bind {count : Nat} {next : List σ → Parser σ α}
    {value : α} :
    Parses (take count >>= next) p value rest ↔
      ∃ bytes middle, bytes.length = count ∧ p = bytes ++ middle ∧
        Parses (next bytes) middle value rest := by
  simp only [parses_bind, parses_take, and_assoc]

/-! ## Evaluation of one step -/

theorem remaining_bind_eq (next : List σ → Parser σ α) (p : List σ) :
    (remaining >>= next) p = next p p := rfl

theorem bind_parses_eq {first : Parser σ α} (parses : Parses first p value rest)
    (next : α → Parser σ β) : (first >>= next) p = next value rest := by
  show Parser.bind first next p = _
  unfold Parses at parses
  rw [Parser.bind, parses]

theorem bind_fault {first : Parser σ α} {cause : Fault} (faults : first p = .fault cause)
    (next : α → Parser σ β) : (first >>= next) p = .fault cause := by
  show Parser.bind first next p = _
  rw [Parser.bind, faults]

theorem bind_timeout {first : Parser σ α} (runs : first p = .timeout)
    (next : α → Parser σ β) : (first >>= next) p = .timeout := by
  show Parser.bind first next p = _
  rw [Parser.bind, runs]

theorem bind_pure_eq (reader : Parser σ α) : (reader >>= pure) = reader := by
  funext p
  show Parser.bind reader pure p = _
  unfold Parser.bind
  cases reader p with
  | ok parsed =>
      cases parsed with
      | none => rfl
      | some pair => rfl
  | fault cause => rfl
  | timeout => rfl

/-! ## Rejections -/

theorem bind_rejects_first {first : Parser σ α} {next : α → Parser σ β}
    (rejects : first p = .ok none) : (first >>= next) p = .ok none := by
  show Parser.bind first next p = _
  rw [Parser.bind, rejects]

theorem bind_rejects_next {first : Parser σ α} {next : α → Parser σ β} {middle : List σ}
    (parses : Parses first p value middle) (rejects : next value middle = .ok none) :
    (first >>= next) p = .ok none :=
  (bind_parses_eq parses next).trans rejects

theorem not_of_require_rejects {condition : Prop} [Decidable condition]
    (rejects : (require condition : Parser σ Unit) p = .ok none) : ¬ condition := by
  intro holds
  rw [require, if_pos holds] at rejects
  cases rejects

/-- A repetition rejects with the first of its reads that does. -/
theorem many_rejects {reader : Parser σ α} {done count : Nat} {values : List α}
    (fewer : done < count) (parses : Parses (many reader done) p values rest)
    (rejects : reader rest = .ok none) : many reader count p = .ok none := by
  induction done generalizing count p values with
  | zero =>
      obtain ⟨-, rfl⟩ := parses_pure.1 parses
      obtain ⟨others, rfl⟩ := Nat.exists_eq_add_of_lt fewer
      exact bind_rejects_first rejects
  | succ done inductionHypothesis =>
      obtain ⟨others, rfl⟩ := Nat.exists_eq_succ_of_ne_zero (Nat.ne_zero_of_lt fewer)
      rw [many, parses_bind] at parses
      obtain ⟨head, middle, first, following⟩ := parses
      obtain ⟨tail, last, next, finished⟩ := parses_bind.1 following
      obtain ⟨-, rfl⟩ := parses_pure.1 finished
      exact bind_rejects_next first (bind_rejects_first (inductionHypothesis (by omega) next))

/-! ## Values with a default -/

/-- The value that the reader returns, or the default. -/
def valueOr (reader : Parser σ α) (default : α) (p : List σ) : α :=
  match reader p with
  | .ok (some (value, _)) => value
  | _ => default

theorem Parses.valueOr {reader : Parser σ α} (parses : Parses reader p value rest) (default : α) :
    valueOr reader default p = value := by
  unfold Parses at parses
  rw [Parser.valueOr, parses]

theorem valueOr_rejects {reader : Parser σ α} (rejects : reader p = .ok none) (default : α) :
    valueOr reader default p = default := by
  rw [valueOr, rejects]

theorem valueOr_bind {first : Parser σ α} {next : α → Parser σ β}
    (parses : Parses first p value rest) (default : β) :
    valueOr (first >>= next) default p = valueOr (next value) default rest := by
  rw [valueOr, bind_parses_eq parses, valueOr]

theorem valueOr_bind_rejects {first : Parser σ α} (next : α → Parser σ β)
    (rejects : first p = .ok none) (default : β) : valueOr (first >>= next) default p = default :=
  valueOr_rejects (bind_rejects_first rejects) default

/-! ## Relations -/

/-- A relation between what a reader consumes and what it returns. -/
def Reads (reader : Parser σ α) (relation : List σ → α → Prop) : Prop :=
  ∀ p value rest, Parses reader p value rest →
    ∃ raw, p = raw ++ rest ∧ relation raw value

/-- A reader finds each encoding in front of anything. -/
def Accepts (reader : Parser σ α) (encode : α → List σ) (value : α) : Prop :=
  ∀ rest, Parses reader (encode value ++ rest) value rest

theorem parses_many {reader : Parser σ α} {encode : α → List σ} {values : List α}
    (accepts : ∀ value ∈ values, Accepts reader encode value) (rest : List σ) :
    Parses (many reader values.length) (values.flatMap encode ++ rest) values rest := by
  induction values with
  | nil => exact parses_pure.2 ⟨rfl, rfl⟩
  | cons head tail inductionHypothesis =>
      rw [List.length_cons, many, parses_bind]
      refine ⟨head, tail.flatMap encode ++ rest, ?_, ?_⟩
      · rw [List.flatMap_cons, List.append_assoc]
        exact accepts head List.mem_cons_self _
      · rw [parses_bind]
        refine ⟨tail, rest, ?_, parses_pure.2 ⟨rfl, rfl⟩⟩
        exact inductionHypothesis fun value present =>
          accepts value (List.mem_cons_of_mem _ present)

theorem many_length {reader : Parser σ α} {count : Nat} {values : List α}
    (parses : Parses (many reader count) p values rest) : values.length = count := by
  induction count generalizing p values with
  | zero =>
      obtain ⟨rfl, rfl⟩ := parses_pure.1 parses
      rfl
  | succ count inductionHypothesis =>
      rw [many, parses_bind] at parses
      obtain ⟨head, middle, -, others⟩ := parses
      obtain ⟨tail, last, next, done⟩ := parses_bind.1 others
      obtain ⟨rfl, rfl⟩ := parses_pure.1 done
      rw [List.length_cons, inductionHypothesis next]

theorem many_mem {reader : Parser σ α} {count : Nat} {values : List α}
    (parses : Parses (many reader count) p values rest) :
    ∀ value ∈ values, ∃ here there, Parses reader here value there := by
  induction count generalizing p values with
  | zero =>
      obtain ⟨rfl, rfl⟩ := parses_pure.1 parses
      simp
  | succ count inductionHypothesis =>
      rw [many, parses_bind] at parses
      obtain ⟨head, middle, first, others⟩ := parses
      obtain ⟨tail, last, next, done⟩ := parses_bind.1 others
      obtain ⟨rfl, rfl⟩ := parses_pure.1 done
      rw [List.forall_mem_cons]
      exact ⟨⟨p, middle, first⟩, inductionHypothesis next⟩

/-- A counted repetition consumes one chunk for each of its values. -/
theorem many_reads {reader : Parser σ α} {relation : List σ → α → Prop}
    (reads : Reads reader relation) {count : Nat} {values : List α}
    (parses : Parses (many reader count) p values rest) :
    ∃ raws : List (List σ), p = raws.flatten ++ rest ∧ List.Forall₂ relation raws values := by
  induction count generalizing p values with
  | zero =>
      obtain ⟨rfl, rfl⟩ := parses_pure.1 parses
      exact ⟨[], rfl, .nil⟩
  | succ count inductionHypothesis =>
      rw [many, parses_bind] at parses
      obtain ⟨head, middle, first, others⟩ := parses
      rw [parses_bind] at others
      obtain ⟨tail, last, next, done⟩ := others
      obtain ⟨rfl, rfl⟩ := parses_pure.1 done
      obtain ⟨raw, rfl, related⟩ := reads _ _ _ first
      obtain ⟨raws, rfl, relatedTail⟩ := inductionHypothesis next
      refine ⟨raw :: raws, ?_, .cons related relatedTail⟩
      rw [List.flatten_cons, List.append_assoc]

/-- A reader accepts exactly the encodings of valid values, whatever follows them. -/
def Codes (reader : Parser σ α) (encode : α → List σ) (Valid : α → Prop) : Prop :=
  ∀ p value rest, Parses reader p value rest ↔ Valid value ∧ p = encode value ++ rest

theorem Codes.bind {reader : Parser σ α} {encode : α → List σ} {Valid : α → Prop}
    (codes : Codes reader encode Valid) {next : α → Parser σ β} :
    Parses (reader >>= next) p result rest ↔
      ∃ value middle, Valid value ∧ p = encode value ++ middle ∧
        Parses (next value) middle result rest := by
  simp only [parses_bind, codes _ _ _, and_assoc]

theorem Codes.reads {reader : Parser σ α} {encode : α → List σ} {Valid : α → Prop}
    (codes : Codes reader encode Valid) :
    Reads reader fun raw value => Valid value ∧ raw = encode value := by
  intro p value rest parses
  obtain ⟨valid, parts⟩ := (codes p value rest).1 parses
  exact ⟨encode value, parts, valid, rfl⟩

theorem Codes.many {reader : Parser σ α} {encode : α → List σ} {Valid : α → Prop}
    (codes : Codes reader encode Valid) {count : Nat} {values : List α} :
    Parses (Parser.many reader count) p values rest ↔
      values.length = count ∧ (∀ value ∈ values, Valid value) ∧
        p = values.flatMap encode ++ rest := by
  constructor
  · intro parses
    obtain ⟨raws, parts, related⟩ := many_reads codes.reads parses
    obtain ⟨valid, encoded⟩ := (List.forall₂_and_left _ _).1 related.flip
    have flattened : raws = values.map encode := by
      rw [← List.forall₂_eq_eq_eq, List.forall₂_map_right_iff]
      exact encoded.flip
    refine ⟨many_length parses, valid, ?_⟩
    rw [parts, flattened, List.flatMap_def]
  · rintro ⟨rfl, valid, rfl⟩
    exact parses_many (fun value present rest =>
      (codes _ value rest).2 ⟨valid value present, rfl⟩) rest

/-- A buffer is read in one way. -/
theorem Parses.unique {reader : Parser σ α} {other : α} {otherRest : List σ}
    (first : Parses reader p value rest) (second : Parses reader p other otherRest) :
    value = other ∧ rest = otherRest := by
  unfold Parses at first second
  rw [first] at second
  cases second
  exact ⟨rfl, rfl⟩

end Parser

end BitcoinClib.Lib
