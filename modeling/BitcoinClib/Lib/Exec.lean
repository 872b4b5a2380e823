import Mathlib.Order.Basic
import Mathlib.Order.Lattice

/-!
Contract: outcomes of C-like code with defensive checks and pointer loops.

Owns:
- `Exec`, the outcome of a computation that may stop at a failing check, may
  reach undefined behaviour, or may still be running when its fuel is spent;
- inversion of the monadic operations (`bind_eq_ok`);
- `Returns`, that a run ends with a value, part by part (`returns_bind`);
- `Converges`, the fuel-free statement that a loop returns, and its
  composition rules.

Does not own: any particular program, memory layout, or cost statement.
-/

namespace BitcoinClib.Lib

universe u v

/-- Why a run stopped without returning. -/
inductive Fault where
  /-- a failing `assert` or an explicit `abort()` -/
  | assertion
  /-- a NULL, dangling or mistyped pointer is followed -/
  | pointer
  /-- memory that was never allocated by `malloc` is released -/
  | invalidFree
  /-- an array or object is accessed outside its bounds -/
  | bounds
  /-- memory is read before it was written -/
  | uninitialised
  /-- a signed integer leaves its range -/
  | overflow
deriving DecidableEq, Repr

/-- Outcome of a fuelled run. -/
inductive Exec (α : Type u) where
  | ok (value : α)
  | fault (cause : Fault)
  | timeout
deriving DecidableEq, Repr

namespace Exec

variable {α : Type u} {β : Type v}

/-- Sequencing: only a returned value is passed on. -/
protected def bind (run : Exec α) (next : α → Exec β) : Exec β :=
  match run with
  | .ok value => next value
  | .fault cause => .fault cause
  | .timeout => .timeout

instance : Monad Exec.{u} where
  pure := .ok
  bind := Exec.bind

@[simp] theorem pure_eq (value : α) : (pure value : Exec α) = .ok value := rfl

@[simp] theorem ok_bind {β : Type u} (value : α) (next : α → Exec β) :
    (Exec.ok value >>= next) = next value := rfl

@[simp] theorem fault_bind {β : Type u} (cause : Fault) (next : α → Exec β) :
    ((Exec.fault cause : Exec α) >>= next) = .fault cause := rfl

@[simp] theorem timeout_bind {β : Type u} (next : α → Exec β) :
    ((Exec.timeout : Exec α) >>= next) = .timeout := rfl

instance : LawfulMonad Exec.{u} := LawfulMonad.mk' Exec
  (fun run => by cases run <;> rfl) (fun _ _ => rfl) (fun run _ _ => by cases run <;> rfl)

/-- A sequence returns exactly when both of its parts do. -/
theorem bind_eq_ok {β : Type u} {run : Exec α} {next : α → Exec β} {result : β} :
    (run >>= next) = .ok result ↔ ∃ value, run = .ok value ∧ next value = .ok result := by
  cases run with
  | ok value => simp
  | fault cause => simp
  | timeout => simp

/-- Sequences are equal part by part. -/
theorem bind_congr_of {β : Type u} {run run' : Exec α} {next next' : α → Exec β}
    (first : run = run') (second : ∀ value, next value = next' value) :
    (run >>= next) = (run' >>= next') := by
  rw [first, funext second]

/-- A defensive check. -/
def assert (condition : Prop) [Decidable condition] : Exec Unit :=
  if condition then .ok () else .fault .assertion

theorem assert_of {condition : Prop} [Decidable condition] (holds : condition) :
    assert condition = .ok () := if_pos holds

theorem assert_of_not {condition : Prop} [Decidable condition] (fails : ¬ condition) :
    assert condition = .fault .assertion := if_neg fails

@[simp] theorem assert_eq_ok {condition : Prop} [Decidable condition] {done : Unit} :
    assert condition = .ok done ↔ condition := by
  unfold assert
  split <;> simp [*]

/-- Follow a pointer that may be NULL. -/
def deref (pointer : Option α) : Exec α :=
  match pointer with
  | some target => .ok target
  | none => .fault .pointer

@[simp] theorem deref_some (target : α) : deref (some target) = .ok target := rfl

@[simp] theorem deref_none : deref (none : Option α) = .fault .pointer := rfl

@[simp] theorem deref_eq_ok {pointer : Option α} {target : α} :
    deref pointer = .ok target ↔ pointer = some target := by
  cases pointer <;> simp [deref]

/-! ## Returning runs -/

/-- The run neither stops at a fault nor runs out of fuel. -/
def Returns (run : Exec α) : Prop := ∃ value, run = .ok value

@[simp] theorem returns_ok (value : α) : (Exec.ok value).Returns := ⟨value, rfl⟩

@[simp] theorem not_returns_fault (cause : Fault) : ¬ (Exec.fault cause : Exec α).Returns := by
  intro returns
  obtain ⟨value, same⟩ := returns
  cases same

theorem returns_bind {β : Type u} {run : Exec α} {next : α → Exec β} :
    (run >>= next).Returns ↔ ∃ value, run = .ok value ∧ (next value).Returns := by
  constructor
  · intro returns
    obtain ⟨result, same⟩ := returns
    obtain ⟨value, first, second⟩ := bind_eq_ok.1 same
    exact ⟨value, first, result, second⟩
  · intro returns
    obtain ⟨value, first, result, second⟩ := returns
    exact ⟨result, bind_eq_ok.2 ⟨value, first, second⟩⟩

/-- What follows matters only when it can stop. -/
theorem returns_bind_iff {β : Type u} {run : Exec α} {next : α → Exec β}
    (total : ∀ value, run = .ok value → (next value).Returns) :
    (run >>= next).Returns ↔ run.Returns := by
  rw [returns_bind]
  constructor
  · intro returns
    obtain ⟨value, same, -⟩ := returns
    exact ⟨value, same⟩
  · intro returns
    obtain ⟨value, same⟩ := returns
    exact ⟨value, same, total value same⟩

/-! ## Fuel -/

/-- With enough fuel the run returns `value`. -/
def Converges (run : Nat → Exec α) (value : α) : Prop :=
  ∃ bound, ∀ fuel, bound ≤ fuel → run fuel = .ok value

/-- A fuelled run has at most one result. -/
theorem Converges.unique {run : Nat → Exec α} {first second : α}
    (left : Converges run first) (right : Converges run second) : first = second := by
  obtain ⟨leftBound, leftReturns⟩ := left
  obtain ⟨rightBound, rightReturns⟩ := right
  have both : (Exec.ok first : Exec α) = .ok second := by
    rw [← leftReturns (max leftBound rightBound) (le_max_left _ _),
      ← rightReturns (max leftBound rightBound) (le_max_right _ _)]
  exact Exec.ok.inj both

/-- A run that spends one unit of fuel before it goes on. -/
theorem Converges.of_succ {run rest : Nat → Exec α} {value : α}
    (step : ∀ fuel, run (fuel + 1) = rest fuel) (converges : Converges rest value) :
    Converges run value := by
  obtain ⟨bound, returns⟩ := converges
  refine ⟨bound + 1, fun fuel enough => ?_⟩
  cases fuel with
  | zero => exact absurd enough (Nat.not_succ_le_zero bound)
  | succ fuel => exact (step fuel).trans (returns fuel (Nat.le_of_succ_le_succ enough))

/-- Both parts of a sequence draw on the same fuel. -/
theorem Converges.bind {β : Type u} {value : α} {result : β} {run : Nat → Exec α}
    {next : α → Nat → Exec β} (first : Converges run value)
    (second : Converges (next value) result) :
    Converges (fun fuel => run fuel >>= fun value => next value fuel) result := by
  obtain ⟨firstBound, firstReturns⟩ := first
  obtain ⟨secondBound, secondReturns⟩ := second
  refine ⟨max firstBound secondBound, fun fuel enough => ?_⟩
  show (run fuel >>= fun value => next value fuel) = .ok result
  rw [firstReturns fuel (le_trans (le_max_left _ _) enough), ok_bind,
    secondReturns fuel (le_trans (le_max_right _ _) enough)]

end Exec

end BitcoinClib.Lib
