import BitcoinClib.Lib.Ledger
import BitcoinClib.Lib.Parser

/-!
Contract: readers that fill an object in place and may stop half-way.

Owns:
- `Attempt`, a reader whose state stays when it rejects, and its primitive steps;
- `Workspace`, an object with the ledger of the heap, and how an array is filled slot by slot;
- `Tracks`, that an attempt does what a `Parser` does, with a rule for each step;
- `Builds`, that an attempt fills a zeroed object and that the object owns what was allocated,
  with the rule for arrays.

Does not own: any wire format, or how an object is released.
-/

namespace BitcoinClib.Lib

/-- A reader that updates a state: a fault, or the state with a rejection (`none`) or a value
and what is left of the buffer. -/
def Attempt (S σ α : Type) := S → List σ → Exec (S × Option (α × List σ))

/-- An object, and the ledger of the heap it points into. -/
structure Workspace (T : Type) where
  object : T
  ledger : Ledger
deriving DecidableEq

/-- Clean the object of a workspace. -/
def Workspace.clean {T : Type} (cleanup : T → Ledger → Exec (T × Ledger)) (space : Workspace T) :
    Exec (Workspace T) := do
  let (object, ledger) ← cleanup space.object space.ledger
  .ok ⟨object, ledger⟩

namespace Attempt

open Ledger

variable {S T σ α β γ : Type}

protected def pure (value : α) : Attempt S σ α := fun state p => .ok (state, some (value, p))

protected def bind (first : Attempt S σ α) (next : α → Attempt S σ β) : Attempt S σ β :=
  fun state p =>
    match first state p with
    | .ok (state, some (value, rest)) => next value state rest
    | .ok (state, none) => .ok (state, none)
    | .fault cause => .fault cause
    | .timeout => .timeout

instance : Monad (Attempt S σ) where
  pure := Attempt.pure
  bind := Attempt.bind

/-- Read without touching the state. -/
def read (reader : Parser σ α) : Attempt S σ α := fun state p => do
  let outcome ← reader p
  .ok (state, outcome)

/-- The state. -/
def current : Attempt S σ S := fun state p => .ok (state, some (state, p))

/-- Update the state. -/
def modify (update : S → S) : Attempt S σ Unit := fun state p => .ok (update state, some ((), p))

/-- `goto label_error`: after a rejection the state is cleaned. -/
def cleaning (cleanup : S → Exec S) (attempt : Attempt S σ α) : Attempt S σ α := fun state p =>
  match attempt state p with
  | .ok (state, none) => do
      let state ← cleanup state
      .ok (state, none)
  | outcome => outcome

/-! ## Workspaces -/

/-- Write fields of the object. -/
def write (update : T → T) : Attempt (Workspace T) σ Unit :=
  modify fun space => { space with object := update space.object }

/-- Allocate a block with these contents and store the pointer. -/
def allocate (content : β) (store : Owned β → T → T) : Attempt (Workspace T) σ Unit :=
  modify fun space =>
    let (owned, ledger) := space.ledger.malloc content
    ⟨store owned space.object, ledger⟩

/-- Fill one slot after the other. -/
def eachSlot (entry : Attempt (Workspace α) σ Unit) :
    List α → Ledger → List σ → Exec (Workspace (List α) × Option (Unit × List σ))
  | [], ledger, p => .ok (⟨[], ledger⟩, some ((), p))
  | slot :: slots, ledger, p => do
      let (space, outcome) ← entry ⟨slot, ledger⟩ p
      match outcome with
      | none => .ok (⟨space.object :: slots, space.ledger⟩, none)
      | some ((), p) => do
          let (others, outcome) ← eachSlot entry slots space.ledger p
          .ok (⟨space.object :: others.object, others.ledger⟩, outcome)

def each (entry : Attempt (Workspace α) σ Unit) : Attempt (Workspace (List α)) σ Unit :=
  fun slots p => eachSlot entry slots.object slots.ledger p

/-- Allocate an array of zeroed slots and store the pointer. -/
def calloc (zero : α) (count : Nat) (store : Owned (List α) → T → T) :
    Attempt (Workspace T) σ (Owned (List α)) := fun space p =>
  let (owned, ledger) := space.ledger.malloc (List.replicate count zero)
  .ok (⟨store owned space.object, ledger⟩, some (owned, p))

/-- Fill the slots of a stored array. -/
def fill (array : Owned (List α)) (store : Owned (List α) → T → T)
    (entry : Attempt (Workspace α) σ Unit) : Attempt (Workspace T) σ Unit := fun space p => do
  let (slots, outcome) ← each entry ⟨array.content, space.ledger⟩ p
  .ok (⟨store ⟨array.block, slots.object⟩ space.object, slots.ledger⟩, outcome)

/-! ## Evaluation of one step -/

theorem read_bind_eq {reader : Parser σ α} {p rest : List σ} {value : α}
    (parses : Parser.Parses reader p value rest) (next : α → Attempt S σ β) (state : S) :
    (read reader >>= next) state p = next value state rest := by
  unfold Parser.Parses at parses
  show Attempt.bind (read reader) next state p = _
  rw [Attempt.bind, read, parses]
  rfl

theorem cleaning_congr {cleanup : S → Exec S} {attempt : Attempt S σ α} {state other : S}
    {p : List σ} (same : attempt state p = attempt other p) :
    cleaning cleanup attempt state p = cleaning cleanup attempt other p := by
  rw [cleaning, cleaning, same]

/-! ## Tracking -/

/-- At this state and position the attempt does what the reader does. -/
def Tracks (attempt : Attempt S σ α) (reader : Parser σ β) (state : S) (p : List σ)
    (Done : S → α → β → List σ → Prop) (Rejected : S → Prop) : Prop :=
  match reader p with
  | .ok (some (value, rest)) => ∃ after result,
      attempt state p = .ok (after, some (result, rest)) ∧ Done after result value rest
  | .ok none => ∃ after, attempt state p = .ok (after, none) ∧ Rejected after
  | .fault cause => attempt state p = .fault cause
  | .timeout => attempt state p = .timeout

variable {attempt : Attempt S σ α} {reader : Parser σ β} {state : S} {p : List σ}
  {Done : S → α → β → List σ → Prop} {Rejected : S → Prop}

theorem tracks_pure {result : α} {value : β} (done : Done state result value p) :
    Tracks (pure result) (pure value) state p Done Rejected :=
  ⟨state, result, rfl, done⟩

theorem Tracks.mono {Done' : S → α → β → List σ → Prop} {Rejected' : S → Prop}
    (tracks : Tracks attempt reader state p Done Rejected)
    (done : ∀ after result value rest, Parser.Parses reader p value rest →
      Done after result value rest → Done' after result value rest)
    (rejected : reader p = .ok none → ∀ after, Rejected after → Rejected' after) :
    Tracks attempt reader state p Done' Rejected' := by
  unfold Tracks at tracks ⊢
  cases outcome : reader p with
  | ok parsed =>
      rw [outcome] at tracks
      cases parsed with
      | none =>
          obtain ⟨after, returns, left⟩ := tracks
          exact ⟨after, returns, rejected outcome after left⟩
      | some pair =>
          obtain ⟨after, result, returns, holds⟩ := tracks
          exact ⟨after, result, returns, done after result pair.1 pair.2 outcome holds⟩
  | fault cause =>
      rw [outcome] at tracks
      exact tracks
  | timeout =>
      rw [outcome] at tracks
      exact tracks

theorem tracks_write {space : Workspace T} {update : T → T} {value : β}
    {Done : Workspace T → Unit → β → List σ → Prop} {Rejected : Workspace T → Prop}
    (done : Done ⟨update space.object, space.ledger⟩ () value p) :
    Tracks (write update) (pure value) space p Done Rejected := ⟨_, (), rfl, done⟩

/-- Sequences track each other part by part. -/
theorem Tracks.bind {α' β' : Type} {next : α → Attempt S σ α'} {next' : β → Parser σ β'}
    {Final : S → α' → β' → List σ → Prop} {Left : S → Prop}
    (first : Tracks attempt reader state p Done Rejected)
    (rejected : reader p = .ok none → ∀ after, Rejected after → Left after)
    (second : ∀ after result value rest, Parser.Parses reader p value rest →
      Done after result value rest → Tracks (next result) (next' value) after rest Final Left) :
    Tracks (attempt >>= next) (reader >>= next') state p Final Left := by
  unfold Tracks at first ⊢
  show match Parser.bind reader next' p with
    | .ok (some (value, rest)) => ∃ after result,
        Attempt.bind attempt next state p = .ok (after, some (result, rest)) ∧
          Final after result value rest
    | .ok none => ∃ after, Attempt.bind attempt next state p = .ok (after, none) ∧ Left after
    | .fault cause => Attempt.bind attempt next state p = .fault cause
    | .timeout => Attempt.bind attempt next state p = .timeout
  unfold Parser.bind Attempt.bind
  cases outcome : reader p with
  | ok parsed =>
      rw [outcome] at first
      cases parsed with
      | none =>
          obtain ⟨after, returns, left⟩ := first
          rw [returns]
          exact ⟨after, rfl, rejected outcome after left⟩
      | some pair =>
          obtain ⟨after, result, returns, holds⟩ := first
          rw [returns]
          exact second after result pair.1 pair.2 outcome holds
  | fault cause =>
      rw [outcome] at first
      rw [first]
  | timeout =>
      rw [outcome] at first
      rw [first]

theorem bind_pure_eq (attempt : Attempt S σ α) : (attempt >>= pure) = attempt := by
  funext state p
  show Attempt.bind attempt pure state p = _
  unfold Attempt.bind
  cases attempt state p with
  | ok outcome =>
      obtain ⟨after, parsed⟩ := outcome
      cases parsed with
      | none => rfl
      | some pair => rfl
  | fault cause => rfl
  | timeout => rfl

/-- The attempt goes on after the last step of the reader. -/
theorem Tracks.attempt_bind {α' : Type} {next : α → Attempt S σ α'}
    {Final : S → α' → β → List σ → Prop}
    (first : Tracks attempt reader state p Done Rejected)
    (second : ∀ after result value rest, Parser.Parses reader p value rest →
      Done after result value rest → Tracks (next result) (pure value) after rest Final Rejected) :
    Tracks (attempt >>= next) reader state p Final Rejected := by
  have both : Tracks (attempt >>= next) (reader >>= pure) state p Final Rejected :=
    first.bind (fun _ _ left => left) second
  rw [Parser.bind_pure_eq] at both
  exact both

/-- The reader goes on after the last step of the attempt. -/
theorem Tracks.reader_bind {β' : Type} {next' : β → Parser σ β'}
    {Final : S → α → β' → List σ → Prop}
    (first : Tracks attempt reader state p Done Rejected)
    (second : ∀ after result value rest, Parser.Parses reader p value rest →
      Done after result value rest → Tracks (pure result) (next' value) after rest Final Rejected) :
    Tracks attempt (reader >>= next') state p Final Rejected := by
  have both : Tracks (attempt >>= pure) (reader >>= next') state p Final Rejected :=
    first.bind (fun _ _ left => left) second
  rw [bind_pure_eq] at both
  exact both

/-- Both read the same. -/
theorem tracks_read {reader : Parser σ α} :
    Tracks (read reader) reader state p
      (fun after result value _ => after = state ∧ result = value) (· = state) := by
  unfold Tracks read
  cases reader p with
  | ok parsed =>
      cases parsed with
      | none => exact ⟨state, rfl, rfl⟩
      | some pair => exact ⟨state, pair.1, rfl, rfl, rfl⟩
  | fault cause => rfl
  | timeout => rfl

theorem Tracks.read_bind {reader : Parser σ γ} {next : γ → Attempt S σ α}
    {next' : γ → Parser σ β} (rejected : reader p = .ok none → Rejected state)
    (second : ∀ value rest, Parser.Parses reader p value rest →
      Tracks (next value) (next' value) state rest Done Rejected) :
    Tracks (read reader >>= next) (reader >>= next') state p Done Rejected := by
  apply tracks_read.bind
  · intro rejects after same
    rw [same]
    exact rejected rejects
  · intro after result value rest parses same
    obtain ⟨rfl, rfl⟩ := same
    exact second result rest parses

/-- The last step of the reader. -/
theorem Tracks.read_last {reader : Parser σ β} {next : β → Attempt S σ α}
    (rejected : reader p = .ok none → Rejected state)
    (second : ∀ value rest, Parser.Parses reader p value rest →
      Tracks (next value) (pure value) state rest Done Rejected) :
    Tracks (read reader >>= next) reader state p Done Rejected := by
  have both : Tracks (read reader >>= next) (reader >>= pure) state p Done Rejected :=
    Tracks.read_bind rejected second
  rw [Parser.bind_pure_eq] at both
  exact both

/-- The last step of the attempt. -/
theorem Tracks.read_done {reader : Parser σ α} {next' : α → Parser σ β}
    (rejected : reader p = .ok none → Rejected state)
    (second : ∀ value rest, Parser.Parses reader p value rest →
      Tracks (pure value) (next' value) state rest Done Rejected) :
    Tracks (read reader) (reader >>= next') state p Done Rejected := by
  have both : Tracks (read reader >>= pure) (reader >>= next') state p Done Rejected :=
    Tracks.read_bind rejected second
  rw [bind_pure_eq] at both
  exact both

/-- Only the run matters. -/
theorem Tracks.of_run {other : Attempt S σ α} {otherState : S}
    (same : attempt state p = other otherState p)
    (tracks : Tracks other reader otherState p Done Rejected) :
    Tracks attempt reader state p Done Rejected := by
  unfold Tracks
  rw [same]
  exact tracks

/-! ### Steps of one side -/

section Steps

variable {space : Workspace T} {DoneW : Workspace T → α → β → List σ → Prop}
  {RejectedW : Workspace T → Prop} {attemptW : Unit → Attempt (Workspace T) σ α}

theorem Tracks.write_bind {update : T → T}
    (second : Tracks (attemptW ()) reader ⟨update space.object, space.ledger⟩ p DoneW RejectedW) :
    Tracks (write update >>= attemptW) reader space p DoneW RejectedW := second

theorem Tracks.allocate_bind {content : γ} {store : Owned γ → T → T}
    (second : Tracks (attemptW ()) reader
      ⟨store ⟨space.ledger.next, content⟩ space.object, (space.ledger.malloc content).2⟩ p
      DoneW RejectedW) :
    Tracks (allocate content store >>= attemptW) reader space p DoneW RejectedW := second

theorem Tracks.calloc_bind {slot : γ} {count : Nat} {store : Owned (List γ) → T → T}
    {next : Owned (List γ) → Attempt (Workspace T) σ α}
    (second : Tracks (next ⟨space.ledger.next, List.replicate count slot⟩) reader
      ⟨store ⟨space.ledger.next, List.replicate count slot⟩ space.object,
        (space.ledger.malloc (List.replicate count slot)).2⟩ p DoneW RejectedW) :
    Tracks (calloc slot count store >>= next) reader space p DoneW RejectedW := second

end Steps

theorem Tracks.current_bind {next : S → Attempt S σ α}
    (second : Tracks (next state) reader state p Done Rejected) :
    Tracks (current >>= next) reader state p Done Rejected := second

theorem Tracks.position_bind {next : List σ → Attempt S σ α}
    (second : Tracks (next p) reader state p Done Rejected) :
    Tracks (read Parser.remaining >>= next) reader state p Done Rejected := second

theorem Tracks.lift_bind {run : Exec γ} {value : γ} {next : γ → Attempt S σ α}
    (returns : run = .ok value) (second : Tracks (next value) reader state p Done Rejected) :
    Tracks (read (Parser.lift run) >>= next) reader state p Done Rejected := by
  rw [returns]
  exact second

theorem Tracks.remaining_bind {next : List σ → Parser σ β}
    (second : Tracks attempt (next p) state p Done Rejected) :
    Tracks attempt (Parser.remaining >>= next) state p Done Rejected := second

/-- A rejection is tracked when the cleanup returns. -/
theorem Tracks.cleaning {cleanup : S → Exec S} {Left : S → Prop}
    (tracks : Tracks attempt reader state p Done Rejected)
    (cleans : reader p = .ok none → ∀ after, Rejected after →
      ∃ last, cleanup after = .ok last ∧ Left last) :
    Tracks (cleaning cleanup attempt) reader state p Done Left := by
  unfold Tracks Attempt.cleaning at *
  cases outcome : reader p with
  | ok parsed =>
      rw [outcome] at tracks
      cases parsed with
      | none =>
          obtain ⟨after, returns, rejected⟩ := tracks
          obtain ⟨last, cleaned, left⟩ := cleans outcome after rejected
          rw [returns]
          dsimp only
          rw [cleaned]
          exact ⟨last, rfl, left⟩
      | some pair =>
          obtain ⟨after, result, returns, done⟩ := tracks
          rw [returns]
          exact ⟨after, result, rfl, done⟩
  | fault cause =>
      rw [outcome] at tracks
      rw [tracks]
  | timeout =>
      rw [outcome] at tracks
      rw [tracks]

/-! ## Building -/

/-- The object owns its blocks next to others that are live, and is fit to be cleaned. -/
structure Holds (blocks : T → Multiset Nat) (Proper : T → Prop) (others : Multiset Nat)
    (space : Workspace T) : Prop where
  live : space.ledger.live = blocks space.object + others
  proper : Proper space.object

/-- Cleaning releases what the object owns. -/
theorem Holds.clean {blocks : T → Multiset Nat} {Proper : T → Prop} {others : Multiset Nat}
    {space : Workspace T} {cleanup : T → Ledger → Exec (T × Ledger)} {after : T}
    (holds : Holds blocks Proper others space)
    (releases : Releases cleanup space.object after (blocks space.object)) :
    space.clean cleanup = .ok ⟨after, ⟨others, space.ledger.next⟩⟩ := by
  have cleans := releases others space.ledger.next
  rw [← holds.live] at cleans
  rw [Workspace.clean, cleans]
  rfl

/-- The attempt reads a value into a zeroed object, which owns what was allocated. -/
def Builds (entry : Attempt (Workspace T) σ Unit) (reader : Parser σ β) (zero : T)
    (blocks : T → Multiset Nat) (Proper : T → Prop) (view : T → β) : Prop :=
  ∀ ledger p, Tracks entry reader ⟨zero, ledger⟩ p
    (fun after _ value _ => Holds blocks Proper ledger.live after ∧ view after.object = value)
    (Holds blocks Proper ledger.live)

/-- The slots of an array. -/
structure ProperSlots (Proper : T → Prop) (count : Nat) (slots : List T) : Prop where
  length : slots.length = count
  proper : ∀ slot ∈ slots, Proper slot

variable {entry : Attempt (Workspace T) σ Unit} {item : Parser σ β} {zero : T}
  {blocks : T → Multiset Nat} {Proper : T → Prop} {view : T → β}

/-- A slot in front of others. -/
theorem Holds.cons {others : Multiset Nat} {count : Nat} {head : Workspace T}
    {tail : Workspace (List T)} (first : Holds blocks Proper others head)
    (rest : Holds (slotBlocks blocks) (ProperSlots Proper count) head.ledger.live tail) :
    Holds (slotBlocks blocks) (ProperSlots Proper (count + 1)) others
      ⟨head.object :: tail.object, tail.ledger⟩ where
  live := by
    rw [rest.live, first.live, slotBlocks_cons]
    abel
  proper := ⟨congrArg Nat.succ rest.proper.length,
    List.forall_mem_cons.2 ⟨first.proper, rest.proper.proper⟩⟩

theorem holds_replicate (zeroBlocks : blocks zero = 0) (zeroProper : Proper zero) (count : Nat)
    (ledger : Ledger) : Holds (slotBlocks blocks) (ProperSlots Proper count) ledger.live
      ⟨List.replicate count zero, ledger⟩ where
  live := by rw [slotBlocks_replicate zeroBlocks, zero_add]
  proper := by
    refine ⟨List.length_replicate, fun slot inside => ?_⟩
    rw [List.eq_of_mem_replicate inside]
    exact zeroProper

/-- The slots of a zeroed array are filled in order. -/
theorem Builds.each (builds : Builds entry item zero blocks Proper view)
    (zeroBlocks : blocks zero = 0) (zeroProper : Proper zero) (count : Nat) :
    Builds (each entry) (Parser.many item count) (List.replicate count zero)
      (slotBlocks blocks) (ProperSlots Proper count) (List.map view) := by
  induction count with
  | zero =>
      intro ledger p
      exact ⟨_, (), rfl, holds_replicate zeroBlocks zeroProper 0 ledger, rfl⟩
  | succ count inductionHypothesis =>
      intro ledger p
      have first := builds ledger p
      unfold Tracks at first ⊢
      rw [List.replicate_succ, Attempt.each]
      dsimp only
      rw [eachSlot]
      cases outcome : item p with
      | ok parsed =>
          rw [outcome] at first
          cases parsed with
          | none =>
              obtain ⟨head, returns, holds⟩ := first
              rw [Parser.many, Parser.bind_rejects_first outcome, returns]
              exact ⟨_, rfl, holds.cons (holds_replicate zeroBlocks zeroProper count head.ledger)⟩
          | some pair =>
              obtain ⟨head, done, returns, holds, shows⟩ := first
              have rest := inductionHypothesis head.ledger pair.2
              unfold Tracks Attempt.each at rest
              rw [Parser.many, Parser.bind_parses_eq outcome, returns, Exec.ok_bind]
              dsimp only at rest ⊢
              cases others : Parser.many item count pair.2 with
              | ok parsed =>
                  rw [others] at rest
                  cases parsed with
                  | none =>
                      obtain ⟨tail, continues, held⟩ := rest
                      rw [Parser.bind_rejects_first others, continues]
                      exact ⟨_, rfl, holds.cons held⟩
                  | some last =>
                      obtain ⟨tail, finished, continues, held, same⟩ := rest
                      rw [Parser.bind_parses_eq others, continues]
                      refine ⟨_, finished, rfl, holds.cons held, ?_⟩
                      rw [List.map_cons, shows, same]
              | fault cause =>
                  rw [others] at rest
                  rw [Parser.bind_fault others, rest]
                  rfl
              | timeout =>
                  rw [others] at rest
                  rw [Parser.bind_timeout others, rest]
                  rfl
      | fault cause =>
          rw [outcome] at first
          rw [Parser.many, Parser.bind_fault outcome, first]
          rfl
      | timeout =>
          rw [outcome] at first
          rw [Parser.many, Parser.bind_timeout outcome, first]
          rfl

/-- The slots of an array were stored, and are fit to be cleaned. -/
structure Filled {R : Type} (blocks : T → Multiset Nat) (Proper : T → Prop)
    (array : Owned (List T)) (store : Owned (List T) → R → R) (before after : Workspace R)
    (slots : List T) : Prop where
  object : after.object = store ⟨array.block, slots⟩ before.object
  live : after.ledger.live = slotBlocks blocks slots + before.ledger.live
  proper : ProperSlots Proper array.content.length slots

/-- A zeroed array is filled behind its pointer. -/
theorem Builds.fill {R : Type} (builds : Builds entry item zero blocks Proper view)
    (zeroBlocks : blocks zero = 0) (zeroProper : Proper zero) (count : Nat) (block : Nat)
    (store : Owned (List T) → R → R) (space : Workspace R) (p : List σ) :
    Tracks (fill ⟨block, List.replicate count zero⟩ store entry) (Parser.many item count) space p
      (fun after _ values _ => ∃ slots,
        Filled blocks Proper ⟨block, List.replicate count zero⟩ store space after slots ∧
          slots.map view = values)
      (fun after => ∃ slots,
        Filled blocks Proper ⟨block, List.replicate count zero⟩ store space after slots) := by
  have filled := builds.each zeroBlocks zeroProper count space.ledger p
  have stored : ∀ slots : Workspace (List T),
      Holds (slotBlocks blocks) (ProperSlots Proper count) space.ledger.live slots →
      Filled blocks Proper ⟨block, List.replicate count zero⟩ store space
        ⟨store ⟨block, slots.object⟩ space.object, slots.ledger⟩ slots.object := by
    intro slots holds
    refine ⟨rfl, holds.live, ?_⟩
    rw [List.length_replicate]
    exact holds.proper
  unfold Tracks at filled ⊢
  rw [Attempt.fill]
  cases outcome : Parser.many item count p with
  | ok parsed =>
      rw [outcome] at filled
      cases parsed with
      | none =>
          obtain ⟨slots, returns, holds⟩ := filled
          rw [returns]
          exact ⟨_, rfl, _, stored slots holds⟩
      | some pair =>
          obtain ⟨slots, done, returns, holds, shows⟩ := filled
          rw [returns]
          exact ⟨_, done, rfl, _, stored slots holds, shows⟩
  | fault cause =>
      rw [outcome] at filled
      rw [filled]
      rfl
  | timeout =>
      rw [outcome] at filled
      rw [filled]
      rfl

end Attempt

end BitcoinClib.Lib
