import Mathlib.Data.List.Basic

/-!
Contract: buffers from whose front complete frames are served one after the other.

Owns:
- `Frames`, how a complete frame is recognised in front of a buffer;
- `drain`, which serves frames until one is incomplete or is refused;
- `drain_append_running` and `drain_append_stopped`: bytes that arrive later change neither
  what was served nor where it stopped.

Does not own: any buffer management or message format.
-/

namespace BitcoinClib.Lib

/-- Recognition of a complete frame; what stands behind a frame does not matter. -/
structure Frames (β : Type) where
  size : List β → Option Nat
  size_pos : ∀ {p n}, size p = some n → 0 < n
  size_le : ∀ {p n}, size p = some n → n ≤ p.length
  size_append : ∀ {p n} (q : List β), size p = some n → size (p ++ q) = some n
  size_take : ∀ {p n}, size p = some n → size (p.take n) = some n

/-- What becomes of a frame and of the frames behind it. -/
inductive Verdict (σ : Type) where
  /-- the frame is consumed, the next one is served -/
  | proceed (state : σ)
  /-- serving stops in front of the frame -/
  | refuse (state : σ)
  /-- serving stops behind the frame -/
  | finish (state : σ)

/-- The state afterwards, what stays buffered, and when serving has stopped what stands behind
the last frame. -/
structure Drained (σ β : Type) where
  running : Bool
  state : σ
  buffered : List β
  behind : List β

namespace Frames

variable {σ β : Type} (frames : Frames β) (serve : σ → List β → Verdict σ)

/-- At most `fuel` frames. -/
def drainWith : Nat → σ → List β → Drained σ β
  | 0, state, p => ⟨true, state, p, []⟩
  | fuel + 1, state, p =>
      match frames.size p with
      | none => ⟨true, state, p, []⟩
      | some n =>
          match serve state (p.take n) with
          | .proceed state => drainWith fuel state (p.drop n)
          | .refuse state => ⟨false, state, p.take n, p.drop n⟩
          | .finish state => ⟨false, state, [], p.drop n⟩

/-- All complete frames. -/
def drain (state : σ) (p : List β) : Drained σ β := drainWith frames serve p.length state p

variable {frames serve}

theorem size_nil : frames.size [] = none := by
  cases found : frames.size [] with
  | none => rfl
  | some n =>
      have positive := frames.size_pos found
      have bounded := frames.size_le found
      rw [List.length_nil] at bounded
      omega

theorem drop_length {p : List β} {n : Nat} (found : frames.size p = some n) :
    (p.drop n).length < p.length := by
  have positive := frames.size_pos found
  have bounded := frames.size_le found
  rw [List.length_drop]
  omega

/-- More fuel than entries changes nothing. -/
theorem drainWith_eq {fuel : Nat} {state : σ} {p : List β} (enough : p.length ≤ fuel) :
    drainWith frames serve fuel state p = drain frames serve state p := by
  induction fuel using Nat.strongRecOn generalizing state p with
  | ind fuel inductionHypothesis =>
      unfold drain
      cases found : frames.size p with
      | none =>
          have stop (fuel : Nat) : drainWith frames serve fuel state p = ⟨true, state, p, []⟩ := by
            cases fuel with
            | zero => rfl
            | succ fuel => rw [drainWith, found]
          rw [stop, stop]
      | some n =>
          have shorter := drop_length found
          obtain ⟨first, rfl⟩ : ∃ first, fuel = first + 1 := ⟨fuel - 1, by omega⟩
          obtain ⟨second, length⟩ : ∃ second, p.length = second + 1 := ⟨p.length - 1, by omega⟩
          rw [length, drainWith, drainWith, found]
          dsimp only
          cases serve state (p.take n) with
          | proceed next =>
              dsimp only
              rw [inductionHypothesis first (by omega) (by omega)]
              by_cases less : second < first + 1
              · rw [inductionHypothesis second less (by omega)]
              · have same : second = first := by omega
                rw [same, inductionHypothesis first (by omega) (by omega)]
          | refuse next => rfl
          | finish next => rfl

theorem drain_eq (state : σ) (p : List β) :
    drain frames serve state p =
      match frames.size p with
      | none => ⟨true, state, p, []⟩
      | some n =>
          match serve state (p.take n) with
          | .proceed state => drain frames serve state (p.drop n)
          | .refuse state => ⟨false, state, p.take n, p.drop n⟩
          | .finish state => ⟨false, state, [], p.drop n⟩ := by
  conv_lhs => rw [← drainWith_eq (Nat.le_succ p.length), drainWith]
  cases found : frames.size p with
  | none => rfl
  | some n =>
      dsimp only
      cases serve state (p.take n) with
      | proceed next =>
          dsimp only
          exact drainWith_eq (Nat.le_of_lt_succ (Nat.lt_succ_of_lt (drop_length found)))
      | refuse next => rfl
      | finish next => rfl

theorem drain_none {state : σ} {p : List β} (incomplete : frames.size p = none) :
    drain frames serve state p = ⟨true, state, p, []⟩ := by
  rw [drain_eq, incomplete]

/-- The induction over the frames of a buffer. -/
theorem frames_induction (frames : Frames β) {motive : List β → Prop}
    (incomplete : ∀ p, frames.size p = none → motive p)
    (complete : ∀ p n, frames.size p = some n → motive (p.drop n) → motive p)
    (p : List β) : motive p := by
  induction size : p.length using Nat.strongRecOn generalizing p with
  | ind length inductionHypothesis =>
      cases found : frames.size p with
      | none => exact incomplete p found
      | some n =>
          exact complete p n found
            (inductionHypothesis _ (size ▸ drop_length found) (p.drop n) rfl)

/-! ## One frame -/

section Frame

variable {state next : σ} {p : List β} {n : Nat} (found : frames.size p = some n)
include found

theorem drain_proceed (verdict : serve state (p.take n) = .proceed next) :
    drain frames serve state p = drain frames serve next (p.drop n) := by
  rw [drain_eq, found]
  dsimp only
  rw [verdict]

theorem drain_refuse (verdict : serve state (p.take n) = .refuse next) :
    drain frames serve state p = ⟨false, next, p.take n, p.drop n⟩ := by
  rw [drain_eq, found]
  dsimp only
  rw [verdict]

theorem drain_finish (verdict : serve state (p.take n) = .finish next) :
    drain frames serve state p = ⟨false, next, [], p.drop n⟩ := by
  rw [drain_eq, found]
  dsimp only
  rw [verdict]

theorem append_parts (q : List β) :
    frames.size (p ++ q) = some n ∧ (p ++ q).take n = p.take n ∧
      (p ++ q).drop n = p.drop n ++ q :=
  ⟨frames.size_append q found, List.take_append_of_le_length (frames.size_le found),
    List.drop_append_of_le_length (frames.size_le found)⟩

end Frame

/-! ## Later bytes -/

/-- No complete frame is left while serving goes on. -/
theorem drain_buffered {state : σ} {p : List β}
    (running : (drain frames serve state p).running = true) :
    frames.size (drain frames serve state p).buffered = none := by
  induction p using frames_induction frames generalizing state with
  | incomplete p none =>
      rw [drain_none none]
      exact none
  | complete p n found inductionHypothesis =>
      cases verdict : serve state (p.take n) with
      | proceed next =>
          rw [drain_proceed found verdict] at running ⊢
          exact inductionHypothesis running
      | refuse next =>
          rw [drain_refuse found verdict] at running
          cases running
      | finish next =>
          rw [drain_finish found verdict] at running
          cases running

/-- While serving goes on, later bytes join what is buffered. -/
theorem drain_append_running {state : σ} {p : List β} (q : List β)
    (running : (drain frames serve state p).running = true) :
    drain frames serve state (p ++ q) =
      drain frames serve (drain frames serve state p).state
        ((drain frames serve state p).buffered ++ q) := by
  induction p using frames_induction frames generalizing state with
  | incomplete p none => rw [drain_none none]
  | complete p n found inductionHypothesis =>
      obtain ⟨whole, front, back⟩ := append_parts found q
      cases verdict : serve state (p.take n) with
      | proceed next =>
          rw [drain_proceed found verdict] at running ⊢
          rw [drain_proceed whole (front ▸ verdict), back]
          exact inductionHypothesis running
      | refuse next =>
          rw [drain_refuse found verdict] at running
          cases running
      | finish next =>
          rw [drain_finish found verdict] at running
          cases running

/-- Once serving has stopped, later bytes stay behind. -/
theorem drain_append_stopped {state : σ} {p : List β} (q : List β)
    (stopped : (drain frames serve state p).running = false) :
    drain frames serve state (p ++ q) =
      { drain frames serve state p with behind := (drain frames serve state p).behind ++ q } := by
  induction p using frames_induction frames generalizing state with
  | incomplete p none =>
      rw [drain_none none] at stopped
      cases stopped
  | complete p n found inductionHypothesis =>
      obtain ⟨whole, front, back⟩ := append_parts found q
      cases verdict : serve state (p.take n) with
      | proceed next =>
          rw [drain_proceed found verdict] at stopped ⊢
          rw [drain_proceed whole (front ▸ verdict), back]
          exact inductionHypothesis stopped
      | refuse next =>
          rw [drain_refuse found verdict, drain_refuse whole (front ▸ verdict), front, back]
      | finish next =>
          rw [drain_finish found verdict, drain_finish whole (front ▸ verdict), back]

theorem drain_behind {state : σ} {p : List β}
    (running : (drain frames serve state p).running = true) :
    (drain frames serve state p).behind = [] := by
  induction p using frames_induction frames generalizing state with
  | incomplete p none => rw [drain_none none]
  | complete p n found inductionHypothesis =>
      cases verdict : serve state (p.take n) with
      | proceed next =>
          rw [drain_proceed found verdict] at running ⊢
          exact inductionHypothesis running
      | refuse next =>
          rw [drain_refuse found verdict] at running
          cases running
      | finish next =>
          rw [drain_finish found verdict] at running
          cases running

theorem take_parts {p : List β} {n : Nat} (found : frames.size p = some n) (q : List β) :
    frames.size (p.take n ++ q) = some n ∧ (p.take n ++ q).take n = p.take n ∧
      (p.take n ++ q).drop n = q := by
  have length : (p.take n).length = n := List.length_take_of_le (frames.size_le found)
  refine ⟨frames.size_append q (frames.size_take found), ?_, ?_⟩
  · exact List.take_left' length
  · exact List.drop_left' length

/-- Without what stands behind, serving stops at the same frame, with nothing behind it. -/
theorem drain_front {state : σ} {p : List β}
    (stopped : (drain frames serve state p).running = false) :
    ∃ front, p = front ++ (drain frames serve state p).behind ∧
      drain frames serve state front = { drain frames serve state p with behind := [] } := by
  induction p using frames_induction frames generalizing state with
  | incomplete p none =>
      rw [drain_none none] at stopped
      cases stopped
  | complete p n found inductionHypothesis =>
      cases verdict : serve state (p.take n) with
      | proceed next =>
          rw [drain_proceed found verdict] at stopped ⊢
          obtain ⟨front, parts, same⟩ := inductionHypothesis stopped
          obtain ⟨whole, frame, rest⟩ := take_parts found front
          refine ⟨p.take n ++ front, ?_, ?_⟩
          · rw [List.append_assoc, ← parts, List.take_append_drop]
          · rw [drain_proceed whole (frame ▸ verdict), rest, same]
      | refuse next =>
          rw [drain_refuse found verdict]
          obtain ⟨whole, frame, rest⟩ := take_parts found []
          refine ⟨p.take n ++ [], ?_, ?_⟩
          · rw [List.append_nil, List.take_append_drop]
          · rw [drain_refuse whole (frame ▸ verdict), frame, rest]
      | finish next =>
          rw [drain_finish found verdict]
          obtain ⟨whole, frame, rest⟩ := take_parts found []
          refine ⟨p.take n ++ [], ?_, ?_⟩
          · rw [List.append_nil, List.take_append_drop]
          · rw [drain_finish whole (frame ▸ verdict), rest]

end Frames

end BitcoinClib.Lib
