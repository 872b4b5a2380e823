import BitcoinClib.Chains.Queue
import BitcoinClib.Lib.Ring

/-!
Contract: what leaves a ring queue after any calls.

Owns:
- `fifo`, the pointers that should leave, and `Holds`, the pointers a queue holds in order;
- `enter` and `leave` on a queue that holds a list;
- `clibQueue_fifo`, for the runs in which no queue grows while it goes round its end;
- what leaves after a queue has grown so.
-/

namespace BitcoinClib.Chains

open BitcoinClib.Lib

variable {α : Type}

/-- A call on a queue. -/
inductive QueueCall (α : Type) where
  | enter (node : Option α)
  | leave

/-- The pointers that are left and the ones that left, oldest first. -/
def fifo : List (Option α) → List (QueueCall α) → List (Option α) × List (Option α)
  | pending, [] => (pending, [])
  | pending, .enter node :: calls => fifo (pending ++ [node]) calls
  | [], .leave :: calls =>
      let (pending, left) := fifo [] calls
      (pending, none :: left)
  | node :: pending, .leave :: calls =>
      let (pending, left) := fifo pending calls
      (pending, node :: left)

namespace ClibQueue

/-- The calls in order, with the pointers that leave. -/
def run : ClibQueue α → List (QueueCall α) → Exec (ClibQueue α × List (Option α))
  | queue, [] => .ok (queue, [])
  | queue, .enter node :: calls => do
      let queue ← queue.enter node
      queue.run calls
  | queue, .leave :: calls => do
      let (node, queue) ← queue.leave
      let (queue, left) ← queue.run calls
      .ok (queue, node :: left)

/-- A pointer enters where a cell is left or the ring starts at its first cell, at a position
that is an `int`. -/
def Enterable (queue : ClibQueue α) : Prop :=
  (queue.length < queue.maxSize ∨ queue.startPos = 0) ∧
    queue.startPos + queue.length < 2 ^ 31

/-- Each pointer enters so. -/
def Careful : ClibQueue α → List (QueueCall α) → Prop
  | _, [] => True
  | queue, .enter node :: calls =>
      queue.Enterable ∧ ∀ after, queue.enter node = .ok after → after.Careful calls
  | queue, .leave :: calls =>
      ∀ node after, queue.leave = .ok (node, after) → after.Careful calls

/-- The queue holds the pointers, oldest first. -/
structure Holds (queue : ClibQueue α) (pending : List (Option α)) : Prop where
  slice : Slice queue.nodes queue.startPos pending
  size : queue.nodes.length = queue.maxSize
  length : queue.length = pending.length
  unit : clibQueueAllocSize ∣ queue.maxSize

/-! ## Sizes -/

theorem roundedSize_of_pos {size : Nat} (positive : 0 < size) (small : size < 2 ^ 62) :
    ∃ rounded, roundedSize size = .ok rounded ∧ size ≤ rounded ∧
      rounded < size + clibQueueAllocSize ∧ clibQueueAllocSize ∣ rounded := by
  have notSmall : ¬ (size : Int) ≤ 0 := by omega
  have fits : ¬ 2 ^ 63 ≤ (size : Int).toNat + clibQueueAllocSize := by
    rw [Int.toNat_natCast, clibQueueAllocSize]
    omega
  refine ⟨(size + clibQueueAllocSize - 1) / clibQueueAllocSize * clibQueueAllocSize, ?_, ?_, ?_,
    Nat.dvd_mul_left _ _⟩
  · rw [roundedSize, if_neg notSmall, if_neg fits, Int.toNat_natCast]
  · rw [clibQueueAllocSize]
    omega
  · rw [clibQueueAllocSize]
    omega

/-- An array grows to a size that fits. -/
theorem reallocated_eq {queue : ClibQueue α} {newSize : Nat} (larger : queue.maxSize ≤ newSize)
    (small : newSize < 2 ^ 60) :
    queue.reallocated newSize = .ok { queue with
      nodes := queue.nodes ++ List.replicate (newSize - queue.maxSize) none
      maxSize := newSize } := by
  have bytes : newSize * 8 % 2 ^ 64 = newSize * 8 := Nat.mod_eq_of_lt (by omega)
  have cleared : (newSize - queue.maxSize) * 8 % 2 ^ 64 = (newSize - queue.maxSize) * 8 :=
    Nat.mod_eq_of_lt (by omega)
  rw [reallocated, bytes, cleared, if_neg (by omega), if_neg (by omega),
    Nat.mul_div_cancel _ (by decide)]

/-- A queue that was just allocated. -/
def fresh (size : Nat) : ClibQueue α := ⟨List.replicate size none, size, 0, 0⟩

theorem init_eq {size : Int} {rounded : Nat} (rounds : roundedSize size = .ok rounded)
    (positive : 0 < rounded) (small : rounded < 2 ^ 60) :
    init size = .ok (fresh rounded : ClibQueue α) := by
  rw [init, resize, rounds, Exec.ok_bind, if_neg (Nat.not_le.2 positive),
    reallocated_eq (Nat.zero_le _) small]
  rfl

theorem fresh_holds {size : Nat} (positive : 0 < size) (unit : clibQueueAllocSize ∣ size) :
    (fresh size : ClibQueue α).Holds [] := by
  refine ⟨Slice.empty ?_, List.length_replicate, rfl, unit⟩
  rw [fresh, List.length_replicate]
  exact positive

/-- A new queue of a size that fits is empty. -/
theorem init_holds {size : Int} (fits : size ≤ 2 ^ 60 - 4096) :
    ∃ queue : ClibQueue α, init size = .ok queue ∧ queue.Holds [] := by
  by_cases small : size ≤ 0
  · have rounds : roundedSize size = .ok clibQueueAllocSize := if_pos small
    exact ⟨_, init_eq rounds (by decide) (by decide), fresh_holds (by decide) (Nat.dvd_refl _)⟩
  · obtain ⟨count, rfl⟩ := Int.eq_ofNat_of_zero_le (by omega : 0 ≤ size)
    have positive : 0 < count := by omega
    obtain ⟨rounded, rounds, low, high, unit⟩ := roundedSize_of_pos positive (by omega)
    rw [clibQueueAllocSize] at high
    exact ⟨_, init_eq rounds (by omega) (by omega), fresh_holds (by omega) unit⟩

/-! ## One call -/

/-- A pointer is written behind the others once the array has a cell for it. -/
theorem enter_resized {queue grown : ClibQueue α} (node : Option α)
    (resizes : queue.resize (queue.length + 1) = .ok grown)
    (positive : 0 < grown.maxSize) (size : grown.nodes.length = grown.maxSize)
    (inRange : grown.startPos + grown.length < 2 ^ 31) :
    queue.enter node = .ok { grown with
      nodes := grown.nodes.set ((grown.startPos + grown.length) % grown.maxSize) node
      length := grown.length + 1 } := by
  have position : (intOfSize (grown.startPos + grown.length)).tmod grown.maxSize =
      ((grown.startPos + grown.length) % grown.maxSize : Nat) := by
    rw [intOfSize_of_small inRange, ← Int.ofNat_tmod]
  have inside : (grown.startPos + grown.length) % grown.maxSize < grown.nodes.length := by
    rw [size]
    exact Nat.mod_lt _ positive
  rw [enter, resizes, Exec.ok_bind, position, if_neg (by omega), Int.toNat_natCast,
    Exec.writeAt_of_lt inside, Exec.ok_bind]

/-- A queue with a cell left keeps its array. -/
theorem Holds.resize_room {queue : ClibQueue α} {pending : List (Option α)}
    (holds : queue.Holds pending) (room : queue.length < queue.maxSize)
    (inRange : queue.length < 2 ^ 31) : queue.resize (queue.length + 1) = .ok queue := by
  obtain ⟨rounded, rounds, low, high, unit⟩ :=
    roundedSize_of_pos (Nat.succ_pos queue.length) (by omega)
  have below : rounded ≤ queue.maxSize := by
    have whole := holds.unit
    rw [clibQueueAllocSize] at high unit whole
    omega
  have cast : ((queue.length + 1 : Nat) : Int) = queue.length + 1 := by omega
  rw [← cast, resize, rounds, Exec.ok_bind, if_pos below]

/-- A full queue gets one unit more. -/
theorem Holds.resize_full {queue : ClibQueue α} {pending : List (Option α)}
    (holds : queue.Holds pending) (full : queue.length = queue.maxSize)
    (inRange : queue.length < 2 ^ 31) :
    queue.resize (queue.length + 1) = .ok { queue with
      nodes := queue.nodes ++ List.replicate clibQueueAllocSize none
      maxSize := queue.maxSize + clibQueueAllocSize } := by
  obtain ⟨rounded, rounds, low, high, unit⟩ :=
    roundedSize_of_pos (Nat.succ_pos queue.length) (by omega)
  have next : rounded = queue.maxSize + clibQueueAllocSize := by
    have whole := holds.unit
    rw [clibQueueAllocSize] at high unit whole ⊢
    omega
  have cast : ((queue.length + 1 : Nat) : Int) = queue.length + 1 := by omega
  have small : queue.maxSize + clibQueueAllocSize < 2 ^ 60 := by
    rw [← full, clibQueueAllocSize]
    omega
  rw [← cast, resize, rounds, Exec.ok_bind, next, if_neg (by rw [clibQueueAllocSize]; omega),
    reallocated_eq (Nat.le_add_right _ _) small, Nat.add_sub_cancel_left]

/-- A pointer that enters becomes the newest one. -/
theorem Holds.enter {queue : ClibQueue α} {pending : List (Option α)}
    (holds : queue.Holds pending) (enterable : queue.Enterable) (node : Option α) :
    ∃ after, queue.enter node = .ok after ∧ after.Holds (pending ++ [node]) ∧
      after.startPos = queue.startPos ∧
      (queue.length < queue.maxSize → after.maxSize = queue.maxSize) := by
  obtain ⟨growable, inRange⟩ := enterable
  have start := holds.slice.start_lt
  have fits := holds.slice.fits
  rw [holds.size] at start fits
  have newLength : queue.length + 1 = (pending ++ [node]).length := by
    rw [List.length_append, List.length_singleton, holds.length]
  by_cases room : queue.length < queue.maxSize
  · have written := enter_resized node (holds.resize_room room (by omega)) (by omega) holds.size
      inRange
    refine ⟨_, written, ⟨?_, ?_, newLength, holds.unit⟩, rfl, fun _ => rfl⟩
    · have pushed := holds.slice.push (by rw [holds.size, ← holds.length]; exact room) node
      rwa [holds.size, ← holds.length] at pushed
    · rw [← holds.size]
      exact List.length_set
  · have full : queue.length = queue.maxSize := by
      have length := holds.length
      omega
    have atStart : queue.startPos = 0 := growable.resolve_left room
    have size : (queue.nodes ++ List.replicate clibQueueAllocSize none).length =
        queue.maxSize + clibQueueAllocSize := by
      rw [List.length_append, List.length_replicate, holds.size]
    have written := enter_resized node (holds.resize_full full (by omega))
      (by dsimp only; omega) size inRange
    refine ⟨_, written, ⟨?_, ?_, newLength, Nat.dvd_add holds.unit (Nat.dvd_refl _)⟩, rfl,
      fun below => absurd below room⟩
    · have straight : queue.startPos + pending.length ≤ queue.nodes.length := by
        rw [holds.size, atStart, Nat.zero_add]
        exact fits
      have pushed := (holds.slice.grow straight (List.replicate clibQueueAllocSize none)).push
        (by rw [size, ← holds.length, full, clibQueueAllocSize]; omega) node
      rwa [size, ← holds.length] at pushed
    · rw [← size]
      exact List.length_set

/-- The pointer in the first cell leaves. -/
theorem leave_first {queue : ClibQueue α} {node : Option α} (nonempty : 0 < queue.length)
    (first : queue.nodes[queue.startPos]? = some node) :
    ∃ after, queue.leave = .ok (node, after) ∧ after.nodes = queue.nodes ∧
      after.maxSize = queue.maxSize ∧ after.startPos = (queue.startPos + 1) % queue.maxSize ∧
      after.length = queue.length - 1 := by
  have reads : Exec.readAt queue.nodes queue.startPos = .ok node := Exec.readAt_eq_ok.2 first
  refine ⟨{ queue with
    startPos := (queue.startPos + 1) % queue.maxSize
    length := queue.length - 1 }, ?_, rfl, rfl, rfl, rfl⟩
  rw [ClibQueue.leave, if_neg (by omega), reads, Exec.ok_bind]

/-- The oldest pointer leaves. -/
theorem Holds.leave {queue : ClibQueue α} {pending : List (Option α)} {node : Option α}
    (holds : queue.Holds (node :: pending)) :
    ∃ after, queue.leave = .ok (node, after) ∧ after.Holds pending ∧
      after.maxSize = queue.maxSize ∧
      after.startPos = (queue.startPos + 1) % queue.maxSize := by
  obtain ⟨first, rest⟩ := holds.slice.pop
  have length := holds.length
  rw [List.length_cons] at length
  obtain ⟨after, leaves, nodes, maxSize, startPos, shorter⟩ := leave_first (by omega) first
  refine ⟨after, leaves, ⟨?_, ?_, by omega, ?_⟩, maxSize, startPos⟩
  · rwa [nodes, startPos, ← holds.size]
  · rw [nodes, maxSize, holds.size]
  · rw [maxSize]
    exact holds.unit

/-- NULL leaves an empty queue. -/
theorem Holds.leave_nil {queue : ClibQueue α} (holds : queue.Holds []) :
    queue.leave = .ok (none, queue) := if_pos holds.length

/-! ## All calls -/

theorem run_enter {queue next : ClibQueue α} {node : Option α} {calls : List (QueueCall α)}
    (enters : queue.enter node = .ok next) : queue.run (.enter node :: calls) = next.run calls := by
  rw [ClibQueue.run, enters, Exec.ok_bind]

theorem run_leave {queue next after : ClibQueue α} {node : Option α}
    {left : List (Option α)} {calls : List (QueueCall α)}
    (leaves : queue.leave = .ok (node, next)) (runs : next.run calls = .ok (after, left)) :
    queue.run (.leave :: calls) = .ok (after, node :: left) := by
  rw [ClibQueue.run, leaves, Exec.ok_bind]
  dsimp only
  rw [runs, Exec.ok_bind]

theorem run_append {first second : List (QueueCall α)} {queue next after : ClibQueue α}
    {left more : List (Option α)} (runs : queue.run first = .ok (next, left))
    (later : next.run second = .ok (after, more)) :
    queue.run (first ++ second) = .ok (after, left ++ more) := by
  induction first generalizing queue left with
  | nil =>
      rw [ClibQueue.run] at runs
      cases runs
      exact later
  | cons call first inductionHypothesis =>
      cases call with
      | enter node =>
          rw [ClibQueue.run, Exec.bind_eq_ok] at runs
          obtain ⟨entered, enters, runs⟩ := runs
          exact (run_enter enters).trans (inductionHypothesis runs)
      | leave =>
          simp only [ClibQueue.run, Exec.bind_eq_ok] at runs
          obtain ⟨⟨node, rest⟩, leaves, ⟨last, others⟩, runs, same⟩ := runs
          cases same
          exact run_leave leaves (inductionHypothesis runs)

/-- In a careful run the pointers leave in the order in which they entered. -/
theorem Holds.run :
    ∀ {calls : List (QueueCall α)} {queue : ClibQueue α} {pending : List (Option α)},
      queue.Holds pending → queue.Careful calls →
        ∃ after, queue.run calls = .ok (after, (fifo pending calls).2) ∧
          after.Holds (fifo pending calls).1
  | [], queue, pending, holds, _ => ⟨queue, rfl, holds⟩
  | .enter node :: calls, queue, pending, holds, careful => by
      obtain ⟨next, enters, nextHolds, -⟩ := holds.enter careful.1 node
      obtain ⟨after, runs, afterHolds⟩ := nextHolds.run (careful.2 next enters)
      exact ⟨after, (run_enter enters).trans runs, afterHolds⟩
  | .leave :: calls, queue, [], holds, careful => by
      have leaves := holds.leave_nil
      obtain ⟨after, runs, afterHolds⟩ := holds.run (careful none queue leaves)
      exact ⟨after, run_leave leaves runs, afterHolds⟩
  | .leave :: calls, queue, node :: pending, holds, careful => by
      obtain ⟨next, leaves, nextHolds, -⟩ := holds.leave
      obtain ⟨after, runs, afterHolds⟩ := nextHolds.run (careful node next leaves)
      exact ⟨after, run_leave leaves runs, afterHolds⟩

/-! ## Growth round the end -/

/-- Leaving the pointers of a slice. -/
theorem run_leaves :
    ∀ {front : List (Option α)} {queue : ClibQueue α},
      Slice queue.nodes queue.startPos front → queue.nodes.length = queue.maxSize →
      front.length ≤ queue.length →
        ∃ after, queue.run (List.replicate front.length .leave) = .ok (after, front) ∧
          after.nodes = queue.nodes ∧ after.length = queue.length - front.length ∧
          after.startPos = (queue.startPos + front.length) % queue.maxSize
  | [], queue, slice, size, _ => by
      refine ⟨queue, rfl, rfl, rfl, ?_⟩
      rw [List.length_nil, Nat.add_zero, Nat.mod_eq_of_lt]
      rw [← size]
      exact slice.start_lt
  | node :: front, queue, slice, size, enough => by
      obtain ⟨first, rest⟩ := slice.pop
      rw [List.length_cons] at enough
      obtain ⟨next, leaves, nodes, maxSize, startPos, shorter⟩ := leave_first (by omega) first
      rw [size, ← nodes, ← startPos] at rest
      obtain ⟨after, runs, sameNodes, length, start⟩ :=
        run_leaves rest (by rw [nodes, maxSize, size]) (by omega)
      refine ⟨after, run_leave leaves runs, sameNodes.trans nodes, ?_, ?_⟩
      · rw [length, shorter, List.length_cons]
        omega
      · rw [start, startPos, maxSize, List.length_cons, Nat.mod_add_mod]
        congr 1
        omega

/-- A full queue that goes round its end and grows gives up the pointers of its first part in
order and then NULL, while it still holds pointers. -/
theorem Holds.enter_wrapped {queue : ClibQueue α} {pending : List (Option α)}
    (holds : queue.Holds pending) (full : queue.length = queue.maxSize)
    (wrapped : queue.startPos ≠ 0) (inRange : queue.startPos + queue.length < 2 ^ 31)
    (node : Option α) :
    ∃ after, queue.run (.enter node ::
        List.replicate (queue.maxSize - queue.startPos) .leave ++ [.leave]) =
          .ok (after, pending.take (queue.maxSize - queue.startPos) ++ [none]) ∧
      0 < after.length := by
  have start := holds.slice.start_lt
  rw [holds.size] at start
  have front : (pending.take (queue.maxSize - queue.startPos)).length =
      queue.maxSize - queue.startPos := by
    rw [List.length_take, ← holds.length, full]
    omega
  have size : (queue.nodes ++ List.replicate clibQueueAllocSize none).length =
      queue.maxSize + clibQueueAllocSize := by
    rw [List.length_append, List.length_replicate, holds.size]
  obtain ⟨grown, enters, nodes, maxSize, startPos, length⟩ : ∃ grown, queue.enter node = .ok grown ∧
      grown.nodes = (queue.nodes ++ List.replicate clibQueueAllocSize none).set
        ((queue.startPos + queue.length) % (queue.maxSize + clibQueueAllocSize)) node ∧
      grown.maxSize = queue.maxSize + clibQueueAllocSize ∧
      grown.startPos = queue.startPos ∧ grown.length = queue.length + 1 :=
    ⟨_, enter_resized node (holds.resize_full full (by omega)) (by dsimp only; omega) size inRange,
      rfl, rfl, rfl, rfl⟩
  -- the pointer goes behind the first cell that was cleared, or in front of the first part
  have place : (queue.startPos + queue.length) % (queue.maxSize + clibQueueAllocSize) ≠
        queue.maxSize ∧
      ∀ i < queue.maxSize - queue.startPos,
        (queue.startPos + i) % (queue.maxSize + clibQueueAllocSize) ≠
          (queue.startPos + queue.length) % (queue.maxSize + clibQueueAllocSize) := by
    rw [clibQueueAllocSize, full, ring_index (by omega) (by omega)]
    refine ⟨by split <;> omega, fun i below => ?_⟩
    rw [Nat.mod_eq_of_lt (by omega)]
    split <;> omega
  have kept : Slice grown.nodes grown.startPos
      (pending.take (queue.maxSize - queue.startPos)) := by
    have straight := (holds.slice.take (queue.maxSize - queue.startPos)).grow
      (by rw [front, holds.size]; omega) (List.replicate clibQueueAllocSize none)
    rw [nodes, startPos]
    exact straight.set_outside node (by rw [front, size]; exact place.2)
  obtain ⟨emptied, runs, sameNodes, left, start'⟩ := run_leaves kept
    (by rw [nodes, List.length_set, size, maxSize]) (by rw [front]; omega)
  have cleared : emptied.nodes[emptied.startPos]? = some none := by
    have position : emptied.startPos = queue.maxSize := by
      rw [start', startPos, maxSize, front, Nat.add_sub_cancel' (le_of_lt start)]
      exact Nat.mod_eq_of_lt (by rw [clibQueueAllocSize]; omega)
    rw [position, sameNodes, nodes, List.getElem?_set_ne place.1,
      List.getElem?_append_right (by rw [holds.size]), holds.size, Nat.sub_self,
      List.getElem?_replicate_of_lt (by decide)]
  rw [front] at runs left
  obtain ⟨after, leaves, -, -, -, shorter⟩ := leave_first (by omega) cleared
  refine ⟨after, (run_enter enters).trans (run_append runs (run_leave leaves rfl)), by omega⟩

/-- Pointers enter as long as cells are left. -/
theorem Holds.run_enters (node : Option α) :
    ∀ {count : Nat} {queue : ClibQueue α} {pending : List (Option α)},
      queue.Holds pending → pending.length + count ≤ queue.maxSize →
      queue.startPos + pending.length + count < 2 ^ 31 →
        ∃ after, queue.run (List.replicate count (.enter node)) = .ok (after, []) ∧
          after.Holds (pending ++ List.replicate count node) ∧
          after.maxSize = queue.maxSize ∧ after.startPos = queue.startPos
  | 0, queue, pending, holds, _, _ => by
      refine ⟨queue, rfl, ?_, rfl, rfl⟩
      rw [List.replicate_zero, List.append_nil]
      exact holds
  | count + 1, queue, pending, holds, room, inRange => by
      have length := holds.length
      have enterable : queue.Enterable := ⟨Or.inl (by omega), by omega⟩
      obtain ⟨next, enters, nextHolds, start, size⟩ := holds.enter enterable node
      have sameSize := size (by omega)
      have nextRoom : (pending ++ [node]).length + count ≤ next.maxSize := by
        rw [List.length_append, List.length_singleton, sameSize]
        omega
      have nextRange : next.startPos + (pending ++ [node]).length + count < 2 ^ 31 := by
        rw [List.length_append, List.length_singleton, start]
        omega
      obtain ⟨after, runs, afterHolds, afterSize, afterStart⟩ :=
        nextHolds.run_enters node nextRoom nextRange
      refine ⟨after, (run_enter enters).trans runs, ?_, afterSize.trans sameSize,
        afterStart.trans start⟩
      rwa [List.append_assoc, List.singleton_append, ← List.replicate_succ] at afterHolds

/-- The first calls on a queue are careful. -/
theorem Holds.careful :
    ∀ {calls : List (QueueCall α)} {queue : ClibQueue α} {pending : List (Option α)},
      queue.Holds pending → queue.startPos + queue.length + calls.length < clibQueueAllocSize →
        queue.Careful calls
  | [], _, _, _, _ => trivial
  | .enter node :: calls, queue, pending, holds, few => by
      have positive : clibQueueAllocSize ≤ queue.maxSize := by
        have start := holds.slice.start_lt
        rw [holds.size] at start
        exact Nat.le_of_dvd (by omega) holds.unit
      rw [List.length_cons] at few
      have enterable : queue.Enterable := by
        refine ⟨Or.inl (by omega), ?_⟩
        rw [clibQueueAllocSize] at few
        omega
      refine ⟨enterable, fun after enters => ?_⟩
      obtain ⟨next, entered, nextHolds, start, -⟩ := holds.enter enterable node
      rw [entered] at enters
      cases enters
      have longer : after.length = queue.length + 1 := by
        rw [nextHolds.length, holds.length, List.length_append, List.length_singleton]
      exact nextHolds.careful (by omega)
  | .leave :: calls, queue, [], holds, few => by
      intro node after leaves
      rw [holds.leave_nil] at leaves
      cases leaves
      rw [List.length_cons] at few
      exact holds.careful (by omega)
  | .leave :: calls, queue, node :: pending, holds, few => by
      intro left after leaves
      obtain ⟨next, left, nextHolds, -, start⟩ := holds.leave
      rw [left] at leaves
      cases leaves
      rw [List.length_cons] at few
      have shorter : after.length + 1 = queue.length := by
        rw [nextHolds.length, holds.length, List.length_cons]
      have moved : after.startPos ≤ queue.startPos + 1 := by
        rw [start]
        exact Nat.mod_le _ _
      exact nextHolds.careful (by omega)

end ClibQueue

open ClibQueue

/-! ## The order of the pointers -/

theorem fifo_enters (node : Option α) (calls : List (QueueCall α)) :
    ∀ (count : Nat) (pending : List (Option α)),
      fifo pending (List.replicate count (.enter node) ++ calls) =
        fifo (pending ++ List.replicate count node) calls
  | 0, pending => by simp
  | count + 1, pending => by
      rw [List.replicate_succ, List.cons_append, fifo, fifo_enters node calls count,
        List.append_assoc, List.singleton_append, ← List.replicate_succ]

theorem fifo_leaves :
    ∀ (pending rest : List (Option α)),
      fifo (pending ++ rest) (List.replicate pending.length .leave) = (rest, pending)
  | [], rest => rfl
  | node :: pending, rest => by
      rw [List.length_cons, List.replicate_succ, List.cons_append, fifo, fifo_leaves pending rest]

/-- A queue is filled, one pointer leaves, two enter, and all but one leave. -/
theorem fifo_filled (node : Option α) (count : Nat) :
    (fifo [] (List.replicate (count + 1) (.enter node) ++
      .leave :: .enter node :: .enter node :: (List.replicate count .leave ++ [.leave]))).2 =
        List.replicate (count + 2) node := by
  have leaves := fifo_leaves (List.replicate (count + 1) node) [node]
  rw [List.length_replicate, ← List.replicate_succ'] at leaves
  rw [fifo_enters, List.nil_append, List.replicate_succ, fifo, fifo, fifo,
    ← List.replicate_succ', ← List.replicate_succ', ← List.replicate_succ', leaves]
  rfl

/-- In a run in which each pointer enters while the array has a cell for it, or grows from a ring
that starts at its first cell, the oldest pointer leaves. A ring that has moved, is full and
grows gives up NULL while it holds pointers. -/
theorem clibQueue_fifo (size : Int) (fits : size ≤ 2 ^ 60 - 4096) (calls : List (QueueCall α)) :
    ∃ queue, ClibQueue.init size = .ok queue ∧ (queue.Careful calls →
      ∃ after, queue.run calls = .ok (after, (fifo [] calls).2) ∧
        after.Holds (fifo [] calls).1 ∧
        (after.length = after.maxSize → after.startPos ≠ 0 →
          after.startPos + after.length < 2 ^ 31 → ∀ node, ∃ last,
            after.run (.enter node ::
                List.replicate (after.maxSize - after.startPos) .leave ++ [.leave]) =
              .ok (last, (fifo [] calls).1.take (after.maxSize - after.startPos) ++ [none]) ∧
            0 < last.length)) := by
  obtain ⟨queue, starts, holds⟩ := ClibQueue.init_holds (α := α) fits
  refine ⟨queue, starts, fun careful => ?_⟩
  obtain ⟨after, runs, afterHolds⟩ := holds.run careful
  exact ⟨after, runs, afterHolds, afterHolds.enter_wrapped⟩

/-- A pointer enters and leaves an empty queue, and NULL leaves then. -/
theorem clibQueue_fifo_short : ∃ queue after : ClibQueue Nat, ClibQueue.init 0 = .ok queue ∧
    queue.run [.enter (some 7), .leave, .leave] = .ok (after, [some 7, none]) := by
  obtain ⟨queue, starts, careful⟩ :=
    clibQueue_fifo (α := Nat) 0 (by omega) [.enter (some 7), .leave, .leave]
  have short : queue.Careful [.enter (some 7), .leave, .leave] := by
    rw [init_eq (if_pos (le_refl 0)) (by decide) (by decide)] at starts
    cases starts
    exact (fresh_holds (by decide) (Nat.dvd_refl _)).careful (by decide)
  obtain ⟨after, runs, -, -⟩ := careful short
  exact ⟨queue, after, starts, runs⟩

/-- The queue is filled, one pointer leaves, and two more enter: NULL leaves in place of the
pointer that went to the front of the ring. -/
theorem clibQueue_not_fifo : ¬ ∀ calls : List (QueueCall Unit), ∃ queue after,
    ClibQueue.init 0 = .ok queue ∧ queue.run calls = .ok (after, (fifo [] calls).2) := by
  intro ordered
  have starts : ClibQueue.init 0 = .ok (fresh 4096 : ClibQueue Unit) :=
    init_eq (if_pos (le_refl 0)) (by decide) (by decide)
  have holds : (fresh 4096 : ClibQueue Unit).Holds [] := fresh_holds (by decide) (Nat.dvd_refl _)
  have room : ([] : List (Option Unit)).length + 4096 ≤ (fresh 4096 : ClibQueue Unit).maxSize :=
    le_refl 4096
  obtain ⟨filled, fills, filledHolds, filledSize, filledStart⟩ :=
    holds.run_enters (some ()) room (by decide)
  rw [List.nil_append, List.replicate_succ] at filledHolds
  obtain ⟨moved, leaves, movedHolds, movedSize, movedStart⟩ := filledHolds.leave
  rw [filledSize] at movedSize movedStart
  rw [filledStart] at movedStart
  have size : moved.maxSize = 4096 := movedSize
  have start : moved.startPos = 1 := movedStart
  have length : moved.length = 4095 := movedHolds.length.trans List.length_replicate
  obtain ⟨full, enters, fullHolds, fullStart, fullSize⟩ :=
    movedHolds.enter ⟨Or.inl (by omega), by omega⟩ (some ())
  have sameSize := fullSize (by omega)
  have fullLength : full.length = 4096 := by
    rw [fullHolds.length, List.length_append, List.length_replicate, List.length_singleton]
  obtain ⟨last, wraps, -⟩ := fullHolds.enter_wrapped (by omega) (by omega) (by omega) (some ())
  have front : full.maxSize - full.startPos = 4095 := by omega
  rw [front] at wraps
  have runs := run_append fills (run_leave leaves ((run_enter enters).trans wraps))
  obtain ⟨queue, after, starts', ordered⟩ := ordered _
  rw [starts] at starts'
  cases starts'
  rw [runs, Exec.ok.injEq, Prod.mk.injEq] at ordered
  have expected := fifo_filled (some ()) 4095
  have null : none ∈ List.replicate (4095 + 2) (some ()) := by
    rw [← expected]
    exact ordered.2 ▸ List.mem_append_right _
      (List.mem_cons_of_mem _ (List.mem_append_right _ (List.mem_singleton.2 rfl)))
  cases List.eq_of_mem_replicate null

end BitcoinClib.Chains
