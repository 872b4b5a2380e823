import BitcoinClib.Lib.Buffer

/-!
Contract: the ring queue of the breadth-first traversals.

Owns:
- `ClibQueue` with `init`, `resize`, `enter` and `leave`.

Does not own: the traversals, or what a sequence of calls does.
-/

namespace BitcoinClib.Chains

open BitcoinClib.Lib

/-- `struct clib_queue`; the cells of `nodes` are the allocated ones. -/
structure ClibQueue (α : Type) where
  nodes : List (Option α)
  maxSize : Nat
  startPos : Nat
  length : Nat

/-- `CLIB_QUEUE_ALLOC_SIZE`. -/
def clibQueueAllocSize : Nat := 4096

namespace ClibQueue

variable {α : Type}

/-- The new size of a queue: `new_size`, rounded up. The sum is an `ssize_t`. -/
def roundedSize (newSize : Int) : Exec Nat :=
  if newSize ≤ 0 then .ok clibQueueAllocSize
  else if 2 ^ 63 ≤ newSize.toNat + clibQueueAllocSize then .fault .overflow
  else .ok ((newSize.toNat + clibQueueAllocSize - 1) / clibQueueAllocSize * clibQueueAllocSize)

/-- `realloc` and `memset`: the old cells keep their place and the new ones hold NULL. The sizes
in bytes are products of type `size_t`; no array has 2^63 bytes. -/
def reallocated (queue : ClibQueue α) (newSize : Nat) : Exec (ClibQueue α) :=
  let bytes := newSize * 8 % 2 ^ 64
  let cleared := (newSize - queue.maxSize) * 8 % 2 ^ 64
  if 2 ^ 63 ≤ bytes then .fault .assertion
  else if bytes < queue.maxSize * 8 + cleared then .fault .bounds
  else .ok { queue with
    nodes := queue.nodes ++ List.replicate (cleared / 8) none
    maxSize := newSize }

/-- `queue_resize`. -/
def resize (queue : ClibQueue α) (newSize : Int) : Exec (ClibQueue α) := do
  let newSize ← roundedSize newSize
  if newSize ≤ queue.maxSize then .ok queue else queue.reallocated newSize

/-- `clib_queue_init` on a zeroed queue. -/
def init (size : Int) : Exec (ClibQueue α) := (⟨[], 0, 0, 0⟩ : ClibQueue α).resize size

/-- `queue_enter`; the position is converted to an `int`. -/
def enter (queue : ClibQueue α) (node : Option α) : Exec (ClibQueue α) := do
  let queue ← queue.resize (queue.length + 1)
  let curPos := (intOfSize (queue.startPos + queue.length)).tmod queue.maxSize
  if curPos < 0 then .fault .bounds
  else do
    let nodes ← Exec.writeAt queue.nodes curPos.toNat node
    .ok { queue with nodes, length := queue.length + 1 }

/-- `queue_leave`. -/
def leave (queue : ClibQueue α) : Exec (Option α × ClibQueue α) :=
  if queue.length = 0 then .ok (none, queue)
  else do
    let node ← Exec.readAt queue.nodes queue.startPos
    .ok (node, { queue with
      startPos := (queue.startPos + 1) % queue.maxSize
      length := queue.length - 1 })

end ClibQueue

end BitcoinClib.Chains
