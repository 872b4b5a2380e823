import BitcoinClib.Lib.Buffer
import BitcoinClib.Lib.Fifo
import BitcoinClib.Types.Bytes

/-!
Contract: `auto_buffer.c`.

Owns:
- `auto_buffer_init`, `auto_buffer_resize`, `auto_buffer_push`, `auto_buffer_pop`;
- `Holds`, the bytes of a buffer, and what each function does to them;
- `autoBuffer_fifo`, the law of a queue for every run.

Does not own: `strlen` for a length of -1. A `size_t` is a number below 2^64, and no object is
larger than `PTRDIFF_MAX`.
-/

namespace BitcoinClib.Utils

open BitcoinClib.Lib
open BitcoinClib.Types

/-- The allocator gives objects up to a size, and NULL for larger ones. -/
structure Heap where
  limit : Nat
  limit_lt : limit < 2 ^ 63

/-- The bytes of an object in memory. -/
abbrev Chunk := { bytes : Bytes // bytes.length < 2 ^ 63 }

/-- `AUTO_BUFFER_ALLOC_SIZE` -/
def autoBufferAllocSize : Nat := 4096

/-- `auto_buffer_t`; cells of the allocation that were never written hold nothing. -/
structure AutoBuffer where
  size : Nat
  length : Nat
  startPos : Nat
  data : List (Option UInt8)
deriving DecidableEq

/-- The size that `auto_buffer_resize` asks for. -/
def roundedSize (size : Nat) : Nat :=
  if size = 2 ^ 64 - 1 ∨ size = 0 then autoBufferAllocSize
  else (size + autoBufferAllocSize - 1) % 2 ^ 64 / autoBufferAllocSize * autoBufferAllocSize

/-- `auto_buffer_resize` -/
def autoBufferResize (heap : Heap) (buf : AutoBuffer) (size : Nat) : Exec (Int × AutoBuffer) :=
  let size := roundedSize size
  if size ≤ buf.size then .ok (0, buf)
  else do
    -- `realloc` keeps the cells that are there
    Exec.assert (size ≤ heap.limit)
    .ok (0, { buf with size := size, data := buf.data ++ List.replicate (size - buf.size) none })

/-- `auto_buffer_init` -/
def autoBufferInit (heap : Heap) (size : Nat) : Exec AutoBuffer := do
  let (rc, buf) ← autoBufferResize heap ⟨0, 0, 0, []⟩ size
  Exec.assert (rc = 0)
  .ok buf

/-- `memcpy` of bytes into the cells from `place` on. -/
def writeCells (cells : List (Option UInt8)) (place : Nat) (bytes : Bytes) :
    Exec (List (Option UInt8)) :=
  if place + bytes.length ≤ cells.length then
    .ok (cells.take place ++ bytes.map some ++ cells.drop (place + bytes.length))
  else .fault .bounds

/-- The bytes of cells. -/
def readBytes : List (Option UInt8) → Exec Bytes
  | [] => .ok []
  | none :: _ => .fault .uninitialised
  | some byte :: cells => do
      let bytes ← readBytes cells
      .ok (byte :: bytes)

/-- `memcpy` of bytes out of the cells from `place` on. -/
def readCells (cells : List (Option UInt8)) (place count : Nat) : Exec Bytes :=
  if place + count ≤ cells.length then readBytes ((cells.drop place).take count)
  else .fault .bounds

/-- `auto_buffer_push`; `none` is NULL for `data`. -/
def autoBufferPush (heap : Heap) (buf : AutoBuffer) (data : Option Chunk) :
    Exec (Int × AutoBuffer) :=
  match data with
  | none => .ok (0, buf)
  | some data =>
      let length := data.val.length
      if length = 0 then .ok (0, buf)
      else
        let minimalBufSize := (buf.startPos + buf.length + length) % 2 ^ 64
        if minimalBufSize < length then .ok (-1, buf)
        else do
          let (rc, buf) ← autoBufferResize heap buf minimalBufSize
          if rc ≠ 0 then .ok (rc, buf)
          else do
            let cells ← writeCells buf.data (buf.startPos + buf.length) data.val
            .ok (0, { buf with data := cells, length := (buf.length + length) % 2 ^ 64 })

/-- The array that bytes are popped into: a new one, or the caller's. -/
def popTarget (heap : Heap) (cells : Option Bytes) (length : Nat) : Exec Bytes :=
  match cells with
  | none => do
      Exec.assert (length ≤ heap.limit)
      .ok (List.replicate length 0)
  | some data => .ok data

/-- `auto_buffer_pop`: its value, what `*p_data` points to, and the buffer. `none` is NULL for
`p_data`, `some none` a NULL behind it. -/
def autoBufferPop (heap : Heap) (buf : AutoBuffer) (pData : Option (Option Bytes))
    (dataSize : Nat) : Exec (Nat × Option (Option Bytes) × AutoBuffer) :=
  match pData with
  | none => .ok (buf.length, none, buf)
  | some cells => do
      let dataSize := if dataSize = 0 then buf.length else dataSize
      let length := if dataSize > buf.length then buf.length else dataSize
      let data ← popTarget heap cells length
      let bytes ← readCells buf.data buf.startPos length
      if length ≤ data.length then
        let left := buf.length - length
        let startPos := if left = 0 then 0 else (buf.startPos + length) % 2 ^ 64
        .ok (length, some (some (bytes ++ data.drop length)),
          { buf with startPos := startPos, length := left })
      else .fault .bounds

/-- The bytes of the buffer. -/
def AutoBuffer.contents (buf : AutoBuffer) : Bytes :=
  ((buf.data.drop buf.startPos).take buf.length).filterMap id

/-! ## What a buffer holds -/

/-- The window of the allocation holds the bytes. -/
structure Holds (heap : Heap) (buf : AutoBuffer) (contents : Bytes) : Prop where
  length : buf.length = contents.length
  whole : buf.data.length = buf.size
  pages : autoBufferAllocSize ∣ buf.size
  given : buf.size ≤ heap.limit
  window : Window buf.data buf.startPos contents

namespace Holds

variable {heap : Heap} {buf : AutoBuffer} {contents : Bytes}

theorem inside (holds : Holds heap buf contents) : buf.startPos + buf.length ≤ buf.size := by
  rw [holds.length, ← holds.whole]
  exact holds.window.inside

theorem small (holds : Holds heap buf contents) : buf.size < 2 ^ 63 :=
  lt_of_le_of_lt holds.given heap.limit_lt

theorem contents_eq (holds : Holds heap buf contents) : buf.contents = contents := by
  rw [AutoBuffer.contents, holds.length, holds.window.holds, List.filterMap_map]
  exact List.filterMap_some

end Holds

/-- A size far enough from the end of `size_t` is rounded up. -/
theorem le_roundedSize {size : Nat} (fits : size + 4096 ≤ 2 ^ 64) : size ≤ roundedSize size := by
  have pages : autoBufferAllocSize = 4096 := rfl
  rw [roundedSize]
  split
  next special => omega
  next =>
    rw [pages, Nat.mod_eq_of_lt (by omega)]
    omega

theorem dvd_roundedSize (size : Nat) : autoBufferAllocSize ∣ roundedSize size := by
  rw [roundedSize]
  split
  next => exact dvd_refl _
  next => exact Nat.dvd_mul_left _ _

/-- The buffer has the size that is asked for, and holds what it held. -/
theorem autoBufferResize_holds {heap : Heap} {buf after : AutoBuffer} {contents : Bytes}
    {size : Nat} {rc : Int} (holds : Holds heap buf contents)
    (resizes : autoBufferResize heap buf size = .ok (rc, after)) :
    rc = 0 ∧ Holds heap after contents ∧ roundedSize size ≤ after.size ∧
      after.startPos = buf.startPos ∧ after.length = buf.length := by
  rw [autoBufferResize] at resizes
  split at resizes
  next enough =>
    cases resizes
    exact ⟨rfl, holds, enough, rfl, rfl⟩
  next short =>
    obtain ⟨done, given, same⟩ := Exec.bind_eq_ok.1 resizes
    rw [Exec.assert_eq_ok] at given
    cases same
    refine ⟨rfl, ⟨holds.length, ?_, dvd_roundedSize size, ?_, holds.window.grow _⟩, le_refl _,
      rfl, rfl⟩
    · show (buf.data ++ List.replicate (roundedSize size - buf.size) none).length =
        roundedSize size
      rw [List.length_append, List.length_replicate, holds.whole]
      omega
    · exact given

theorem autoBufferResize_returns {heap : Heap} {buf : AutoBuffer} {size : Nat}
    (given : roundedSize size ≤ heap.limit) : (autoBufferResize heap buf size).Returns := by
  rw [autoBufferResize]
  split
  next => exact Exec.returns_ok _
  next =>
    rw [Exec.assert_of given]
    exact Exec.returns_ok _

/-- A new buffer is empty. -/
theorem autoBufferInit_holds {heap : Heap} {buf : AutoBuffer} {size : Nat}
    (inits : autoBufferInit heap size = .ok buf) : Holds heap buf [] := by
  obtain ⟨⟨rc, sized⟩, resizes, inits⟩ := Exec.bind_eq_ok.1 inits
  obtain ⟨-, -, same⟩ := Exec.bind_eq_ok.1 inits
  cases same
  have holds : Holds heap ⟨0, 0, 0, []⟩ [] :=
    ⟨rfl, rfl, dvd_zero _, Nat.zero_le _, Window.empty (le_refl _)⟩
  exact (autoBufferResize_holds holds resizes).2.1

/-- The sum of the three lengths stays clear of the end of `size_t`. -/
theorem Holds.minimalBufSize {heap : Heap} {buf : AutoBuffer} {contents : Bytes}
    (holds : Holds heap buf contents)
    (data : Chunk) : buf.startPos + buf.length + data.val.length + 4096 ≤ 2 ^ 64 := by
  have inside := holds.inside
  have small := holds.small
  obtain ⟨pages, size⟩ := holds.pages
  have alloc : autoBufferAllocSize = 4096 := rfl
  have object := data.property
  rw [alloc] at size
  omega

/-- The cells with bytes behind the ones that are held. -/
def AutoBuffer.append (buf : AutoBuffer) (bytes : Bytes) : AutoBuffer :=
  { buf with
    data := buf.data.take (buf.startPos + buf.length) ++ bytes.map some ++
      buf.data.drop (buf.startPos + buf.length + bytes.length)
    length := buf.length + bytes.length }

theorem autoBufferPush_nil {heap : Heap} {buf : AutoBuffer} {data : Chunk} (empty : data.val = []) :
    autoBufferPush heap buf (some data) = .ok (0, buf) :=
  if_pos (List.length_eq_zero_iff.2 empty)

/-- A push gives the buffer the size it needs and appends. -/
theorem autoBufferPush_eq {heap : Heap} {buf : AutoBuffer} {contents : Bytes} {data : Chunk}
    (holds : Holds heap buf contents) (some_ : data.val ≠ []) :
    autoBufferPush heap buf (some data) =
      (autoBufferResize heap buf (buf.startPos + buf.length + data.val.length) >>= fun sized =>
        Exec.ok (0, sized.2.append data.val)) := by
  have room := holds.minimalBufSize data
  have nonempty := List.length_pos_iff.2 some_
  rw [autoBufferPush]
  dsimp only
  rw [if_neg (Nat.ne_of_gt nonempty),
    Nat.mod_eq_of_lt (a := buf.startPos + buf.length + data.val.length) (by omega),
    if_neg (by omega)]
  cases resizes : autoBufferResize heap buf (buf.startPos + buf.length + data.val.length) with
  | fault cause => rfl
  | timeout => rfl
  | ok result =>
      obtain ⟨code, sized⟩ := result
      obtain ⟨rfl, sizedHolds, size, start, length⟩ := autoBufferResize_holds holds resizes
      have enough := le_trans (le_roundedSize room) size
      have fits : sized.startPos + sized.length + data.val.length ≤ sized.data.length := by
        rw [sizedHolds.whole, start, length]
        exact enough
      have small := sizedHolds.small
      rw [Exec.ok_bind, Exec.ok_bind]
      dsimp only
      rw [if_neg (by decide), writeCells, if_pos fits, Exec.ok_bind,
        Nat.mod_eq_of_lt (by rw [sizedHolds.whole] at fits; omega)]
      rfl

/-- A push that returns has appended its bytes. -/
theorem autoBufferPush_holds {heap : Heap} {buf after : AutoBuffer} {contents : Bytes}
    {data : Option Chunk} {rc : Int} (holds : Holds heap buf contents)
    (pushes : autoBufferPush heap buf data = .ok (rc, after)) :
    rc = 0 ∧ Holds heap after (contents ++ data.elim [] Subtype.val) := by
  cases data with
  | none =>
      cases pushes
      rw [Option.elim_none, List.append_nil]
      exact ⟨rfl, holds⟩
  | some data =>
      by_cases empty : data.val = []
      · rw [autoBufferPush_nil empty] at pushes
        cases pushes
        rw [Option.elim_some, empty, List.append_nil]
        exact ⟨rfl, holds⟩
      · rw [autoBufferPush_eq holds empty] at pushes
        obtain ⟨⟨code, sized⟩, resizes, appends⟩ := Exec.bind_eq_ok.1 pushes
        obtain ⟨-, sizedHolds, size, start, length⟩ := autoBufferResize_holds holds resizes
        have enough := le_trans (le_roundedSize (holds.minimalBufSize data)) size
        have fits : sized.startPos + contents.length + data.val.length ≤ sized.data.length := by
          rw [sizedHolds.whole, start, ← holds.length]
          exact enough
        cases appends
        rw [AutoBuffer.append, sizedHolds.length]
        refine ⟨rfl, ?_, ?_, sizedHolds.pages, sizedHolds.given, sizedHolds.window.write fits⟩
        · exact List.length_append.symm
        · rw [← sizedHolds.whole]
          simp only [List.length_append, List.length_take, List.length_map, List.length_drop]
          omega

/-- A push returns when the allocator gives what it asks for. -/
theorem autoBufferPush_returns {heap : Heap} {buf : AutoBuffer} {contents : Bytes} {data : Chunk}
    (holds : Holds heap buf contents)
    (given : roundedSize (buf.startPos + buf.length + data.val.length) ≤ heap.limit) :
    (autoBufferPush heap buf (some data)).Returns := by
  by_cases empty : data.val = []
  · rw [autoBufferPush_nil empty]
    exact Exec.returns_ok _
  · rw [autoBufferPush_eq holds empty]
    obtain ⟨sized, resizes⟩ := autoBufferResize_returns given
    rw [resizes]
    exact Exec.returns_ok _

theorem readBytes_map (bytes : Bytes) : readBytes (bytes.map some) = .ok bytes := by
  induction bytes with
  | nil => rfl
  | cons byte bytes ih =>
      rw [List.map_cons, readBytes, ih]
      rfl

/-- How many bytes a pop takes; 0 asks for all of them. -/
def popLength (dataSize available : Nat) : Nat :=
  if dataSize = 0 then available else min dataSize available

theorem popLength_eq (dataSize available : Nat) :
    (if (if dataSize = 0 then available else dataSize) > available then available
      else if dataSize = 0 then available else dataSize) = popLength dataSize available := by
  unfold popLength
  split
  next => rw [if_neg (lt_irrefl _)]
  next =>
    split
    next more => rw [Nat.min_eq_right (le_of_lt more)]
    next => omega

theorem popLength_le (dataSize available : Nat) : popLength dataSize available ≤ available := by
  unfold popLength
  split
  next => exact le_refl _
  next => exact Nat.min_le_right _ _

/-- A pop with an array takes the front of the bytes. -/
theorem autoBufferPop_eq {heap : Heap} {buf : AutoBuffer} {contents : Bytes}
    (holds : Holds heap buf contents) (cells : Option Bytes) (dataSize : Nat) :
    autoBufferPop heap buf (some cells) dataSize = (do
      let count := popLength dataSize contents.length
      let data ← popTarget heap cells count
      if count ≤ data.length then
        .ok (count, some (some (contents.take count ++ data.drop count)),
          { buf with
            startPos := if contents.length - count = 0 then 0 else buf.startPos + count
            length := contents.length - count })
      else .fault .bounds) := by
  have count := popLength_le dataSize contents.length
  have inside := holds.window.inside
  have small := holds.small
  have whole := holds.whole
  rw [autoBufferPop]
  dsimp only
  rw [holds.length, popLength_eq]
  apply Exec.bind_congr_of rfl
  intro data
  rw [readCells, if_pos (by omega), holds.window.read count, readBytes_map, Exec.ok_bind,
    Nat.mod_eq_of_lt (by omega)]

/-- What a pop returns, and what is left. -/
theorem autoBufferPop_holds {heap : Heap} {buf after : AutoBuffer} {contents : Bytes}
    {cells : Option Bytes} {dataSize value : Nat} {out : Option (Option Bytes)}
    (holds : Holds heap buf contents)
    (pops : autoBufferPop heap buf (some cells) dataSize = .ok (value, out, after)) :
    value = popLength dataSize contents.length ∧
      (∃ data, out = some (some data) ∧ data.take value = contents.take value) ∧
      Holds heap after (contents.drop value) := by
  rw [autoBufferPop_eq holds] at pops
  obtain ⟨data, -, pops⟩ := Exec.bind_eq_ok.1 pops
  have count := popLength_le dataSize contents.length
  split at pops
  next =>
    cases pops
    have length : contents.length - popLength dataSize contents.length =
        (contents.drop (popLength dataSize contents.length)).length := List.length_drop.symm
    have front : (contents.take (popLength dataSize contents.length)).length =
        popLength dataSize contents.length := List.length_take_of_le count
    refine ⟨rfl, ⟨_, rfl, ?_⟩, ⟨length, holds.whole, holds.pages, holds.given, ?_⟩⟩
    · rw [List.take_append_of_le_length (le_of_eq front.symm), List.take_take, Nat.min_self]
    · show Window buf.data _ _
      split
      next none =>
        rw [length, List.length_eq_zero_iff] at none
        rw [none]
        exact Window.empty (Nat.zero_le _)
      next => exact holds.window.slide count
  next => cases pops

/-- A pop returns when there is room for the bytes. -/
theorem autoBufferPop_returns {heap : Heap} {buf : AutoBuffer} {contents : Bytes}
    {cells : Option Bytes} {dataSize : Nat} (holds : Holds heap buf contents)
    (room : ∀ array, cells = some array → popLength dataSize buf.length ≤ array.length) :
    (autoBufferPop heap buf (some cells) dataSize).Returns := by
  have count := popLength_le dataSize contents.length
  have given := holds.given
  have inside := holds.inside
  rw [holds.length] at room inside
  rw [autoBufferPop_eq holds]
  dsimp only
  cases cells with
  | none =>
      rw [popTarget, Exec.assert_of (show _ ≤ heap.limit by omega), Exec.ok_bind, Exec.ok_bind,
        if_pos (le_of_eq List.length_replicate.symm)]
      exact Exec.returns_ok _
  | some array =>
      rw [popTarget, Exec.ok_bind, if_pos (room array rfl)]
      exact Exec.returns_ok _

/-! ## Runs -/

/-- A call with its arguments. -/
inductive Call where
  | push (data : Option Chunk)
  | pop (pData : Option (Option Bytes)) (dataSize : Nat)

/-- The bytes that a call pushes. -/
def Call.pushed : Call → Bytes
  | push data => data.elim [] Subtype.val
  | pop _ _ => []

/-- The bytes behind `*p_data` that a pop has written. -/
def poppedBytes (out : Option (Option Bytes)) (length : Nat) : Bytes :=
  ((out.bind id).getD []).take length

/-- The buffer behind a call, and the bytes that the call pops. -/
def Call.run (heap : Heap) (buf : AutoBuffer) : Call → Exec (AutoBuffer × Bytes)
  | push data => do
      let (_, buf) ← autoBufferPush heap buf data
      .ok (buf, [])
  | pop pData dataSize => do
      let (length, out, buf) ← autoBufferPop heap buf pData dataSize
      .ok (buf, poppedBytes out length)

/-- The buffer behind calls, and the bytes they pop. -/
def runCalls (heap : Heap) : AutoBuffer → List Call → Exec (AutoBuffer × Bytes)
  | buf, [] => .ok (buf, [])
  | buf, call :: calls => do
      let (buf, popped) ← call.run heap buf
      let (buf, more) ← runCalls heap buf calls
      .ok (buf, popped ++ more)

/-- A call conserves the bytes. -/
theorem Call.run_holds {heap : Heap} {buf after : AutoBuffer} {contents popped : Bytes}
    {call : Call} (holds : Holds heap buf contents)
    (runs : call.run heap buf = .ok (after, popped)) :
    ∃ left, Holds heap after left ∧ Conserves contents call.pushed popped left := by
  cases call with
  | push data =>
      obtain ⟨⟨rc, pushed⟩, pushes, same⟩ := Exec.bind_eq_ok.1 runs
      cases same
      exact ⟨_, (autoBufferPush_holds holds pushes).2, Conserves.push _ _⟩
  | pop pData dataSize =>
      obtain ⟨⟨length, out, taken⟩, pops, same⟩ := Exec.bind_eq_ok.1 runs
      cases same
      cases pData with
      | none =>
          cases pops
          have nothing : poppedBytes none buf.length = [] := List.take_nil
          rw [nothing]
          exact ⟨contents, holds, Conserves.refl contents⟩
      | some cells =>
          obtain ⟨-, ⟨data, rfl, bytes⟩, left⟩ := autoBufferPop_holds holds pops
          refine ⟨_, left, ?_⟩
          have written : poppedBytes (some (some data)) length = contents.take length := bytes
          rw [written]
          exact Conserves.pop contents length

/-- Calls conserve the bytes. -/
theorem runCalls_holds {heap : Heap} : ∀ {calls : List Call} {buf after : AutoBuffer}
    {contents popped : Bytes}, Holds heap buf contents →
      runCalls heap buf calls = .ok (after, popped) →
      ∃ left, Holds heap after left ∧ Conserves contents (calls.flatMap Call.pushed) popped left
  | [], buf, _, contents, _, holds, runs => by
      cases runs
      exact ⟨contents, holds, Conserves.refl contents⟩
  | call :: calls, buf, after, contents, popped, holds, runs => by
      obtain ⟨⟨middle, first⟩, runs1, runs⟩ := Exec.bind_eq_ok.1 runs
      obtain ⟨⟨last, more⟩, runs2, same⟩ := Exec.bind_eq_ok.1 runs
      cases same
      obtain ⟨kept, middleHolds, conserves⟩ := Call.run_holds holds runs1
      obtain ⟨left, afterHolds, others⟩ := runCalls_holds middleHolds runs2
      refine ⟨left, afterHolds, ?_⟩
      rw [List.flatMap_cons]
      exact conserves.trans others

/-- After any calls on a new buffer, the bytes that were popped and those in the buffer are the
bytes that were pushed, and they lie inside the allocation; the next pop of `n > 0` bytes takes
`min n` of those there are, and the next push succeeds as long as the allocator gives memory. -/
theorem autoBuffer_fifo (heap : Heap) (size : Nat) (calls : List Call) (start buf : AutoBuffer)
    (popped : Bytes) (inits : autoBufferInit heap size = .ok start)
    (runs : runCalls heap start calls = .ok (buf, popped)) :
    popped ++ buf.contents = calls.flatMap Call.pushed ∧
      buf.contents.length = buf.length ∧
      buf.data.length = buf.size ∧ buf.startPos + buf.length ≤ buf.size ∧
      (∀ n cells, 0 < n →
        (∀ array, cells = some array → min n buf.length ≤ array.length) →
        ∃ data after, autoBufferPop heap buf (some cells) n =
            .ok (min n buf.length, some (some data), after) ∧
          data.take (min n buf.length) = buf.contents.take n ∧
          after.contents = buf.contents.drop n) ∧
      (∀ data : Chunk, roundedSize (buf.startPos + buf.length + data.val.length) ≤ heap.limit →
        ∃ after, autoBufferPush heap buf (some data) = .ok (0, after) ∧
          after.contents = buf.contents ++ data.val) := by
  obtain ⟨left, holds, conserves⟩ := runCalls_holds (autoBufferInit_holds inits) runs
  rw [holds.contents_eq]
  refine ⟨conserves.symm, holds.length.symm, holds.whole, holds.inside, ?_, ?_⟩
  · intro n cells positive room
    have count : popLength n buf.length = min n buf.length := if_neg (by omega)
    rw [← count] at room
    obtain ⟨⟨value, out, after⟩, pops⟩ := autoBufferPop_returns holds room
    obtain ⟨taken, ⟨data, rfl, bytes⟩, rest⟩ := autoBufferPop_holds holds pops
    rw [← holds.length, count] at taken
    subst taken
    refine ⟨data, after, pops, ?_, ?_⟩
    · rw [bytes, holds.length, ← List.take_take, List.take_length]
    · rw [rest.contents_eq, holds.length]
      by_cases short : n ≤ left.length
      · rw [Nat.min_eq_left short]
      · rw [Nat.min_eq_right (by omega), List.drop_length, List.drop_of_length_le (by omega)]
  · intro data given
    obtain ⟨⟨rc, after⟩, pushes⟩ := autoBufferPush_returns holds given
    obtain ⟨rfl, appended⟩ := autoBufferPush_holds holds pushes
    exact ⟨after, pushes, appended.contents_eq⟩

/-- Three bytes go in and two come out. -/
theorem autoBuffer_fifo_sample : ∃ buf popped,
    runCalls ⟨8192, by decide⟩ ⟨4096, 0, 0, List.replicate 4096 none⟩
      [.push (some ⟨[1, 2, 3], by decide⟩), .pop (some none) 2] = .ok (buf, popped) ∧
    popped ++ buf.contents = [1, 2, 3] ∧ buf.startPos + buf.length ≤ buf.size := by
  let heap : Heap := ⟨8192, by decide⟩
  let data : Chunk := ⟨[1, 2, 3], by decide⟩
  let start : AutoBuffer := ⟨4096, 0, 0, List.replicate 4096 none⟩
  have inits : autoBufferInit heap 0 = .ok start := rfl
  have given : roundedSize (start.startPos + start.length + data.val.length) ≤ heap.limit := by
    decide
  obtain ⟨⟨rc, pushed⟩, pushes⟩ := autoBufferPush_returns (autoBufferInit_holds inits) given
  have holds := (autoBufferPush_holds (autoBufferInit_holds inits) pushes).2
  have popReturns : (autoBufferPop heap pushed (some none) 2).Returns :=
    autoBufferPop_returns holds fun array same => nomatch same
  obtain ⟨⟨value, out, buf⟩, pops⟩ := popReturns
  have runs : runCalls heap start [.push (some data), .pop (some none) 2] =
      .ok (buf, poppedBytes out value) := by
    simp only [runCalls, Call.run, pushes, pops, Exec.ok_bind, List.nil_append, List.append_nil]
  have fifo := autoBuffer_fifo heap 0 _ start buf _ inits runs
  exact ⟨buf, _, runs, fifo.1, fifo.2.2.2.1⟩

end BitcoinClib.Utils
