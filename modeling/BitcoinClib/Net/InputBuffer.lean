import BitcoinClib.Net.OnRead
import BitcoinClib.Utils.AutoBuffer

/-!
Contract: the input buffer of a connection as `auto_buffer.c` keeps it.

Owns:
- `Stored`, that an allocation holds the bytes of an input buffer from its start on;
- an empty buffer is stored, and a push of what was read, the move of what is left and a whole
  pass of `on_read` keep it so.

Does not own: what `on_read` makes of the bytes.
-/

namespace BitcoinClib.Net

open BitcoinClib.Lib
open BitcoinClib.Types

/-- The allocation has the size of the buffer and holds its bytes from the start on. -/
structure Stored (heap : Utils.Heap) (buf : AutoBuffer) (cells : Utils.AutoBuffer) : Prop where
  holds : Utils.Holds heap cells buf.data
  size : cells.size = buf.size
  startPos : cells.startPos = 0

theorem stored_empty (heap : Utils.Heap) : Stored heap .empty ⟨0, 0, 0, []⟩ where
  holds := ⟨rfl, rfl, dvd_zero _, Nat.zero_le _, Window.empty (le_refl _)⟩
  size := rfl
  startPos := rfl

/-- Away from the end of `size_t` both descriptions round a size in the same way. -/
theorem roundedSize_eq {size : Nat} (positive : size ≠ 0) (room : size + 4096 ≤ 2 ^ 64) :
    Utils.roundedSize size =
      (size + autoBufferAllocSize - 1) / autoBufferAllocSize * autoBufferAllocSize := by
  have pages : autoBufferAllocSize = 4096 := rfl
  have ordinary : ¬ (size = 2 ^ 64 - 1 ∨ size = 0) := by omega
  rw [Utils.roundedSize, if_neg ordinary, pages]
  show (size + 4096 - 1) % 2 ^ 64 / 4096 * 4096 = _
  rw [Nat.mod_eq_of_lt (by omega)]

/-- What was read is appended to the allocation, when the allocator gives what is asked for. -/
theorem Stored.push {heap : Utils.Heap} {buf : AutoBuffer} {cells : Utils.AutoBuffer}
    (stored : Stored heap buf cells) (data : Utils.Chunk)
    (given : Utils.roundedSize (buf.data.length + data.val.length) ≤ heap.limit) :
    ∃ after, Utils.autoBufferPush heap cells (some data) = .ok (0, after) ∧
      Stored heap (autoBufferPush buf data.val) after := by
  have needed : cells.startPos + cells.length + data.val.length =
      buf.data.length + data.val.length := by
    rw [stored.startPos, stored.holds.length, Nat.zero_add]
  by_cases empty : data.val = []
  · refine ⟨cells, Utils.autoBufferPush_nil empty, ?_⟩
    rw [autoBufferPush, if_pos empty]
    exact stored
  · have room := stored.holds.minimalBufSize data
    have positive := List.length_pos_iff.2 empty
    rw [needed] at room
    have rounded := roundedSize_eq (by omega) room
    obtain ⟨⟨rc, after⟩, pushes⟩ :=
      Utils.autoBufferPush_returns stored.holds (by rw [needed]; exact given)
    obtain ⟨rfl, holds⟩ := Utils.autoBufferPush_holds stored.holds pushes
    refine ⟨after, pushes, ?_⟩
    rw [Utils.autoBufferPush_eq stored.holds empty, needed] at pushes
    obtain ⟨⟨code, sized⟩, resizes, appends⟩ := Exec.bind_eq_ok.1 pushes
    cases appends
    have total : buf.data.length + data.val.length ≠ 0 := by omega
    have pushed : autoBufferPush buf data.val = ⟨buf.data ++ data.val,
        if Utils.roundedSize (buf.data.length + data.val.length) ≤ cells.size then cells.size
        else Utils.roundedSize (buf.data.length + data.val.length)⟩ := by
      rw [autoBufferPush, if_neg empty, autoBufferResize, if_neg total, ← rounded, stored.size]
    rw [pushed]
    rw [Utils.autoBufferResize] at resizes
    split at resizes
    next enough =>
      cases resizes
      exact ⟨holds, (if_pos enough).symm, stored.startPos⟩
    next more =>
      obtain ⟨_, -, grown⟩ := Exec.bind_eq_ok.1 resizes
      cases grown
      exact ⟨holds, (if_neg more).symm, stored.startPos⟩

/-- `memmove` of what is left to the start of the allocation. -/
def moveToStart (cells : Utils.AutoBuffer) (rest : Bytes) : Utils.AutoBuffer :=
  { cells with
    data := rest.map some ++ cells.data.drop rest.length
    startPos := 0
    length := rest.length }

theorem Stored.leave {heap : Utils.Heap} {buf : AutoBuffer} {cells : Utils.AutoBuffer}
    (stored : Stored heap buf cells) {rest : Bytes} (fewer : rest.length ≤ buf.data.length) :
    Stored heap { buf with data := rest } (moveToStart cells rest) := by
  have inside := stored.holds.window.inside
  have whole : (moveToStart cells rest).data.length = cells.data.length := by
    simp only [moveToStart, List.length_append, List.length_map, List.length_drop]
    omega
  have window : Window (moveToStart cells rest).data 0 rest := by
    constructor
    · rw [whole]
      omega
    · rw [List.drop_zero]
      exact List.take_left' (List.length_map _)
  exact ⟨⟨rfl, whole.trans stored.holds.whole, stored.holds.pages, stored.holds.given, window⟩,
    stored.size, rfl⟩

/-- The loop leaves no more than it was given. -/
theorem messageLoop_fewer {node : SpvNode} {slack : Nat} : ∀ {fuel : Nat} {rc code : Int}
    {p rest : Bytes} {handled after : List (BitcoinMessage node.Object)},
    messageLoop node slack fuel rc p handled = .ok (code, rest, after) → rest.length ≤ p.length
  | 0, _, _, _, _, _, _, returns => nomatch returns
  | fuel + 1, rc, code, p, rest, handled, after, returns => by
      rw [messageLoop] at returns
      split at returns
      next =>
        cases returns
        exact le_refl _
      next =>
        split at returns
        next => cases returns
        next =>
          split at returns
          next =>
            cases returns
            exact le_refl _
          next =>
            split at returns
            next =>
              cases returns
              exact le_refl _
            next =>
              split at returns
              next =>
                cases returns
                exact le_refl _
              next message parses =>
                have fewer := messageLoop_fewer returns
                rw [List.length_drop] at fewer
                omega

/-- A pass of `on_read` that returns leaves its buffer in an allocation again. -/
theorem onReadData_stored {node : SpvNode} {heap : Utils.Heap} {connection after : Connection node}
    {cells : Utils.AutoBuffer} {rc : Int} (stored : Stored heap connection.inBuf cells)
    (data : Utils.Chunk)
    (given : Utils.roundedSize (connection.inBuf.data.length + data.val.length) ≤ heap.limit)
    (returns : onReadData node connection data.val = .ok (rc, after)) :
    ∃ left, Stored heap after.inBuf left := by
  obtain ⟨pushed, -, holds⟩ := stored.push data given
  unfold onReadData at returns
  dsimp only at returns
  split at returns
  next =>
    cases returns
    exact ⟨pushed, holds⟩
  next =>
    obtain ⟨⟨code, rest, handled⟩, loops, done⟩ := Exec.bind_eq_ok.1 returns
    cases done
    exact ⟨moveToStart pushed rest, holds.leave (messageLoop_fewer loops)⟩

end BitcoinClib.Net
