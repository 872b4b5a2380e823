import BitcoinClib.Types.Bytes

/-!
Contract: the sending side of a connection in `spv-node.c`.

Owns:
- the output buffer with its offset, `auto_buffer_get_data`;
- `on_write` with its loop over the answers of `write()`;
- what the function owes to the peer (`Delivered`), and for which answers it does
  (`onWrite_delivers_iff`).

Does not own: how messages get into the buffer, or the poll that calls `on_write`.
-/

namespace BitcoinClib.Net

open BitcoinClib.Types

/-- `auto_buffer_t`: the allocation, and where in it the bytes lie. -/
structure OutBuffer where
  data : Bytes
  startPos : Nat
  length : Nat
  inside : startPos + length ≤ data.length

/-- The bytes of the buffer. -/
def OutBuffer.contents (buf : OutBuffer) : Bytes := (buf.data.drop buf.startPos).take buf.length

/-- `auto_buffer_get_data`, as an index into the allocation. -/
def autoBufferGetData (buf : OutBuffer) : Nat := buf.startPos

/-- The fields of `spv_node_context_t` that `on_write` uses; `pollout` is `POLLOUT` in
`pfd->events`. -/
structure Outgoing where
  outBuf : OutBuffer
  pollout : Bool

/-- The reason why `write()` returned -1. -/
inductive WriteError where
  | wouldBlock
  | hardError
deriving DecidableEq, Repr

/-- The answers of `write()`: how many bytes it is ready to take each time, and the error it
ends with when more is written. -/
structure Socket where
  counts : List Nat
  last : WriteError

/-- The variables of `on_write` behind its loop, with the bytes that went to the socket. -/
structure WriteLoop where
  rc : Int
  data : Nat
  length : Nat
  sent : Bytes

/-- The code of a `write()` that took nothing. The test for a socket that would block looks at
`length`, not at `cb`. -/
def failedWrite (length : Int) (error : Option WriteError) : Int :=
  if length < 0 ∧ error = some .wouldBlock then 0 else -1

/-- The loop of `on_write` from the index `data` on. -/
def writeLoop (bytes : Bytes) (last : WriteError) : List Nat → Nat → Nat → Bytes → WriteLoop
  | [], data, length, sent =>
      if length = 0 then ⟨0, data, length, sent⟩
      else ⟨failedWrite length (some last), data, length, sent⟩
  | count :: counts, data, length, sent =>
      if length = 0 then ⟨0, data, length, sent⟩
      else
        let cb := min count length
        if cb = 0 then ⟨failedWrite length none, data, length, sent⟩
        else writeLoop bytes last counts (data + cb) (length - cb)
          (sent ++ (bytes.drop data).take cb)

/-- `memmove(out_buf->data, data, length)` -/
def moveToFront (bytes : Bytes) (data length : Nat) : Bytes :=
  (bytes.drop data).take length ++ bytes.drop length

/-- The loop does not move the end of the bytes. -/
theorem writeLoop_end (bytes : Bytes) (last : WriteError) :
    ∀ (counts : List Nat) (data length : Nat) (sent : Bytes),
      (writeLoop bytes last counts data length sent).data +
        (writeLoop bytes last counts data length sent).length = data + length
  | [], data, length, sent => by
      rw [writeLoop]
      by_cases finished : length = 0
      · rw [if_pos finished]
      · rw [if_neg finished]
  | count :: counts, data, length, sent => by
      rw [writeLoop]
      by_cases finished : length = 0
      · rw [if_pos finished]
      · rw [if_neg finished]
        by_cases nothing : min count length = 0
        · rw [if_pos nothing]
        · rw [if_neg nothing, writeLoop_end bytes last counts]
          omega

theorem moveToFront_length {bytes : Bytes} {data length : Nat}
    (inside : data + length ≤ bytes.length) :
    (moveToFront bytes data length).length = bytes.length := by
  simp only [moveToFront, List.length_append, List.length_take, List.length_drop]
  omega

theorem moveToFront_take {bytes : Bytes} {data length : Nat}
    (inside : data + length ≤ bytes.length) :
    (moveToFront bytes data length).take length = (bytes.drop data).take length := by
  have size : ((bytes.drop data).take length).length = length := by
    rw [List.length_take, List.length_drop]
    omega
  rw [moveToFront, List.take_append_of_le_length (by omega), List.take_of_length_le (by omega)]

/-- `on_write`: its code, the context and the bytes that went to the socket. -/
def onWrite (socket : Socket) (spv : Outgoing) : Int × Outgoing × Bytes :=
  let outBuf := spv.outBuf
  let loop := writeLoop outBuf.data socket.last socket.counts (autoBufferGetData outBuf)
    outBuf.length []
  have inside : loop.data + loop.length ≤ outBuf.data.length := by
    rw [writeLoop_end]
    exact outBuf.inside
  let outBuf : OutBuffer :=
    { data := if 0 < loop.length then moveToFront outBuf.data loop.data loop.length
        else outBuf.data
      startPos := 0
      length := loop.length
      inside := by
        split
        · rw [moveToFront_length inside]
          omega
        · omega }
  (loop.rc, { outBuf, pollout := spv.pollout && decide (0 < outBuf.length) }, loop.sent)

/-! ## What is owed to the peer -/

/-- How the writing of `length` bytes ends. -/
inductive Ending where
  | complete
  /-- `write()` took nothing, without an error -/
  | nothing
  | error (error : WriteError)
deriving DecidableEq, Repr

/-- The answers of a socket while `length` bytes are to be written. -/
def endingOf (last : WriteError) : List Nat → Nat → Ending
  | [], length => if length = 0 then .complete else .error last
  | count :: counts, length =>
      if length = 0 then .complete
      else if count = 0 then .nothing
      else endingOf last counts (length - count)

/-- Every byte is sent or still in the buffer, `POLLOUT` stays requested exactly while one is
left, and only a hard error is reported. -/
structure Delivered (ending : Ending) (before after : Outgoing) (sent : Bytes) (rc : Int) :
    Prop where
  conserved : sent ++ after.outBuf.contents = before.outBuf.contents
  requested : after.pollout = true ↔ before.pollout = true ∧ after.outBuf.contents ≠ []
  compacted : after.outBuf.startPos = 0
  code : rc = if ending = .error .hardError then -1 else 0

/-- `on_write` does what it owes. -/
def Delivers (socket : Socket) (spv : Outgoing) : Prop :=
  Delivered (endingOf socket.last socket.counts spv.outBuf.length) spv (onWrite socket spv).2.1
    (onWrite socket spv).2.2 (onWrite socket spv).1

/-- The test for a socket that would block never succeeds. -/
theorem failedWrite_eq (length : Nat) (error : Option WriteError) :
    failedWrite length error = -1 := by
  rw [failedWrite, if_neg]
  intro both
  omega

/-- What the loop sends goes to the socket before what it leaves. -/
theorem writeLoop_conserves (bytes : Bytes) (last : WriteError) :
    ∀ (counts : List Nat) (data length : Nat) (sent : Bytes),
      (writeLoop bytes last counts data length sent).sent ++
        (bytes.drop (writeLoop bytes last counts data length sent).data).take
          (writeLoop bytes last counts data length sent).length =
        sent ++ (bytes.drop data).take length
  | [], data, length, sent => by
      rw [writeLoop]
      by_cases finished : length = 0
      · rw [if_pos finished]
      · rw [if_neg finished]
  | count :: counts, data, length, sent => by
      rw [writeLoop]
      by_cases finished : length = 0
      · rw [if_pos finished]
      · rw [if_neg finished]
        by_cases nothing : min count length = 0
        · rw [if_pos nothing]
        · have split : (bytes.drop data).take length =
              (bytes.drop data).take (min count length) ++
                (bytes.drop (data + min count length)).take (length - min count length) := by
            rw [← List.drop_drop, ← List.take_add]
            congr 1
            omega
          rw [if_neg nothing, writeLoop_conserves bytes last counts, split, List.append_assoc]

/-- The code of the loop is 0 where everything was written, and -1 otherwise. -/
theorem writeLoop_rc (bytes : Bytes) (last : WriteError) :
    ∀ (counts : List Nat) (data length : Nat) (sent : Bytes),
      (writeLoop bytes last counts data length sent).rc =
        if endingOf last counts length = .complete then 0 else -1
  | [], data, length, sent => by
      rw [writeLoop, endingOf]
      by_cases finished : length = 0
      · rw [if_pos finished, if_pos finished, if_pos rfl]
      · rw [if_neg finished, if_neg finished, if_neg (fun same => nomatch same)]
        exact failedWrite_eq length (some last)
  | count :: counts, data, length, sent => by
      rw [writeLoop, endingOf]
      by_cases finished : length = 0
      · rw [if_pos finished, if_pos finished, if_pos rfl]
      · rw [if_neg finished, if_neg finished]
        by_cases nothing : count = 0
        · rw [if_pos (by omega), if_pos nothing, if_neg (by decide)]
          exact failedWrite_eq length none
        · rw [if_neg (by omega), if_neg nothing, writeLoop_rc bytes last counts]
          have left : length - min count length = length - count := by omega
          rw [left]

theorem onWrite_rc (socket : Socket) (spv : Outgoing) :
    (onWrite socket spv).1 =
      if endingOf socket.last socket.counts spv.outBuf.length = .complete then 0 else -1 :=
  writeLoop_rc _ _ _ _ _ _

theorem onWrite_conserves (socket : Socket) (spv : Outgoing) :
    (onWrite socket spv).2.2 ++ (onWrite socket spv).2.1.outBuf.contents =
      spv.outBuf.contents := by
  have conserves := writeLoop_conserves spv.outBuf.data socket.last socket.counts
    (autoBufferGetData spv.outBuf) spv.outBuf.length []
  have inside := writeLoop_end spv.outBuf.data socket.last socket.counts
    (autoBufferGetData spv.outBuf) spv.outBuf.length []
  have bound := spv.outBuf.inside
  change _ = [] ++ spv.outBuf.contents at conserves
  rw [List.nil_append] at conserves
  rw [← conserves]
  simp only [onWrite, OutBuffer.contents, List.drop_zero]
  generalize writeLoop spv.outBuf.data socket.last socket.counts
    (autoBufferGetData spv.outBuf) spv.outBuf.length [] = loop at *
  congr 1
  by_cases remains : 0 < loop.length
  · rw [if_pos remains]
    exact moveToFront_take (by rw [inside]; exact bound)
  · have empty : loop.length = 0 := by omega
    rw [empty, List.take_zero, List.take_zero]

/-- The contents are as long as the buffer says. -/
theorem OutBuffer.contents_eq_nil {buf : OutBuffer} : buf.contents = [] ↔ buf.length = 0 := by
  have inside := buf.inside
  rw [← List.length_eq_zero_iff, OutBuffer.contents, List.length_take, List.length_drop]
  omega

theorem onWrite_requested (socket : Socket) (spv : Outgoing) :
    (onWrite socket spv).2.1.pollout = true ↔
      spv.pollout = true ∧ (onWrite socket spv).2.1.outBuf.contents ≠ [] := by
  rw [Ne, OutBuffer.contents_eq_nil]
  simp only [onWrite, Bool.and_eq_true, decide_eq_true_eq]
  rw [Nat.pos_iff_ne_zero]

/-- No byte is lost or repeated whatever the socket answers; the code is right exactly where
everything is written or a hard error ends the writing. -/
theorem onWrite_delivers_iff (socket : Socket) (spv : Outgoing) :
    Delivers socket spv ↔
      endingOf socket.last socket.counts spv.outBuf.length = .complete ∨
        endingOf socket.last socket.counts spv.outBuf.length = .error .hardError := by
  have code := onWrite_rc socket spv
  unfold Delivers
  generalize endingOf socket.last socket.counts spv.outBuf.length = ending at *
  constructor
  · intro delivered
    have owed := delivered.code
    rw [code] at owed
    cases ending with
    | complete => exact Or.inl rfl
    | nothing => exact absurd owed (by decide)
    | error error =>
        cases error with
        | wouldBlock => exact absurd owed (by decide)
        | hardError => exact Or.inr rfl
  · intro ends
    refine ⟨onWrite_conserves socket spv, onWrite_requested socket spv, rfl, ?_⟩
    rw [code]
    rcases ends with rfl | rfl
    · rfl
    · rfl

/-- Two bytes wait; the socket takes one and would block then. -/
theorem onWrite_wouldBlock :
    (onWrite ⟨[1], .wouldBlock⟩ ⟨⟨[7, 8], 0, 2, by decide⟩, true⟩).1 = -1 ∧
      ¬ Delivers ⟨[1], .wouldBlock⟩ ⟨⟨[7, 8], 0, 2, by decide⟩, true⟩ := by
  refine ⟨by decide, ?_⟩
  intro delivers
  have code := delivers.code
  exact absurd code (by decide)

end BitcoinClib.Net
