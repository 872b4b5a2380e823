import BitcoinClib.Net.Message

/-!
Contract: the receiving side of a connection in `spv-node.c`.

Owns:
- the input buffer (`auto_buffer_push` and the size of its allocation);
- `on_read` with its inner loop over the complete messages of the buffer;
- the connection: `on_read` is called again until it returns a negative code.

A handler is a function from the messages handled so far and the present one to its return
code. A header that is read behind the allocation is a fault.
-/

namespace BitcoinClib.Net

open BitcoinClib.Lib
open BitcoinClib.Types
open BitcoinClib.Crypto

/-- What the connection depends on. -/
structure SpvNode where
  crypto : CryptoBackend
  magic : Nat
  Object : Type
  parsers : PayloadParsers Object
  onMessageHandler : List (BitcoinMessage Object) → BitcoinMessage Object → Int

/-- `AUTO_BUFFER_ALLOC_SIZE` -/
def autoBufferAllocSize : Nat := 4096

/-- `auto_buffer_t` with `start_pos = 0`: the bytes it holds and the size of the allocation. -/
structure AutoBuffer where
  data : Bytes
  size : Nat
deriving DecidableEq

/-- The buffer after `auto_buffer_cleanup`. -/
def AutoBuffer.empty : AutoBuffer := ⟨[], 0⟩

/-- `auto_buffer_resize` -/
def autoBufferResize (old size : Nat) : Nat :=
  let size := if size = 0 then autoBufferAllocSize
    else (size + autoBufferAllocSize - 1) / autoBufferAllocSize * autoBufferAllocSize
  if size ≤ old then old else size

/-- `auto_buffer_push` -/
def autoBufferPush (buf : AutoBuffer) (data : Bytes) : AutoBuffer :=
  if data = [] then buf
  else ⟨buf.data ++ data, autoBufferResize buf.size (buf.data.length + data.length)⟩

/-- The state of a connection: its buffer and the messages passed to the handler. -/
structure Connection (node : SpvNode) where
  inBuf : AutoBuffer
  handled : List (BitcoinMessage node.Object)

/-- What one `read()` finds. -/
inductive ReadEvent where
  | data (bytes : Bytes)
  | wouldBlock
deriving DecidableEq

variable (node : SpvNode)

/-- The loop over the messages of the buffer: the code, what is left from `p_start` on and the
messages handled. `slack` is the part of the allocation behind the received bytes. -/
def messageLoop (slack : Nat) :
    Nat → Int → Bytes → List (BitcoinMessage node.Object) →
      Exec (Int × Bytes × List (BitcoinMessage node.Object))
  | 0, _, _, _ => .timeout
  | fuel + 1, rc, p, handled =>
      if p = [] then .ok (rc, p, handled)
      -- `msg_hdr->length` is read before the header is known to be complete
      else if p.length + slack < 20 then .fault .bounds
      -- whatever an incomplete header holds as its length, the sum exceeds the end
      else if p.length < messageHeaderSize ∨ p.length < messageHeaderSize + hdrLength p then
        .ok (rc, p, handled)
      else if hdrMagic p ≠ node.magic then .ok (-1, p, handled)
      else
        match bitcoinMessageParse node.crypto node.parsers p with
        | none => .ok (-1, p, handled)
        | some message =>
            messageLoop slack fuel (node.onMessageHandler handled message)
              (p.drop (messageHeaderSize + hdrLength p)) (handled ++ [message])

/-- The part of `on_read` behind a successful `read()`. -/
def onReadData (connection : Connection node) (bytes : Bytes) :
    Exec (Int × Connection node) := do
  let inBuf := autoBufferPush connection.inBuf bytes
  if inBuf.data.length < messageHeaderSize then .ok (0, { connection with inBuf })
  else do
    let (rc, rest, handled) ← messageLoop node (inBuf.size - inBuf.data.length)
      (inBuf.data.length + 1) 0 inBuf.data connection.handled
    .ok (rc, ⟨{ inBuf with data := rest }, handled⟩)

/-- `on_read`: the code, the connection and what was not read. -/
def onRead : List ReadEvent → Connection node →
    Exec (Int × Connection node × List ReadEvent)
  | [], connection => .ok (0, connection, [])
  | .wouldBlock :: events, connection => .ok (0, connection, events)
  | .data bytes :: events, connection =>
      -- the peer has closed the connection
      if bytes = [] then .ok (-1, connection, events)
      else do
        let (rc, connection) ← onReadData node connection bytes
        if rc = 0 then onRead events connection else .ok (rc, connection, events)

/-- The polling loop of `spv_node_run` for one connection: `on_read` runs while there is
something to read and its code is not negative. -/
def spvNodeRun : Nat → List ReadEvent → Connection node → Exec (Int × Connection node)
  | 0, _, _ => .timeout
  | fuel + 1, events, connection =>
      if events = [] then .ok (0, connection)
      else do
        let (rc, connection, events) ← onRead node events connection
        if rc < 0 then .ok (rc, connection) else spvNodeRun fuel events connection

/-- Everything that arrives on a new connection; one poll for every event is enough. -/
def receive (events : List ReadEvent) : Exec (Int × Connection node) :=
  spvNodeRun node (events.length + 1) events ⟨.empty, []⟩

end BitcoinClib.Net
