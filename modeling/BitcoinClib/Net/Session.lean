import BitcoinClib.Net.Dispatch
import BitcoinClib.Net.Framing
import BitcoinClib.Net.OnWrite

/-!
Contract: a connection of the node while it reads and writes.

Owns:
- `on_read` with the callbacks of the node, `on_write` on its output buffer, and the polls of
  `spv_node_run` that call them in any order;
- `Answers`, that a callback only appends to the output buffer and does not look at it;
- `Serves`, what the loop over the messages makes of a stream, whatever is cut off behind it;
- `session_transcript` and `session_same`.

Does not own: connecting and its retries. The version message that opens a connection is what the
output buffer holds at its start.
-/

namespace BitcoinClib.Net

open BitcoinClib.Lib
open BitcoinClib.Types
open BitcoinClib.Crypto
open BitcoinClib.Chains

variable {env : NodeEnv}

/-! ## The connection -/

/-- The buffers of a connection with the context of the node, what went over the wire so far, and
whether the socket is open. -/
structure Session (env : NodeEnv) where
  inBuf : AutoBuffer
  spv : SpvNodeContext env
  received : Bytes
  sent : Bytes
  isOpen : Bool

/-- A connection whose output buffer holds the version message. -/
def Session.connected (spv : SpvNodeContext env) : Session env := ⟨.empty, spv, [], [], true⟩

/-- The loop of `on_read` over the messages of the buffer: the code, what is left from `p_start`
on and the context. -/
def serveLoop (magic slack : Nat) :
    Nat → Int → Bytes → SpvNodeContext env → Exec (Int × Bytes × SpvNodeContext env)
  | 0, _, _, _ => .timeout
  | fuel + 1, rc, p, spv =>
      if p = [] then .ok (rc, p, spv)
      -- `msg_hdr->length` is read before the header is known to be complete
      else if p.length + slack < 20 then .fault .bounds
      else if p.length < messageHeaderSize ∨ p.length < messageHeaderSize + hdrLength p then
        .ok (rc, p, spv)
      else if hdrMagic p ≠ magic then .ok (-1, p, spv)
      else
        match bitcoinMessageParse env.crypto (sPayloadParsers env.messages) p with
        | none => .ok (-1, p, spv)
        | some message => do
            let (rc, spv) ← onMessageHandler spv message
            serveLoop magic slack fuel rc (p.drop (messageHeaderSize + hdrLength p)) spv

/-- The part of `on_read` behind a successful `read()`. -/
def readChunk (magic : Nat) (s : Session env) (bytes : Bytes) : Exec (Int × Session env) := do
  let inBuf := autoBufferPush s.inBuf bytes
  let s := { s with inBuf := inBuf, received := s.received ++ bytes }
  if inBuf.data.length < messageHeaderSize then .ok (0, s)
  else do
    let (rc, rest, spv) ← serveLoop magic (inBuf.size - inBuf.data.length)
      (inBuf.data.length + 1) 0 inBuf.data s.spv
    .ok (rc, { s with inBuf := { inBuf with data := rest }, spv := spv })

/-- `on_read` on what `read()` finds until it would block. -/
def readChunks (magic : Nat) : List Bytes → Session env → Exec (Int × Session env)
  | [], s => .ok (0, s)
  | bytes :: chunks, s =>
      -- the peer has closed the connection
      if bytes = [] then .ok (-1, s)
      else do
        let (rc, s) ← readChunk magic s bytes
        if rc = 0 then readChunks magic chunks s else .ok (rc, s)

/-- The output buffer with these bytes; nobody pops it, so its offset is 0. -/
def outBufferOf (bytes : Bytes) : OutBuffer := ⟨bytes, 0, bytes.length, le_of_eq (Nat.zero_add _)⟩

/-- `on_write` -/
def writeOut (socket : Socket) (s : Session env) : Int × Session env :=
  let (rc, out, bytes) := onWrite socket ⟨outBufferOf s.spv.outBuf, true⟩
  (rc, { s with
    spv := { s.spv with outBuf := out.outBuf.contents }
    sent := s.sent ++ bytes })

/-- What `ppoll` reports: the chunks that can be read, a socket that can be written to, and whether
the peer has hung up. -/
structure Poll where
  readable : Option (List Bytes)
  writable : Option Socket
  hangup : Bool

/-- `if(pfd[0].revents & POLLIN) rc = on_read(pfd, spv)` -/
def pollRead (magic : Nat) (s : Session env) : Option (List Bytes) → Exec (Int × Session env)
  | none => .ok (0, s)
  | some chunks => readChunks magic chunks s

/-- `if(0 == rc && (pfd[0].revents & POLLOUT)) rc = on_write(pfd, spv)` -/
def pollWrite (rc : Int) (s : Session env) : Option Socket → Int × Session env
  | none => (rc, s)
  | some socket => if rc = 0 then writeOut socket s else (rc, s)

/-- The body of the polling loop of `spv_node_run`. -/
def pollOnce (magic : Nat) (poll : Poll) (s : Session env) : Exec (Session env) := do
  let (rc, s) ← pollRead magic s poll.readable
  let (rc, s) := pollWrite rc s poll.writable
  .ok { s with isOpen := !(decide (rc < 0) || poll.hangup) }

/-- The polling loop of `spv_node_run` for one connection; a closed one is polled no more. -/
def sessionRun (magic : Nat) : List Poll → Session env → Exec (Session env)
  | [], s => .ok s
  | poll :: polls, s =>
      if s.isOpen then do
        let s ← pollOnce magic poll s
        sessionRun magic polls s
      else .ok s

/-! ## Callbacks and the output buffer -/

/-- The context with these bytes to be sent. -/
def SpvNodeContext.withOut (spv : SpvNodeContext env) (bytes : Bytes) : SpvNodeContext env :=
  { spv with outBuf := bytes }

/-- What a callback returns is the same whatever waits in the output buffer, and its reply is put
behind that. -/
def Answers (outcome : SpvNodeContext env → Exec (Int × SpvNodeContext env)) : Prop :=
  ∀ spv rc after, outcome spv = .ok (rc, after) →
    ∃ reply, after.outBuf = spv.outBuf ++ reply ∧
      ∀ before, outcome (spv.withOut before) = .ok (rc, after.withOut (before ++ reply))

theorem SpvNodeContext.withOut_outBuf (spv : SpvNodeContext env) :
    spv.withOut spv.outBuf = spv := rfl

namespace Answers

/-- A callback that changes other fields. -/
theorem changes (rc : Int) {change : SpvNodeContext env → SpvNodeContext env}
    (keeps : ∀ spv, (change spv).outBuf = spv.outBuf)
    (commutes : ∀ spv bytes, change (spv.withOut bytes) = (change spv).withOut bytes) :
    Answers fun spv => .ok (rc, change spv) := by
  intro spv code after returns
  cases returns
  refine ⟨[], ?_, ?_⟩
  · rw [keeps, List.append_nil]
  · intro before
    dsimp only
    rw [commutes, List.append_nil]

/-- A callback that changes nothing. -/
theorem same (rc : Int) : Answers fun spv : SpvNodeContext env => .ok (rc, spv) :=
  changes rc (fun _ => rfl) (fun _ _ => rfl)

/-- A callback that changes other fields and pushes a reply that does not depend on the output
buffer. -/
theorem pushes (rc : Int) {change : SpvNodeContext env → SpvNodeContext env} (reply : Bytes)
    (keeps : ∀ spv, (change spv).outBuf = spv.outBuf)
    (commutes : ∀ spv bytes, change (spv.withOut bytes) = (change spv).withOut bytes) :
    Answers fun spv => .ok (rc, (change spv).pushOut reply) := by
  intro spv code after returns
  cases returns
  refine ⟨reply, ?_, ?_⟩
  · show (change spv).outBuf ++ reply = _
    rw [keeps]
  · intro before
    dsimp only
    rw [commutes]
    rfl

theorem faults (cause : Fault) :
    Answers fun _ : SpvNodeContext env => .fault cause := by
  intro spv rc after returns
  cases returns

/-- Something that does not look at the context comes first. -/
theorem first {α : Type} (run : Exec α)
    {next : α → SpvNodeContext env → Exec (Int × SpvNodeContext env)}
    (answers : ∀ value, Answers (next value)) :
    Answers fun spv => run >>= fun value => next value spv := by
  intro spv rc after returns
  obtain ⟨value, runs, returns⟩ := Exec.bind_eq_ok.1 returns
  obtain ⟨reply, appended, elsewhere⟩ := answers value spv rc after returns
  refine ⟨reply, appended, ?_⟩
  intro before
  dsimp only
  rw [runs, Exec.ok_bind, elsewhere before]

end Answers

/-- `spv_node_send_message` appends to the output buffer. -/
theorem spvNodeSendMessage_answers (rc : Int) (magic : Bytes) (command : String)
    (object : MessageObject env.Tx env.Block) :
    Answers fun spv : SpvNodeContext env =>
      .ok (rc, spvNodeSendMessage spv magic command object) := by
  unfold spvNodeSendMessage
  cases env.messages.serialize object with
  | none => exact Answers.same rc
  | some payload =>
      exact Answers.pushes rc _ (fun _ => rfl) (fun _ _ => rfl)

theorem pullHeaders_answers (magic : Bytes) (maxHashes : Nat) :
    Answers fun spv : SpvNodeContext env => pullHeaders spv magic maxHashes := by
  intro spv rc after returns
  dsimp only [pullHeaders] at returns
  obtain ⟨_, check, returns⟩ := Exec.bind_eq_ok.1 returns
  obtain ⟨chosen, set, returns⟩ := Exec.bind_eq_ok.1 returns
  cases chosen with
  | none =>
      obtain ⟨reply, appended, elsewhere⟩ := Answers.same (-1) spv rc after returns
      refine ⟨reply, appended, ?_⟩
      intro before
      rw [← elsewhere before]
      dsimp only [pullHeaders, SpvNodeContext.withOut]
      rw [check, Exec.ok_bind, set]
      rfl
  | some getheaders =>
      obtain ⟨reply, appended, elsewhere⟩ := spvNodeSendMessage_answers 0 magic "getheaders"
        (.getheaders getheaders) spv rc after returns
      refine ⟨reply, appended, ?_⟩
      intro before
      rw [← elsewhere before]
      dsimp only [pullHeaders, SpvNodeContext.withOut]
      rw [check, Exec.ok_bind, set]
      rfl

theorem onMessageDumped_answers (inMsg : InMessage env) :
    Answers fun spv => onMessageDumped spv inMsg :=
  Answers.first (dumpObject inMsg) fun _ => Answers.same 0

theorem onMessageVersion_answers (inMsg : InMessage env) :
    Answers fun spv => onMessageVersion spv inMsg := by
  apply Answers.first (dumpObject inMsg)
  intro _
  obtain ⟨msgData, msgType, msgObject⟩ := inMsg
  cases msgObject with
  | none => exact Answers.faults .assertion
  | some object =>
      cases object with
      | version msgVer => exact Answers.pushes 0 _ (fun _ => rfl) (fun _ _ => rfl)
      | _ => exact Answers.faults .pointer

theorem onMessageAddr_answers (inMsg : InMessage env) :
    Answers fun spv => onMessageAddr spv inMsg := by
  obtain ⟨msgData, msgType, msgObject⟩ := inMsg
  cases msgObject with
  | none => exact Answers.faults .assertion
  | some object =>
      cases object with
      | addr addrs => exact Answers.changes 0 (fun _ => rfl) (fun _ _ => rfl)
      | _ => exact Answers.faults .pointer

theorem onMessagePing_answers (inMsg : InMessage env) :
    Answers fun spv => onMessagePing spv inMsg :=
  Answers.first (Exec.assert (hdrLength inMsg.msgData = 8)) fun _ =>
    Answers.pushes 0 _ (fun _ => rfl) (fun _ _ => rfl)

theorem onMessageInv_answers (inMsg : InMessage env) :
    Answers fun spv => App.onMessageInv spv inMsg := by
  apply Answers.first (dumpObject inMsg)
  intro _
  obtain ⟨msgData, msgType, msgObject⟩ := inMsg
  cases msgObject with
  | none => exact Answers.faults .pointer
  | some object =>
      cases object with
      | inv invs => exact spvNodeSendMessage_answers 0 _ _ _
      | _ => exact Answers.faults .pointer

theorem onMessageHeaders_answers (inMsg : InMessage env) :
    Answers fun spv => App.onMessageHeaders spv inMsg := by
  obtain ⟨msgData, msgType, msgObject⟩ := inMsg
  cases msgObject with
  | none => exact Answers.same 0
  | some object =>
      cases object with
      | headers hdrs =>
          cases hdrs with
          | nil => exact Answers.same 0
          | cons hdr hdrs =>
              intro spv rc after returns
              obtain ⟨chain, added, returns⟩ := Exec.bind_eq_ok.1 returns
              obtain ⟨⟨code, pulled⟩, pulls, returns⟩ := Exec.bind_eq_ok.1 returns
              obtain ⟨_, check, returns⟩ := Exec.bind_eq_ok.1 returns
              cases returns
              obtain ⟨reply, appended, elsewhere⟩ :=
                pullHeaders_answers _ _ { spv with chain } _ _ pulls
              refine ⟨reply, appended, ?_⟩
              intro before
              have added' : App.addHeaders env (hdr :: hdrs) (spv.withOut before).chain =
                  .ok chain := added
              dsimp only [App.onMessageHeaders]
              rw [added', Exec.ok_bind]
              have pulls' := elsewhere before
              dsimp only at pulls'
              show (pullHeaders _ _ _ >>= _) = _
              rw [show ({ spv.withOut before with chain } : SpvNodeContext env) =
                ({ spv with chain } : SpvNodeContext env).withOut before from rfl, pulls',
                Exec.ok_bind]
              dsimp only
              rw [check]
              rfl
      | _ => exact Answers.faults .pointer

/-- No callback looks at the output buffer, and each only appends its reply to it. -/
theorem onMessageHandler_answers (inMsg : InMessage env) :
    Answers fun spv => onMessageHandler spv inMsg := by
  obtain ⟨msgData, msgType, msgObject⟩ := inMsg
  cases msgType with
  | version => exact onMessageVersion_answers _
  | verack => exact pullHeaders_answers _ 0
  | addr => exact onMessageAddr_answers _
  | inv => exact onMessageInv_answers _
  | ping => exact onMessagePing_answers _
  | headers => exact onMessageHeaders_answers _
  | sendheaders => exact Answers.changes 0 (fun _ => rfl) (fun _ _ => rfl)
  | unknown => exact Answers.same (-1)
  | getdata => exact onMessageDumped_answers _
  | notfound => exact onMessageDumped_answers _
  | getblocks => exact onMessageDumped_answers _
  | getheaders => exact onMessageDumped_answers _
  | tx => exact onMessageDumped_answers _
  | block => exact onMessageDumped_answers _
  | _ => exact Answers.same 0

/-! ## Codes of the callbacks -/

theorem onMessageDumped_rc {spv after : SpvNodeContext env} {inMsg : InMessage env} {rc : Int}
    (returns : onMessageDumped spv inMsg = .ok (rc, after)) : rc = 0 := by
  obtain ⟨_, -, done⟩ := Exec.bind_eq_ok.1 returns
  cases done
  rfl

theorem onMessageHeaders_rc {spv after : SpvNodeContext env} {inMsg : InMessage env} {rc : Int}
    (returns : App.onMessageHeaders spv inMsg = .ok (rc, after)) : rc = 0 := by
  obtain ⟨msgData, msgType, msgObject⟩ := inMsg
  cases msgObject with
  | none =>
      cases returns
      rfl
  | some object =>
      cases object with
      | headers hdrs =>
          cases hdrs with
          | nil =>
              cases returns
              rfl
          | cons hdr hdrs =>
              obtain ⟨chain, -, returns⟩ := Exec.bind_eq_ok.1 returns
              obtain ⟨⟨code, pulled⟩, -, returns⟩ := Exec.bind_eq_ok.1 returns
              obtain ⟨_, check, returns⟩ := Exec.bind_eq_ok.1 returns
              cases returns
              exact Exec.assert_eq_ok.1 check
      | _ => cases returns

/-- The callback of a known type returns 0, if it returns. -/
theorem onMessageHandler_rc {spv after : SpvNodeContext env} {inMsg : InMessage env} {rc : Int}
    (known : inMsg.msgType ≠ .unknown) (returns : onMessageHandler spv inMsg = .ok (rc, after)) :
    rc = 0 := by
  obtain ⟨msgData, msgType, msgObject⟩ := inMsg
  cases msgType with
  | unknown => exact absurd rfl known
  | version =>
      obtain ⟨_, -, returns⟩ := Exec.bind_eq_ok.1 returns
      cases msgObject with
      | none => cases returns
      | some object =>
          cases object with
          | version msgVer =>
              cases returns
              rfl
          | _ => cases returns
  | verack =>
      obtain ⟨other, pulls⟩ := pullHeaders_returns spv (msgData.take 4) (.inl rfl)
      have same : pullHeaders spv (msgData.take 4) 0 = .ok (rc, after) := returns
      rw [pulls] at same
      cases same
      rfl
  | addr =>
      cases msgObject with
      | none => cases returns
      | some object =>
          cases object with
          | addr addrs =>
              cases returns
              rfl
          | _ => cases returns
  | inv =>
      obtain ⟨_, -, returns⟩ := Exec.bind_eq_ok.1 returns
      cases msgObject with
      | none => cases returns
      | some object =>
          cases object with
          | inv invs =>
              cases returns
              rfl
          | _ => cases returns
  | ping =>
      obtain ⟨_, -, returns⟩ := Exec.bind_eq_ok.1 returns
      cases returns
      rfl
  | headers => exact onMessageHeaders_rc returns
  | getdata => exact onMessageDumped_rc returns
  | notfound => exact onMessageDumped_rc returns
  | getblocks => exact onMessageDumped_rc returns
  | getheaders => exact onMessageDumped_rc returns
  | tx => exact onMessageDumped_rc returns
  | block => exact onMessageDumped_rc returns
  | _ =>
      cases returns
      rfl

/-! ## Streams of messages -/

/-- A whole message that the node takes. -/
structure IsMessage (env : NodeEnv) (magic : Nat) (frame : Bytes) : Prop where
  header : messageHeaderSize ≤ frame.length
  whole : frame.length = messageHeaderSize + hdrLength frame
  network : hdrMagic frame = magic
  recognised : Recognised env frame

/-- What the loop over the messages makes of a stream: the messages it handles, its code and what
it leaves. -/
inductive Serves (magic : Nat) : SpvNodeContext env → Bytes → List Bytes → Int → Bytes →
    SpvNodeContext env → Prop where
  | waits {spv : SpvNodeContext env} {p : Bytes} (incomplete : messageFrames.size p = none) :
      Serves magic spv p [] 0 p spv
  | refuses {spv : SpvNodeContext env} {p : Bytes} {n : Nat}
      (complete : messageFrames.size p = some n) (refused : ¬ IsMessage env magic (p.take n)) :
      Serves magic spv p [] (-1) p spv
  | handles {spv next after : SpvNodeContext env} {frame rest left : Bytes}
      {messages : List Bytes} {rc : Int} (message : IsMessage env magic frame)
      (handled : onMessageHandler spv (acceptedMessage env frame) = .ok (0, next))
      (goesOn : Serves magic next rest messages rc left after) :
      Serves magic spv (frame ++ rest) (frame :: messages) rc left after

/-- The messages of a list, one after the other. -/
def handleMessages : SpvNodeContext env → List Bytes → Exec (SpvNodeContext env)
  | spv, [] => .ok spv
  | spv, frame :: messages => do
      let (_, spv) ← handleMessage spv frame
      handleMessages spv messages

section Frames

variable {p : Bytes} {n : Nat} (found : messageFrames.size p = some n)

include found

theorem hdrLength_frame : hdrLength (p.take n) = hdrLength p := by
  obtain ⟨header, rfl, inside⟩ := size_eq_some found
  exact hdrLength_take (by omega)

theorem hdrCommand_frame : hdrCommand (p.take n) = hdrCommand p := by
  obtain ⟨header, rfl, inside⟩ := size_eq_some found
  unfold hdrCommand
  rw [List.drop_take, List.take_take, Nat.min_eq_left (by omega)]

theorem hdrChecksum_frame : hdrChecksum (p.take n) = hdrChecksum p := by
  obtain ⟨header, rfl, inside⟩ := size_eq_some found
  unfold hdrChecksum
  rw [List.drop_take, List.take_take, Nat.min_eq_left (by omega)]

theorem hdrMagic_frame : hdrMagic (p.take n) = hdrMagic p := by
  obtain ⟨header, rfl, inside⟩ := size_eq_some found
  exact hdrMagic_take (by omega)

theorem payloadOf_frame : payloadOf (p.take n) = payloadOf p := by
  have length := hdrLength_frame found
  obtain ⟨header, rfl, inside⟩ := size_eq_some found
  have size : messageHeaderSize = 24 := rfl
  rw [payloadOf, payloadOf, length, List.drop_take, List.take_take,
    Nat.min_eq_left (by omega)]

theorem recognised_frame : Recognised env (p.take n) ↔ Recognised env p := by
  rw [Recognised, Recognised, messageTypeOf, messageTypeOf, hdrCommand_frame found,
    payloadOf_frame found, hdrChecksum_frame found]

theorem frame_length : (p.take n).length = n ∧ n = messageHeaderSize + hdrLength p := by
  obtain ⟨header, same, inside⟩ := size_eq_some found
  exact ⟨List.length_take_of_le inside, same⟩

/-- The front of a stream is a message exactly when its header says so. -/
theorem isMessage_frame {magic : Nat} :
    IsMessage env magic (p.take n) ↔ hdrMagic p = magic ∧ Recognised env p := by
  obtain ⟨length, same⟩ := frame_length found
  constructor
  · intro message
    exact ⟨hdrMagic_frame found ▸ message.network, (recognised_frame found).1 message.recognised⟩
  · intro right
    refine ⟨?_, ?_, (hdrMagic_frame found).trans right.1, (recognised_frame found).2 right.2⟩
    · rw [length, same]
      exact Nat.le_add_right _ _
    · rw [length, hdrLength_frame found, same]

theorem acceptedMessage_frame : acceptedMessage env (p.take n) = acceptedMessage env p := by
  obtain ⟨length, same⟩ := frame_length found
  have data : (p.take n).take (messageHeaderSize + hdrLength (p.take n)) =
      p.take (messageHeaderSize + hdrLength p) := by
    rw [hdrLength_frame found, List.take_take, ← same, Nat.min_self]
  rw [acceptedMessage, acceptedMessage, data, messageTypeOf, messageTypeOf,
    hdrCommand_frame found, hdrLength_frame found, payloadOf_frame found]

end Frames

/-- A message in front of other bytes. -/
theorem IsMessage.size {magic : Nat} {frame : Bytes} (message : IsMessage env magic frame)
    (rest : Bytes) : messageFrames.size (frame ++ rest) = some frame.length := by
  have header := message.header
  have whole := message.whole
  have size : messageHeaderSize = 24 := rfl
  have length : hdrLength (frame ++ rest) = hdrLength frame := hdrLength_append (by omega) rest
  show (if 24 ≤ (frame ++ rest).length ∧ 24 + hdrLength (frame ++ rest) ≤ (frame ++ rest).length
    then some (24 + hdrLength (frame ++ rest)) else none) = _
  rw [length, List.length_append, if_pos (by omega), whole]
  rfl

/-- The loop that reads a stream serves it, whatever lies behind the stream. -/
theorem serveLoop_serves {magic slack : Nat} : ∀ {fuel : Nat} {p left : Bytes}
    {spv after : SpvNodeContext env} {rc : Int},
    serveLoop magic slack fuel 0 p spv = .ok (rc, left, after) →
      ∃ messages, Serves magic spv p messages rc left after
  | 0, _, _, _, _, _, returns => by cases returns
  | fuel + 1, p, left, spv, after, rc, returns => by
      rw [serveLoop] at returns
      split at returns
      next empty =>
        cases returns
        subst empty
        exact ⟨[], .waits rfl⟩
      next =>
        split at returns
        next => cases returns
        next =>
          split at returns
          next incomplete =>
            cases returns
            exact ⟨[], .waits (size_eq_none.2 incomplete)⟩
          next complete =>
            have found : messageFrames.size p = some (messageHeaderSize + hdrLength p) :=
              if_pos (by
                have size : messageHeaderSize = 24 := rfl
                omega)
            split at returns
            next other =>
              cases returns
              exact ⟨[], .refuses found fun message => other ((isMessage_frame found).1 message).1⟩
            next network =>
              have network := not_not.1 network
              by_cases recognised : Recognised env p
              · rw [bitcoinMessageParse_recognised recognised] at returns
                obtain ⟨⟨code, next⟩, handled, goesOn⟩ := Exec.bind_eq_ok.1 returns
                have zero := onMessageHandler_rc recognised.1 handled
                subst zero
                obtain ⟨messages, serves⟩ := serveLoop_serves goesOn
                rw [← acceptedMessage_frame found] at handled
                refine ⟨p.take (messageHeaderSize + hdrLength p) :: messages, ?_⟩
                have whole := Serves.handles ((isMessage_frame found).2 ⟨network, recognised⟩)
                  handled serves
                rw [List.take_append_drop] at whole
                exact whole
              · rw [bitcoinMessageParse_refused recognised] at returns
                cases returns
                exact ⟨[], .refuses found fun message =>
                  recognised ((isMessage_frame found).1 message).2⟩

namespace Serves

variable {magic : Nat} {spv mid after : SpvNodeContext env} {p left rest last : Bytes}
  {messages more : List Bytes} {rc : Int}

/-- The stream is the messages handled and what is left. -/
theorem stream (serves : Serves magic spv p messages rc left after) :
    p = messages.flatten ++ left := by
  induction serves with
  | waits incomplete => rfl
  | refuses complete refused => rfl
  | handles message handled goesOn inductionHypothesis =>
      rw [List.flatten_cons, List.append_assoc, ← inductionHypothesis]

theorem all_messages (serves : Serves magic spv p messages rc left after) :
    ∀ frame ∈ messages, IsMessage env magic frame := by
  induction serves with
  | waits incomplete => exact fun frame member => absurd member List.not_mem_nil
  | refuses complete refused => exact fun frame member => absurd member List.not_mem_nil
  | handles message handled goesOn inductionHypothesis =>
      intro frame member
      rcases List.mem_cons.1 member with rfl | later
      · exact message
      · exact inductionHypothesis frame later

/-- What is left after code 0 holds no whole message. -/
theorem left_incomplete (serves : Serves magic spv p messages rc left after) (zero : rc = 0) :
    messageFrames.size left = none := by
  induction serves with
  | waits incomplete => exact incomplete
  | refuses complete refused => cases zero
  | handles message handled goesOn inductionHypothesis => exact inductionHypothesis zero

theorem handled (serves : Serves magic spv p messages rc left after) :
    handleMessages spv messages = .ok after := by
  induction serves with
  | waits incomplete => rfl
  | refuses complete refused => rfl
  | @handles spv next after frame rest left messages rc message handled goesOn
      inductionHypothesis =>
      have parses := bitcoinMessageParse_recognised message.recognised
      have run : handleMessage spv frame = .ok (0, next) := by
        rw [handleMessage, parses]
        exact handled
      rw [handleMessages, run]
      exact inductionHypothesis

/-- A stream can be served in two parts, as long as nothing is refused in the first one. -/
theorem append (first : Serves magic spv p messages 0 left mid)
    (second : Serves magic mid (left ++ rest) more rc last after) :
    Serves magic spv (p ++ rest) (messages ++ more) rc last after := by
  generalize zero : (0 : Int) = code at first
  induction first with
  | waits incomplete => exact second
  | refuses complete refused => cases zero
  | handles message handled goesOn inductionHypothesis =>
      rw [List.append_assoc, List.cons_append]
      exact .handles message handled (inductionHypothesis second zero)

/-- A stream is served in one way only. -/
theorem unique {messages' : List Bytes} {rc' : Int} {left' : Bytes} {after' : SpvNodeContext env}
    (first : Serves magic spv p messages rc left after)
    (second : Serves magic spv p messages' rc' left' after') :
    messages = messages' ∧ rc = rc' ∧ left = left' ∧ after = after' := by
  induction first generalizing messages' rc' left' after' with
  | waits incomplete =>
      cases second with
      | waits _ => exact ⟨rfl, rfl, rfl, rfl⟩
      | refuses complete refused =>
          rw [incomplete] at complete
          cases complete
      | handles message handled goesOn =>
          rw [message.size] at incomplete
          cases incomplete
  | refuses complete refused =>
      cases second with
      | waits incomplete =>
          rw [incomplete] at complete
          cases complete
      | refuses _ _ => exact ⟨rfl, rfl, rfl, rfl⟩
      | handles message handled goesOn =>
          rw [message.size] at complete
          cases complete
          rw [List.take_left] at refused
          exact absurd message refused
  | @handles spv next after frame rest left messages rc message handled goesOn
      inductionHypothesis =>
      generalize same : frame ++ rest = p at second
      cases second with
      | waits incomplete =>
          rw [← same, message.size] at incomplete
          cases incomplete
      | refuses complete refused =>
          rw [← same, message.size] at complete
          cases complete
          rw [← same, List.take_left] at refused
          exact absurd message refused
      | @handles _ next' _ frame' rest' _ messages' _ message' handled' goesOn' =>
          have length : frame.length = frame'.length := by
            have size := message.size rest
            rw [same, message'.size] at size
            exact (Option.some.inj size).symm
          obtain ⟨rfl, rfl⟩ := List.append_inj same length
          rw [handled] at handled'
          cases handled'
          obtain ⟨rfl, rfl, rfl, rfl⟩ := inductionHypothesis goesOn'
          exact ⟨rfl, rfl, rfl, rfl⟩

/-- Serving does not look at the output buffer, and only appends the replies to it. -/
theorem replies (serves : Serves magic spv p messages rc left after) :
    ∃ replies, after.outBuf = spv.outBuf ++ replies ∧
      ∀ before, Serves magic (spv.withOut before) p messages rc left
        (after.withOut (before ++ replies)) := by
  induction serves with
  | waits incomplete =>
      refine ⟨[], (List.append_nil _).symm, ?_⟩
      intro before
      rw [List.append_nil]
      exact .waits incomplete
  | refuses complete refused =>
      refine ⟨[], (List.append_nil _).symm, ?_⟩
      intro before
      rw [List.append_nil]
      exact .refuses complete refused
  | handles message handled goesOn inductionHypothesis =>
      obtain ⟨reply, appended, elsewhere⟩ := onMessageHandler_answers _ _ _ _ handled
      obtain ⟨replies, appendedMore, elsewhereMore⟩ := inductionHypothesis
      refine ⟨reply ++ replies, ?_, ?_⟩
      · rw [appendedMore, appended, List.append_assoc]
      · intro before
        have goesOnElsewhere := elsewhereMore (before ++ reply)
        rw [List.append_assoc] at goesOnElsewhere
        exact .handles message (elsewhere before) goesOnElsewhere

end Serves

/-! ## Runs of a connection -/

/-- The context with all that was sent or waits to be sent in its output buffer. -/
def Session.total (s : Session env) : SpvNodeContext env := s.spv.withOut (s.sent ++ s.spv.outBuf)

/-- What the connection received was served to what it is now, in one piece and without writing. -/
def Told (magic : Nat) (start : SpvNodeContext env) (s : Session env) (rc : Int) : Prop :=
  ∃ messages, Serves magic start s.received messages rc s.inBuf.data s.total

variable {magic : Nat} {start : SpvNodeContext env} {s after : Session env} {rc : Int}

theorem told_connected (spv : SpvNodeContext env) : Told magic spv (Session.connected spv) 0 :=
  ⟨[], .waits rfl⟩

theorem autoBufferPush_data (buf : AutoBuffer) (bytes : Bytes) :
    (autoBufferPush buf bytes).data = buf.data ++ bytes := by
  rw [autoBufferPush]
  split
  next empty => rw [empty, List.append_nil]
  next => rfl

/-- A chunk is read behind what was left of the earlier ones. -/
theorem readChunk_told {bytes : Bytes} (told : Told magic start s 0)
    (reads : readChunk magic s bytes = .ok (rc, after)) : Told magic start after rc := by
  obtain ⟨messages, serves⟩ := told
  have data := autoBufferPush_data s.inBuf bytes
  unfold readChunk at reads
  dsimp only at reads
  split at reads
  next short =>
    cases reads
    have incomplete : messageFrames.size (autoBufferPush s.inBuf bytes).data = none :=
      size_eq_none.2 (.inl short)
    have waits : Serves magic s.total (autoBufferPush s.inBuf bytes).data [] 0
        (autoBufferPush s.inBuf bytes).data s.total := .waits incomplete
    have whole := serves.append (data ▸ waits)
    rw [← data] at whole
    exact ⟨_, whole⟩
  next =>
    obtain ⟨⟨code, left, spv⟩, loops, done⟩ := Exec.bind_eq_ok.1 reads
    cases done
    obtain ⟨more, servesMore⟩ := serveLoop_serves loops
    obtain ⟨replies, appended, elsewhere⟩ := servesMore.replies
    have second := elsewhere (s.sent ++ s.spv.outBuf)
    rw [data, List.append_assoc s.sent, ← appended] at second
    exact ⟨_, serves.append second⟩

/-- The code of the loop over the messages. -/
theorem Serves.rc_cases {p left : Bytes} {spv next : SpvNodeContext env} {messages : List Bytes}
    (serves : Serves magic spv p messages rc left next) : rc = 0 ∨ rc = -1 := by
  induction serves with
  | waits incomplete => exact .inl rfl
  | refuses complete refused => exact .inr rfl
  | handles message handled goesOn inductionHypothesis => exact inductionHypothesis

theorem readChunks_told : ∀ {chunks : List Bytes} {s : Session env}, Told magic start s 0 →
    readChunks magic chunks s = .ok (rc, after) →
      ∃ code, Told magic start after code ∧ (rc = 0 ∧ code = 0 ∨ rc = -1)
  | [], s, told, reads => by
      cases reads
      exact ⟨0, told, .inl ⟨rfl, rfl⟩⟩
  | bytes :: chunks, s, told, reads => by
      rw [readChunks] at reads
      split at reads
      next closed =>
        cases reads
        exact ⟨0, told, .inr rfl⟩
      next =>
        obtain ⟨⟨code, next⟩, first, goesOn⟩ := Exec.bind_eq_ok.1 reads
        have nextTold := readChunk_told told first
        dsimp only at goesOn
        split at goesOn
        next zero =>
          subst zero
          exact readChunks_told nextTold goesOn
        next failed =>
          cases goesOn
          obtain ⟨messages, serves⟩ := nextTold
          exact ⟨rc, ⟨messages, serves⟩, .inr (serves.rc_cases.resolve_left failed)⟩

/-- Writing moves bytes from the output buffer to the wire. -/
theorem writeOut_total (socket : Socket) (s : Session env) :
    (writeOut socket s).2.total = s.total := by
  have conserves := onWrite_conserves socket ⟨outBufferOf s.spv.outBuf, true⟩
  have contents : (outBufferOf s.spv.outBuf).contents = s.spv.outBuf := List.take_length
  rw [contents] at conserves
  show s.spv.withOut ((s.sent ++ (onWrite socket ⟨outBufferOf s.spv.outBuf, true⟩).2.2) ++
    (onWrite socket ⟨outBufferOf s.spv.outBuf, true⟩).2.1.outBuf.contents) = _
  rw [List.append_assoc, conserves]
  rfl

theorem writeOut_told {socket : Socket} (told : Told magic start s rc) :
    Told magic start (writeOut socket s).2 rc := by
  obtain ⟨messages, serves⟩ := told
  refine ⟨messages, ?_⟩
  rw [writeOut_total]
  exact serves

/-- The connection was told what it received, and nothing of it was refused as long as it is
open. -/
def Faithful (magic : Nat) (start : SpvNodeContext env) (s : Session env) : Prop :=
  ∃ rc, Told magic start s rc ∧ (s.isOpen = true → rc = 0)

theorem pollOnce_faithful {poll : Poll} (told : Told magic start s 0)
    (polls : pollOnce magic poll s = .ok after) : Faithful magic start after := by
  obtain ⟨⟨rc, read⟩, reads, done⟩ := Exec.bind_eq_ok.1 polls
  obtain ⟨code, readTold, codes⟩ :
      ∃ code, Told magic start read code ∧ (rc = 0 ∧ code = 0 ∨ rc = -1) := by
    cases readable : poll.readable with
    | none =>
        rw [readable] at reads
        cases reads
        exact ⟨0, told, .inl ⟨rfl, rfl⟩⟩
    | some chunks =>
        rw [readable] at reads
        exact readChunks_told told reads
  dsimp only at done
  rcases codes with ⟨rfl, rfl⟩ | rfl
  · cases writable : poll.writable with
    | none =>
        rw [writable] at done
        cases done
        exact ⟨0, readTold, fun _ => rfl⟩
    | some socket =>
        rw [writable] at done
        cases done
        exact ⟨0, writeOut_told readTold, fun _ => rfl⟩
  · -- a negative code closes the socket, and nothing is written before
    have untouched : pollWrite (-1) read poll.writable = (-1, read) := by
      cases poll.writable with
      | none => rfl
      | some socket => rfl
    rw [untouched] at done
    cases done
    refine ⟨code, readTold, ?_⟩
    intro stillOpen
    cases stillOpen

theorem sessionRun_faithful : ∀ {polls : List Poll} {s : Session env}, Faithful magic start s →
    sessionRun magic polls s = .ok after → Faithful magic start after
  | [], s, faithful, runs => by
      cases runs
      exact faithful
  | poll :: polls, s, faithful, runs => by
      rw [sessionRun] at runs
      split at runs
      next isOpen =>
        obtain ⟨next, polled, goesOn⟩ := Exec.bind_eq_ok.1 runs
        obtain ⟨rc, told, zero⟩ := faithful
        have isZero := zero isOpen
        subst isZero
        exact sessionRun_faithful (pollOnce_faithful told polled) goesOn
      next =>
        cases runs
        exact faithful

/-- Whatever the chunks in which the peer's bytes arrive, in which order reading and writing take
turns and how much the socket takes each time: what the node received is whole messages that it
handled in their order, each once, and a rest; what it sent and what waits in its output buffer is
together what was there at the start and the replies to these messages in their order; and the rest
of the node is as these messages left it. As long as the connection is open the rest holds no whole
message. -/
theorem session_transcript {polls : List Poll} {spv : SpvNodeContext env} {s : Session env}
    (runs : sessionRun magic polls (Session.connected spv) = .ok s) :
    ∃ messages after replies, s.received = messages.flatten ++ s.inBuf.data ∧
      (∀ frame ∈ messages, IsMessage env magic frame) ∧
      handleMessages spv messages = .ok after ∧
      after.outBuf = spv.outBuf ++ replies ∧
      s.sent ++ s.spv.outBuf = spv.outBuf ++ replies ∧
      s.spv = after.withOut s.spv.outBuf ∧
      (s.isOpen = true → messageFrames.size s.inBuf.data = none) := by
  obtain ⟨rc, told, zero⟩ := sessionRun_faithful ⟨0, told_connected spv, fun _ => rfl⟩ runs
  obtain ⟨messages, serves⟩ := told
  obtain ⟨replies, appended, -⟩ := serves.replies
  exact ⟨messages, s.total, replies, serves.stream, serves.all_messages, serves.handled, appended,
    appended, rfl, fun isOpen => serves.left_incomplete (zero isOpen)⟩

/-- A ping with the nonce 1 to 8. -/
def pingMessage : Bytes :=
  messageHeader [0xf9, 0xbe, 0xb4, 0xd9] "ping" 8
    ((hash256 sampleCrypto [1, 2, 3, 4, 5, 6, 7, 8]).val.take 4) ++ [1, 2, 3, 4, 5, 6, 7, 8]

/-- The ping arrives in two chunks, and the socket takes what was there before and the pong. -/
def pingPolls : List Poll :=
  [⟨some [pingMessage.take 30], some ⟨[3], .hardError⟩, false⟩,
    ⟨some [pingMessage.drop 30], some ⟨[20, 12], .hardError⟩, false⟩]

theorem session_ping :
    ∃ s, sessionRun 0xd9b4bef9 pingPolls
        (Session.connected (sampleContext.withOut [7, 7, 7])) = .ok s ∧
      s.sent.length = 35 ∧ s.isOpen = true ∧
      ∃ messages after replies, s.received = messages.flatten ++ s.inBuf.data ∧
        (∀ frame ∈ messages, IsMessage sampleNodeEnv 0xd9b4bef9 frame) ∧
        handleMessages (sampleContext.withOut [7, 7, 7]) messages = .ok after ∧
        after.outBuf = [7, 7, 7] ++ replies ∧ s.sent ++ s.spv.outBuf = [7, 7, 7] ++ replies := by
  have evaluated : (do
      let s ← sessionRun 0xd9b4bef9 pingPolls
        (Session.connected (sampleContext.withOut [7, 7, 7]))
      .ok (s.sent.length, s.isOpen) : Exec (Nat × Bool)) = .ok (35, true) := by decide +kernel
  obtain ⟨s, runs, done⟩ := Exec.bind_eq_ok.1 evaluated
  have ends : (s.sent.length, s.isOpen) = (35, true) := Exec.ok.inj done
  obtain ⟨messages, after, replies, received, all, handled, appended, sent, -⟩ :=
    session_transcript runs
  exact ⟨s, runs, congrArg Prod.fst ends, congrArg Prod.snd ends, messages, after, replies,
    received, all, handled, appended, sent⟩

/-- Two connections of the same node on which the same bytes arrived, in whatever chunks and with
whatever turns of writing, have the same bytes left to handle, the same bytes sent or waiting, and
are the same apart from how many were sent. -/
theorem session_same {polls polls' : List Poll} {spv : SpvNodeContext env} {s s' : Session env}
    (runs : sessionRun magic polls (Session.connected spv) = .ok s)
    (runs' : sessionRun magic polls' (Session.connected spv) = .ok s')
    (same : s.received = s'.received) :
    s.inBuf.data = s'.inBuf.data ∧ s.sent ++ s.spv.outBuf = s'.sent ++ s'.spv.outBuf ∧
      s.spv = s'.spv.withOut s.spv.outBuf := by
  obtain ⟨rc, ⟨messages, serves⟩, -⟩ :=
    sessionRun_faithful ⟨0, told_connected spv, fun _ => rfl⟩ runs
  obtain ⟨rc', ⟨messages', serves'⟩, -⟩ :=
    sessionRun_faithful ⟨0, told_connected spv, fun _ => rfl⟩ runs'
  rw [same] at serves
  obtain ⟨-, -, left, total⟩ := serves.unique serves'
  have others : s.total.withOut s.spv.outBuf = s'.total.withOut s.spv.outBuf := by rw [total]
  exact ⟨left, congrArg SpvNodeContext.outBuf total, others⟩

/-- The same bytes in one chunk, without a turn of writing. -/
theorem session_same_ping :
    ∃ s s', sessionRun 0xd9b4bef9 pingPolls
        (Session.connected (sampleContext.withOut [7, 7, 7])) = .ok s ∧
      sessionRun 0xd9b4bef9 [⟨some [pingMessage], none, false⟩]
        (Session.connected (sampleContext.withOut [7, 7, 7])) = .ok s' ∧
      s'.sent = [] ∧ s.inBuf.data = s'.inBuf.data ∧
      s.sent ++ s.spv.outBuf = s'.sent ++ s'.spv.outBuf := by
  have evaluated : (do
      let s ← sessionRun 0xd9b4bef9 pingPolls
        (Session.connected (sampleContext.withOut [7, 7, 7]))
      .ok s.received : Exec Bytes) = .ok pingMessage := by decide +kernel
  have evaluated' : (do
      let s ← sessionRun 0xd9b4bef9 [⟨some [pingMessage], none, false⟩]
        (Session.connected (sampleContext.withOut [7, 7, 7]))
      .ok (s.received, s.sent) : Exec (Bytes × Bytes)) = .ok (pingMessage, []) := by
    decide +kernel
  obtain ⟨s, runs, done⟩ := Exec.bind_eq_ok.1 evaluated
  obtain ⟨s', runs', done'⟩ := Exec.bind_eq_ok.1 evaluated'
  have ends : (s'.received, s'.sent) = (pingMessage, []) := Exec.ok.inj done'
  have received : s.received = s'.received :=
    (Exec.ok.inj done).trans (congrArg Prod.fst ends).symm
  obtain ⟨left, total, -⟩ := session_same runs runs' received
  exact ⟨s, s', runs, runs', congrArg Prod.snd ends, left, total⟩

end BitcoinClib.Net
