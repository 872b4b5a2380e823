import BitcoinClib.Lib.Framing
import BitcoinClib.Net.OnRead

/-!
Contract: what a connection makes of a byte stream, against the ways the stream can be cut.

Owns:
- `dispatch`, the messages of a whole stream up to the first one that fails;
- one pass of `on_read` against `dispatch` (`onReadData_running`, `onReadData_last`,
  `onReadData_fault`);
- all cuts of a stream have one outcome exactly when a failing message ends the stream and no
  cut leaves a header at the end of the allocation (`received_agree_iff`).
-/

namespace BitcoinClib.Net

open BitcoinClib.Lib
open BitcoinClib.Types
open BitcoinClib.Crypto

/-! ## Complete messages -/

theorem hdrLength_append {p : Bytes} (enough : 20 ≤ p.length) (q : Bytes) :
    hdrLength (p ++ q) = hdrLength p := by
  unfold hdrLength
  rw [List.drop_append_of_le_length (by omega), List.take_append_of_le_length]
  rw [List.length_drop]
  omega

/-- A header and the payload it announces. -/
def messageFrames : Frames UInt8 where
  size p :=
    if messageHeaderSize ≤ p.length ∧ messageHeaderSize + hdrLength p ≤ p.length then
      some (messageHeaderSize + hdrLength p)
    else none
  size_pos found := by
    split at found
    · cases found
      exact Nat.add_pos_left (by decide) _
    · cases found
  size_le found := by
    split at found
    next complete =>
      cases found
      exact complete.2
    · cases found
  size_append q found := by
    split at found
    next complete =>
      cases found
      have header : messageHeaderSize = 24 := rfl
      rw [hdrLength_append (by omega), if_pos]
      rw [List.length_append]
      omega
    · cases found
  size_take found := by
    split at found
    next complete =>
      cases found
      have header : messageHeaderSize = 24 := rfl
      rw [hdrLength_take (by omega), if_pos]
      rw [List.length_take]
      omega
    · cases found

theorem size_eq_some {p : Bytes} {n : Nat} (found : messageFrames.size p = some n) :
    24 ≤ p.length ∧ n = 24 + hdrLength p ∧ n ≤ p.length := by
  change (if 24 ≤ p.length ∧ 24 + hdrLength p ≤ p.length then some (24 + hdrLength p) else none) =
    some n at found
  split at found
  next complete =>
    cases found
    exact ⟨complete.1, rfl, complete.2⟩
  · cases found

theorem size_eq_none {p : Bytes} :
    messageFrames.size p = none ↔ p.length < 24 ∨ p.length < 24 + hdrLength p := by
  show (if 24 ≤ p.length ∧ 24 + hdrLength p ≤ p.length then some (24 + hdrLength p) else none) =
    none ↔ _
  split
  next complete =>
    simp only [reduceCtorEq, false_iff]
    omega
  next incomplete =>
    simp only [true_iff]
    omega

variable (node : SpvNode)

abbrev Handled := List (BitcoinMessage node.Object)

/-- A message that cannot be read is refused; a negative code of its handler ends the
connection behind it. -/
def serveMessage (state : Int × Handled node) (frame : Bytes) : Verdict (Int × Handled node) :=
  if hdrMagic frame ≠ node.magic then .refuse (-1, state.2)
  else
    match bitcoinMessageParse node.crypto node.parsers frame with
    | none => .refuse (-1, state.2)
    | some message =>
        let rc := node.onMessageHandler state.2 message
        if rc < 0 then .finish (rc, state.2 ++ [message]) else .proceed (0, state.2 ++ [message])

/-- The messages of a stream up to the first one that fails. -/
def dispatch (handled : Handled node) (stream : Bytes) : Drained (Int × Handled node) UInt8 :=
  messageFrames.drain (serveMessage node) (0, handled) stream

variable {node}

theorem hdrMagic_take {p : Bytes} {n : Nat} (enough : 4 ≤ n) :
    hdrMagic (p.take n) = hdrMagic p := by
  unfold hdrMagic
  rw [List.take_take, Nat.min_eq_left enough]

/-- A message is parsed from its own bytes. -/
theorem bitcoinMessageParse_take (node : SpvNode) {p : Bytes} {n : Nat} (found : messageFrames.size p = some n) :
    bitcoinMessageParse node.crypto node.parsers (p.take n) =
      bitcoinMessageParse node.crypto node.parsers p := by
  obtain ⟨header, rfl, inside⟩ := size_eq_some found
  have length : hdrLength (p.take (24 + hdrLength p)) = hdrLength p :=
    hdrLength_take (by omega)
  have command : hdrCommand (p.take (24 + hdrLength p)) = hdrCommand p := by
    unfold hdrCommand
    rw [List.drop_take, List.take_take, Nat.min_eq_left (by omega)]
  have checksum : hdrChecksum (p.take (24 + hdrLength p)) = hdrChecksum p := by
    unfold hdrChecksum
    rw [List.drop_take, List.take_take, Nat.min_eq_left (by omega)]
  have payload : ((p.take (24 + hdrLength p)).drop 24).take (hdrLength p) =
      (p.drop 24).take (hdrLength p) := by
    rw [List.drop_take, List.take_take, Nat.min_eq_left (by omega)]
  unfold bitcoinMessageParse messageHeaderSize
  rw [length, command, checksum]
  dsimp only
  rw [payload, List.take_take, Nat.min_self]

/-- One turn of the loop on a complete message, told by what serving it gives. -/
theorem messageLoop_found (slack fuel : Nat) (rc status : Int) (handled : Handled node)
    {p : Bytes} {n : Nat} (found : messageFrames.size p = some n) :
    match serveMessage node (status, handled) (p.take n) with
    | .proceed next => ∃ code message, 0 ≤ code ∧ next = (0, handled ++ [message]) ∧
        messageLoop node slack (fuel + 1) rc p handled =
          messageLoop node slack fuel code (p.drop n) (handled ++ [message])
    | .refuse next => next = (-1, handled) ∧
        messageLoop node slack (fuel + 1) rc p handled = .ok (-1, p, handled)
    | .finish next => ∃ code message, code < 0 ∧ next = (code, handled ++ [message]) ∧
        messageLoop node slack (fuel + 1) rc p handled =
          messageLoop node slack fuel code (p.drop n) (handled ++ [message]) := by
  have parsed := bitcoinMessageParse_take node found
  obtain ⟨header, rfl, inside⟩ := size_eq_some found
  have size : messageHeaderSize = 24 := rfl
  have nonempty : p ≠ [] := by
    rintro rfl
    exact absurd header (by decide)
  have turn : messageLoop node slack (fuel + 1) rc p handled =
      if hdrMagic p ≠ node.magic then .ok (-1, p, handled)
      else
        match bitcoinMessageParse node.crypto node.parsers p with
        | none => .ok (-1, p, handled)
        | some message => messageLoop node slack fuel (node.onMessageHandler handled message)
            (p.drop (24 + hdrLength p)) (handled ++ [message]) := by
    rewrite [messageLoop, if_neg nonempty, if_neg (by omega), size, if_neg (by omega)]
    rfl
  unfold serveMessage
  rw [turn, hdrMagic_take (by omega), parsed]
  by_cases magic : hdrMagic p ≠ node.magic
  · rw [if_pos magic, if_pos magic]
    exact ⟨rfl, rfl⟩
  · rw [if_neg magic, if_neg magic]
    cases bitcoinMessageParse node.crypto node.parsers p with
    | none => exact ⟨rfl, rfl⟩
    | some message =>
        dsimp only
        by_cases negative : node.onMessageHandler handled message < 0
        · rw [if_pos negative]
          exact ⟨_, message, negative, rfl, rfl⟩
        · rw [if_neg negative]
          exact ⟨_, message, not_lt.1 negative, rfl, rfl⟩

/-! ## The loop over a buffer -/

theorem dispatch_proceed {n : Nat} {p : Bytes} {handled : Handled node}
    {next : Int × Handled node} (found : messageFrames.size p = some n)
    (verdict : serveMessage node (0, handled) (p.take n) = .proceed next) :
    dispatch node handled p = messageFrames.drain (serveMessage node) next (p.drop n) :=
  Frames.drain_proceed found verdict

/-- An incomplete header ends the loop, provided its length field is inside the allocation. -/
theorem messageLoop_incomplete {slack fuel : Nat} {rc : Int} {p : Bytes} {handled : Handled node}
    (incomplete : messageFrames.size p = none) :
    messageLoop node slack (fuel + 1) rc p handled =
      if p ≠ [] ∧ p.length + slack < 20 then .fault .bounds else .ok (rc, p, handled) := by
  have short := size_eq_none.1 incomplete
  have size : messageHeaderSize = 24 := rfl
  rw [messageLoop, size]
  by_cases empty : p = []
  · rw [if_pos empty, if_neg fun both => both.1 empty]
  · rw [if_neg empty]
    by_cases outside : p.length + slack < 20
    · rw [if_pos outside, if_pos ⟨empty, outside⟩]
    · rw [if_neg outside, if_pos short, if_neg fun both => outside both.2]

/-- While no message fails, the loop handles all complete ones and keeps the rest. -/
theorem messageLoop_running (slack : Nat) {fuel : Nat} {rc : Int} {p : Bytes} {handled : Handled node}
    (enough : p.length < fuel) (nonnegative : 0 ≤ rc)
    (running : (dispatch node handled p).running = true) :
    (dispatch node handled p).state.1 = 0 ∧ ∃ code, 0 ≤ code ∧
      messageLoop node slack fuel rc p handled =
        if (dispatch node handled p).buffered ≠ [] ∧
            (dispatch node handled p).buffered.length + slack < 20 then .fault .bounds
        else .ok (code, (dispatch node handled p).buffered, (dispatch node handled p).state.2) := by
  induction p using Frames.frames_induction messageFrames generalizing fuel rc handled with
  | incomplete p none =>
      obtain ⟨previous, rfl⟩ : ∃ previous, fuel = previous + 1 := ⟨fuel - 1, by omega⟩
      rw [dispatch, Frames.drain_none none]
      exact ⟨rfl, rc, nonnegative, messageLoop_incomplete none⟩
  | complete p n found inductionHypothesis =>
      obtain ⟨previous, rfl⟩ : ∃ previous, fuel = previous + 1 := ⟨fuel - 1, by omega⟩
      have shorter := Frames.drop_length found
      have turn := messageLoop_found slack previous rc 0 handled found
      cases verdict : serveMessage node (0, handled) (p.take n) with
      | proceed next =>
          rw [verdict] at turn
          obtain ⟨code, message, positive, rfl, turn⟩ := turn
          rw [dispatch_proceed found verdict] at running ⊢
          rw [turn]
          exact inductionHypothesis (by omega) positive running
      | refuse next =>
          rw [dispatch, Frames.drain_refuse found verdict] at running
          cases running
      | finish next =>
          rw [dispatch, Frames.drain_finish found verdict] at running
          cases running

/-- The message that fails is the last one to be handled when at most one byte follows it. -/
theorem messageLoop_stopped (slack : Nat) {fuel : Nat} (rc : Int) {p : Bytes} {handled : Handled node}
    (enough : p.length < fuel) (stopped : (dispatch node handled p).running = false)
    (last : (dispatch node handled p).behind.length ≤ 1) :
    (dispatch node handled p).state.1 < 0 ∧
      (messageLoop node slack fuel rc p handled =
          .ok ((dispatch node handled p).state.1,
            (dispatch node handled p).buffered ++ (dispatch node handled p).behind,
            (dispatch node handled p).state.2) ∨
        (dispatch node handled p).behind ≠ [] ∧
          messageLoop node slack fuel rc p handled = .fault .bounds) := by
  induction p using Frames.frames_induction messageFrames generalizing fuel rc handled with
  | incomplete p none =>
      rw [dispatch, Frames.drain_none none] at stopped
      cases stopped
  | complete p n found inductionHypothesis =>
      obtain ⟨previous, rfl⟩ : ∃ previous, fuel = previous + 1 := ⟨fuel - 1, by omega⟩
      have shorter := Frames.drop_length found
      have turn := messageLoop_found slack previous rc 0 handled found
      cases verdict : serveMessage node (0, handled) (p.take n) with
      | proceed next =>
          rw [verdict] at turn
          obtain ⟨code, message, positive, rfl, turn⟩ := turn
          rw [dispatch_proceed found verdict] at stopped last ⊢
          rw [turn]
          exact inductionHypothesis code (by omega) stopped last
      | refuse next =>
          rw [verdict] at turn
          obtain ⟨rfl, turn⟩ := turn
          rw [dispatch, Frames.drain_refuse found verdict]
          refine ⟨(by decide : (-1 : Int) < 0), .inl ?_⟩
          rw [turn, List.take_append_drop]
      | finish next =>
          rw [verdict] at turn
          obtain ⟨code, message, negative, rfl, turn⟩ := turn
          rw [dispatch, Frames.drain_finish found verdict] at last ⊢
          refine ⟨negative, ?_⟩
          have none : messageFrames.size (p.drop n) = none := size_eq_none.2 (.inl (by
            dsimp only at last
            omega))
          obtain ⟨before, rfl⟩ : ∃ before, previous = before + 1 := ⟨previous - 1, by omega⟩
          rw [turn, messageLoop_incomplete none]
          split
          next outside => exact .inr ⟨outside.1, rfl⟩
          next inside => exact .inl rfl

/-! ## Chunks -/

/-- The chunks one after the other, without the polling around them. -/
def feed (node : SpvNode) : List Bytes → Connection node → Exec (Int × Connection node)
  | [], connection => .ok (0, connection)
  | bytes :: chunks, connection => do
      let (rc, connection) ← onReadData node connection bytes
      if rc < 0 then .ok (rc, connection) else feed node chunks connection

/-- The chunks among the events. -/
def chunksOf : List ReadEvent → List Bytes
  | [] => []
  | .data bytes :: events => bytes :: chunksOf events
  | .wouldBlock :: events => chunksOf events

/-- `on_read` and what is read after it are the chunks one after the other. -/
theorem onRead_feed (events : List ReadEvent) (connection : Connection node)
    (nonempty : ∀ chunk ∈ chunksOf events, chunk ≠ []) :
    (do
      let (rc, connection, events) ← onRead node events connection
      if rc < 0 then .ok (rc, connection) else feed node (chunksOf events) connection) =
      feed node (chunksOf events) connection := by
  induction events generalizing connection with
  | nil => rfl
  | cons event events inductionHypothesis =>
      cases event with
      | wouldBlock => rfl
      | data bytes =>
          rw [chunksOf, List.forall_mem_cons] at nonempty
          rw [chunksOf, onRead, if_neg nonempty.1, feed]
          cases onReadData node connection bytes with
          | fault cause => rfl
          | timeout => rfl
          | ok outcome =>
              obtain ⟨rc, next⟩ := outcome
              simp only [Exec.ok_bind]
              by_cases zero : rc = 0
              · rw [if_pos zero, if_neg (by omega)]
                exact inductionHypothesis next nonempty.2
              · rw [if_neg zero]
                rfl

/-- `on_read` reads something. -/
theorem onRead_reads {events rest : List ReadEvent} {connection next : Connection node} {rc : Int}
    (nonempty : events ≠ []) (returns : onRead node events connection = .ok (rc, next, rest)) :
    ∃ event read, events = event :: (read ++ rest) := by
  induction events generalizing connection with
  | nil => exact absurd rfl nonempty
  | cons event events inductionHypothesis =>
      cases event with
      | wouldBlock =>
          cases returns
          exact ⟨_, [], rfl⟩
      | data bytes =>
          rw [onRead] at returns
          split at returns
          · cases returns
            exact ⟨_, [], rfl⟩
          · obtain ⟨⟨code, middle⟩, -, returns⟩ := Exec.bind_eq_ok.1 returns
            dsimp only at returns
            split at returns
            · by_cases empty : events = []
              · subst empty
                cases returns
                exact ⟨_, [], rfl⟩
              · obtain ⟨second, read, rfl⟩ := inductionHypothesis empty returns
                exact ⟨_, second :: read, rfl⟩
            · cases returns
              exact ⟨_, [], rfl⟩

theorem chunksOf_append (first second : List ReadEvent) :
    chunksOf (first ++ second) = chunksOf first ++ chunksOf second := by
  induction first with
  | nil => rfl
  | cons event events inductionHypothesis =>
      cases event with
      | wouldBlock => exact inductionHypothesis
      | data bytes => exact congrArg (bytes :: ·) inductionHypothesis

theorem spvNodeRun_feed {fuel : Nat} {events : List ReadEvent} {connection : Connection node}
    (enough : events.length < fuel) (nonempty : ∀ chunk ∈ chunksOf events, chunk ≠ []) :
    spvNodeRun node fuel events connection = feed node (chunksOf events) connection := by
  induction fuel generalizing events connection with
  | zero => exact absurd enough (Nat.not_lt_zero _)
  | succ fuel inductionHypothesis =>
      rw [spvNodeRun]
      split
      next empty =>
        subst empty
        rfl
      next some =>
        rw [← onRead_feed events connection nonempty]
        cases returns : onRead node events connection with
        | fault cause => rfl
        | timeout => rfl
        | ok outcome =>
            obtain ⟨rc, next, rest⟩ := outcome
            obtain ⟨event, read, parts⟩ := onRead_reads some returns
            have shorter : rest.length < fuel := by
              rw [parts, List.length_cons, List.length_append] at enough
              omega
            have others : ∀ chunk ∈ chunksOf rest, chunk ≠ [] := by
              intro chunk present
              apply nonempty chunk
              rw [parts, ← List.cons_append, chunksOf_append]
              exact List.mem_append_right _ present
            simp only [Exec.ok_bind]
            split
            · rfl
            · exact inductionHypothesis shorter others

/-! ## One pass -/

/-- What stands behind the complete messages of a buffer. -/
def afterMessages (p : Bytes) : Bytes :=
  (messageFrames.drain (fun (_ : Unit) _ => .proceed ()) () p).buffered

/-- The length field of a header behind complete messages is inside the allocation. -/
def HeaderInside (inBuf : AutoBuffer) : Prop :=
  inBuf.data.length < 24 ∨ afterMessages inBuf.data = [] ∨
    20 ≤ (afterMessages inBuf.data).length + (inBuf.size - inBuf.data.length)

theorem afterMessages_running {p : Bytes} {handled : Handled node}
    (running : (dispatch node handled p).running = true) :
    (dispatch node handled p).buffered = afterMessages p := by
  unfold afterMessages
  induction p using Frames.frames_induction messageFrames generalizing handled with
  | incomplete p none => rw [dispatch, Frames.drain_none none, Frames.drain_none none]
  | complete p n found inductionHypothesis =>
      have turn := messageLoop_found 0 0 0 0 handled found
      rw [Frames.drain_proceed found rfl]
      cases verdict : serveMessage node (0, handled) (p.take n) with
      | proceed next =>
          rw [verdict] at turn
          obtain ⟨code, message, -, rfl, -⟩ := turn
          rw [dispatch_proceed found verdict] at running ⊢
          exact inductionHypothesis running
      | refuse next =>
          rw [dispatch, Frames.drain_refuse found verdict] at running
          cases running
      | finish next =>
          rw [dispatch, Frames.drain_finish found verdict] at running
          cases running

theorem afterMessages_nil : afterMessages [] = [] := by
  unfold afterMessages
  rw [Frames.drain_none Frames.size_nil]

theorem afterMessages_stopped {p : Bytes} {handled : Handled node}
    (stopped : (dispatch node handled p).running = false)
    (last : (dispatch node handled p).behind = []) : afterMessages p = [] := by
  unfold afterMessages
  induction p using Frames.frames_induction messageFrames generalizing handled with
  | incomplete p none =>
      rw [dispatch, Frames.drain_none none] at stopped
      cases stopped
  | complete p n found inductionHypothesis =>
      have turn := messageLoop_found 0 0 0 0 handled found
      rw [Frames.drain_proceed found rfl]
      cases verdict : serveMessage node (0, handled) (p.take n) with
      | proceed next =>
          rw [verdict] at turn
          obtain ⟨code, message, -, rfl, -⟩ := turn
          rw [dispatch_proceed found verdict] at stopped last
          exact inductionHypothesis stopped last
      | refuse next =>
          rw [dispatch, Frames.drain_refuse found verdict] at last
          dsimp only at last
          rw [last]
          exact afterMessages_nil
      | finish next =>
          rw [dispatch, Frames.drain_finish found verdict] at last
          dsimp only at last
          rw [last]
          exact afterMessages_nil

section Pass

variable {connection : Connection node} {bytes : Bytes}

/-- The buffer after the push. -/
def pushed (connection : Connection node) (bytes : Bytes) : AutoBuffer :=
  autoBufferPush connection.inBuf bytes

theorem onReadData_short (short : (pushed connection bytes).data.length < 24) :
    onReadData node connection bytes = .ok (0, { connection with inBuf := pushed connection bytes }) :=
  if_pos short

theorem onReadData_long (long : ¬ (pushed connection bytes).data.length < 24) :
    onReadData node connection bytes =
      (messageLoop node ((pushed connection bytes).size - (pushed connection bytes).data.length)
        ((pushed connection bytes).data.length + 1) 0 (pushed connection bytes).data
        connection.handled >>= fun outcome => .ok (outcome.1,
          ⟨{ pushed connection bytes with data := outcome.2.1 }, outcome.2.2⟩)) :=
  if_neg long

/-- A pass in which no message fails. -/
theorem onReadData_running
    (running : (dispatch node connection.handled (pushed connection bytes).data).running = true) :
    (dispatch node connection.handled (pushed connection bytes).data).state.1 = 0 ∧
      (HeaderInside (pushed connection bytes) → ∃ code, 0 ≤ code ∧
        onReadData node connection bytes = .ok (code,
          ⟨{ pushed connection bytes with
              data := (dispatch node connection.handled (pushed connection bytes).data).buffered },
            (dispatch node connection.handled (pushed connection bytes).data).state.2⟩)) ∧
      (¬ HeaderInside (pushed connection bytes) →
        onReadData node connection bytes = .fault .bounds) := by
  have rest := afterMessages_running running
  obtain ⟨status, code, nonnegative, loop⟩ := messageLoop_running
    ((pushed connection bytes).size - (pushed connection bytes).data.length)
    (Nat.lt_succ_self _) (le_refl 0) running
  rw [rest] at loop
  refine ⟨status, fun inside => ?_, fun outside => ?_⟩
  · by_cases short : (pushed connection bytes).data.length < 24
    · refine ⟨0, le_refl 0, ?_⟩
      rw [onReadData_short short, dispatch, Frames.drain_none (size_eq_none.2 (.inl short))]
    · refine ⟨code, nonnegative, ?_⟩
      have room : ¬ (afterMessages (pushed connection bytes).data ≠ [] ∧
          (afterMessages (pushed connection bytes).data).length +
            ((pushed connection bytes).size - (pushed connection bytes).data.length) < 20) := by
        rintro ⟨some, small⟩
        rcases inside with few | empty | enough
        · exact short few
        · exact some empty
        · omega
      rw [onReadData_long short, loop, if_neg room, Exec.ok_bind, rest]
  · simp only [HeaderInside, not_or, not_le] at outside
    rw [onReadData_long outside.1, loop, if_pos outside.2]
    rfl

/-- The pass with the message that fails. -/
theorem onReadData_stopped
    (stopped : (dispatch node connection.handled (pushed connection bytes).data).running = false)
    (last : (dispatch node connection.handled (pushed connection bytes).data).behind.length ≤ 1) :
    (dispatch node connection.handled (pushed connection bytes).data).state.1 < 0 ∧
      (onReadData node connection bytes =
          .ok ((dispatch node connection.handled (pushed connection bytes).data).state.1,
            ⟨{ pushed connection bytes with
                data := (dispatch node connection.handled (pushed connection bytes).data).buffered ++
                  (dispatch node connection.handled (pushed connection bytes).data).behind },
              (dispatch node connection.handled (pushed connection bytes).data).state.2⟩) ∨
        (dispatch node connection.handled (pushed connection bytes).data).behind ≠ [] ∧
          onReadData node connection bytes = .fault .bounds) := by
  have long : ¬ (pushed connection bytes).data.length < 24 := by
    intro short
    rw [dispatch, Frames.drain_none (size_eq_none.2 (.inl short))] at stopped
    cases stopped
  obtain ⟨negative, loop⟩ := messageLoop_stopped
    ((pushed connection bytes).size - (pushed connection bytes).data.length) 0
    (Nat.lt_succ_self _) stopped last
  refine ⟨negative, ?_⟩
  rw [onReadData_long long]
  rcases loop with returns | ⟨some, fault⟩
  · left
    rw [returns]
    rfl
  · right
    rw [fault]
    exact ⟨some, rfl⟩

end Pass

/-! ## Whole streams -/

/-- No pass over the chunks finds a header at the end of the allocation. -/
def HeadersInside : AutoBuffer → List Bytes → Prop
  | _, [] => True
  | inBuf, bytes :: chunks =>
      let inBuf := autoBufferPush inBuf bytes
      HeaderInside inBuf ∧ HeadersInside { inBuf with data := afterMessages inBuf.data } chunks

theorem pushed_data (connection : Connection node) (bytes : Bytes) :
    (pushed connection bytes).data = connection.inBuf.data ++ bytes := by
  unfold pushed autoBufferPush
  split
  next empty => rw [empty, List.append_nil]
  · rfl

theorem feed_append {chunks more : List Bytes} {connection next : Connection node} {rc : Int}
    (returns : feed node chunks connection = .ok (rc, next)) :
    feed node (chunks ++ more) connection =
      if rc < 0 then .ok (rc, next) else feed node more next := by
  induction chunks generalizing connection with
  | nil =>
      cases returns
      rfl
  | cons bytes chunks inductionHypothesis =>
      rw [feed] at returns
      obtain ⟨⟨code, middle⟩, read, returns⟩ := Exec.bind_eq_ok.1 returns
      rw [List.cons_append, feed, read, Exec.ok_bind]
      dsimp only at returns ⊢
      split at returns
      next negative =>
        cases returns
        rw [if_pos negative, if_pos negative]
      next nonnegative =>
        rw [if_neg nonnegative]
        exact inductionHypothesis returns

theorem dispatch_append {p : Bytes} {handled : Handled node} (q : Bytes)
    (running : (dispatch node handled p).running = true) :
    dispatch node handled (p ++ q) =
      dispatch node (dispatch node handled p).state.2 ((dispatch node handled p).buffered ++ q) := by
  have status := (messageLoop_running 0 (Nat.lt_succ_self _) (le_refl 0) running).1
  have state : (dispatch node handled p).state = (0, (dispatch node handled p).state.2) :=
    Prod.ext status rfl
  show messageFrames.drain (serveMessage node) (0, handled) (p ++ q) =
    messageFrames.drain (serveMessage node) (0, (dispatch node handled p).state.2) _
  rw [Frames.drain_append_running q running, ← state]
  rfl

/-- The chunks of a stream whose failing message, if any, is its end. -/
theorem feed_dispatch {chunks : List Bytes} {connection : Connection node}
    (incomplete : messageFrames.size connection.inBuf.data = none)
    (nonempty : ∀ chunk ∈ chunks, chunk ≠ [])
    (last : (dispatch node connection.handled
      (connection.inBuf.data ++ chunks.flatten)).behind = []) :
    (HeadersInside connection.inBuf chunks → ∃ next, feed node chunks connection =
        .ok ((dispatch node connection.handled
          (connection.inBuf.data ++ chunks.flatten)).state.1, next) ∧
      next.handled = (dispatch node connection.handled
        (connection.inBuf.data ++ chunks.flatten)).state.2 ∧
      next.inBuf.data = (dispatch node connection.handled
        (connection.inBuf.data ++ chunks.flatten)).buffered) ∧
    (¬ HeadersInside connection.inBuf chunks → feed node chunks connection = .fault .bounds) := by
  induction chunks generalizing connection with
  | nil =>
      rw [List.flatten_nil, List.append_nil, dispatch, Frames.drain_none incomplete]
      exact ⟨fun _ => ⟨connection, rfl, rfl, rfl⟩, fun outside => absurd trivial outside⟩
  | cons bytes chunks inductionHypothesis =>
      rw [List.forall_mem_cons] at nonempty
      rw [List.flatten_cons, ← List.append_assoc, ← pushed_data] at last ⊢
      cases running : (dispatch node connection.handled (pushed connection bytes).data).running with
      | true =>
          obtain ⟨-, inside, outside⟩ := onReadData_running running
          rw [dispatch_append _ running] at last ⊢
          have rest := afterMessages_running running
          have buffered : messageFrames.size
              (dispatch node connection.handled (pushed connection bytes).data).buffered = none :=
            Frames.drain_buffered running
          let next : Connection node :=
            ⟨{ pushed connection bytes with
                data := (dispatch node connection.handled (pushed connection bytes).data).buffered },
              (dispatch node connection.handled (pushed connection bytes).data).state.2⟩
          have others := inductionHypothesis
            (show messageFrames.size next.inBuf.data = none from buffered) nonempty.2 last
          have here (header : HeaderInside (pushed connection bytes)) :
              feed node (bytes :: chunks) connection = feed node chunks next := by
            obtain ⟨code, nonnegative, returns⟩ := inside header
            rw [feed, returns, Exec.ok_bind]
            exact if_neg (not_lt.2 nonnegative)
          have unfolded : HeadersInside connection.inBuf (bytes :: chunks) ↔
              HeaderInside (pushed connection bytes) ∧ HeadersInside next.inBuf chunks := by
            rw [HeadersInside, ← pushed, ← rest]
          rw [unfolded]
          constructor
          · rintro ⟨header, headers⟩
            rw [here header]
            exact others.1 headers
          · intro headers
            by_cases header : HeaderInside (pushed connection bytes)
            · rw [here header]
              exact others.2 fun after => headers ⟨header, after⟩
            · rw [feed, outside header]
              rfl
      | false =>
          rw [dispatch, Frames.drain_append_stopped _ running, ← dispatch] at last ⊢
          obtain ⟨behind, empty⟩ := List.append_eq_nil_iff.1 last
          have none : chunks = [] := by
            cases chunks with
            | nil => rfl
            | cons chunk others =>
                rw [List.flatten_cons] at empty
                exact absurd (List.append_eq_nil_iff.1 empty).1
                  (nonempty.2 chunk List.mem_cons_self)
          subst none
          have header : HeaderInside (pushed connection bytes) :=
            .inr (.inl (afterMessages_stopped running behind))
          obtain ⟨negative, returns | ⟨some, -⟩⟩ := onReadData_stopped running (by
            rw [behind]
            exact Nat.zero_le 1)
          · constructor
            · intro
              rw [feed, returns, Exec.ok_bind, behind, List.append_nil]
              exact ⟨_, if_pos negative, rfl, rfl⟩
            · exact fun headers => absurd ⟨header, trivial⟩ headers
          · exact absurd behind some

/-- The events bring the stream in chunks of the size of the read buffer. -/
structure IsCut (stream : Bytes) (events : List ReadEvent) : Prop where
  stream : (chunksOf events).flatten = stream
  nonempty : ∀ chunk ∈ chunksOf events, chunk ≠ []
  fits : ∀ chunk ∈ chunksOf events, chunk.length ≤ 4096

/-- The final code, the messages passed to the handler and the bytes left in the buffer. -/
def received (node : SpvNode) (events : List ReadEvent) : Exec (Int × Handled node × Bytes) := do
  let (rc, connection) ← receive node events
  .ok (rc, connection.handled, connection.inBuf.data)

theorem received_feed {events : List ReadEvent} (nonempty : ∀ chunk ∈ chunksOf events, chunk ≠ []) :
    received node events = feed node (chunksOf events) ⟨.empty, []⟩ >>= fun outcome =>
      .ok (outcome.1, outcome.2.handled, outcome.2.inBuf.data) := by
  unfold received receive
  rw [spvNodeRun_feed (Nat.lt_succ_self _) nonempty]

/-- What a whole stream leads to. -/
def dispatched (node : SpvNode) (stream : Bytes) : Int × Handled node × Bytes :=
  let drained := dispatch node [] stream
  (drained.state.1, drained.state.2, drained.buffered)

/-- A cut whose headers stay inside the allocation leads to what the stream says; any other one
reads behind it. -/
theorem received_of_cut {stream : Bytes} {events : List ReadEvent} (cut : IsCut stream events)
    (last : (dispatch node [] stream).behind = []) :
    (HeadersInside .empty (chunksOf events) →
      received node events = .ok (dispatched node stream)) ∧
    (¬ HeadersInside .empty (chunksOf events) → received node events = .fault .bounds) := by
  have run := @feed_dispatch node (chunksOf events) ⟨.empty, []⟩ Frames.size_nil cut.nonempty
  simp only [AutoBuffer.empty, List.nil_append, cut.stream] at run
  obtain ⟨inside, outside⟩ := run last
  rw [received_feed cut.nonempty]
  constructor
  · intro headers
    obtain ⟨next, returns, handled, data⟩ := inside headers
    rw [AutoBuffer.empty, returns, Exec.ok_bind, handled, data]
    rfl
  · intro headers
    rw [AutoBuffer.empty, outside headers]
    rfl

/-- One byte at a time. -/
def bytewise (stream : Bytes) : List ReadEvent := stream.map fun byte => .data [byte]

theorem chunksOf_bytewise (stream : Bytes) :
    chunksOf (bytewise stream) = stream.map fun byte => [byte] := by
  induction stream with
  | nil => rfl
  | cons byte stream inductionHypothesis => exact congrArg ([byte] :: ·) inductionHypothesis

theorem bytewise_isCut (stream : Bytes) : IsCut stream (bytewise stream) := by
  refine ⟨?_, ?_, ?_⟩
  · rw [chunksOf_bytewise, ← List.flatMap_def, List.flatMap_singleton']
  all_goals
    rw [chunksOf_bytewise, List.forall_mem_map]
    simp

/-- The last byte of a message that was incomplete before completes nothing but that message. -/
theorem size_concat {p : Bytes} {byte : UInt8} {n : Nat} (incomplete : messageFrames.size p = none)
    (found : messageFrames.size (p ++ [byte]) = some n) : n = (p ++ [byte]).length := by
  have bounded := messageFrames.size_le found
  by_contra inner
  have inside : n ≤ p.length := by
    rw [List.length_append, List.length_singleton] at bounded inner
    omega
  have front := messageFrames.size_take found
  rw [List.take_append_of_le_length inside] at front
  have whole := messageFrames.size_append (p.drop n) front
  rw [List.take_append_drop, incomplete] at whole
  cases whole

theorem bytewise_headersInside {stream : Bytes} {inBuf : AutoBuffer}
    (incomplete : messageFrames.size inBuf.data = none) :
    HeadersInside inBuf (chunksOf (bytewise stream)) := by
  rw [chunksOf_bytewise]
  induction stream generalizing inBuf with
  | nil => trivial
  | cons byte stream inductionHypothesis =>
      have data : (autoBufferPush inBuf [byte]).data = inBuf.data ++ [byte] := rfl
      rw [List.map_cons, HeadersInside]
      cases found : messageFrames.size (inBuf.data ++ [byte]) with
      | none =>
          have rest : afterMessages (inBuf.data ++ [byte]) = inBuf.data ++ [byte] := by
            rw [afterMessages, Frames.drain_none found]
          rw [data, rest]
          refine ⟨?_, inductionHypothesis found⟩
          rw [HeaderInside, data, rest]
          by_cases short : (inBuf.data ++ [byte]).length < 24
          · exact .inl short
          · exact .inr (.inr (by omega))
      | some n =>
          have whole := size_concat incomplete found
          have rest : afterMessages (inBuf.data ++ [byte]) = [] := by
            rw [afterMessages, Frames.drain_proceed found rfl, whole, List.drop_length,
              Frames.drain_none Frames.size_nil]
          rw [data, rest]
          refine ⟨?_, inductionHypothesis Frames.size_nil⟩
          rw [HeaderInside, data, rest]
          exact .inr (.inl rfl)

theorem bytewise_append (first second : Bytes) :
    bytewise (first ++ second) = bytewise first ++ bytewise second := List.map_append

/-- Byte by byte, a stream leads to what it says. -/
theorem feed_bytewise (node : SpvNode) {stream : Bytes}
    (last : (dispatch node [] stream).behind = []) :
    ∃ next, feed node (chunksOf (bytewise stream)) ⟨.empty, []⟩ =
        .ok ((dispatch node [] stream).state.1, next) ∧
      next.handled = (dispatch node [] stream).state.2 ∧
      next.inBuf.data = (dispatch node [] stream).buffered := by
  have cut := bytewise_isCut stream
  have run := @feed_dispatch node (chunksOf (bytewise stream)) ⟨.empty, []⟩ Frames.size_nil
    cut.nonempty
  simp only [AutoBuffer.empty, List.nil_append, cut.stream] at run
  exact (run last).1 (bytewise_headersInside Frames.size_nil)

/-- When bytes follow the message that fails, two cuts tell them apart: one that ends with this
message, and one that brings its last byte together with the next one. -/
theorem cuts_differ {stream : Bytes} (more : (dispatch node [] stream).behind ≠ []) :
    ∃ first second, IsCut stream first ∧ IsCut stream second ∧
      received node first ≠ received node second := by
  have stopped : (dispatch node [] stream).running = false := by
    cases running : (dispatch node [] stream).running with
    | true => exact absurd (Frames.drain_behind running) more
    | false => rfl
  obtain ⟨front, parts, same⟩ := Frames.drain_front stopped
  change dispatch node [] front = { dispatch node [] stream with behind := [] } at same
  change stream = front ++ (dispatch node [] stream).behind at parts
  obtain ⟨y, others, rest⟩ := List.exists_cons_of_ne_nil more
  rw [rest] at parts
  have frontStopped : (dispatch node [] front).running = false := by rw [same, stopped]
  have frontLast : (dispatch node [] front).behind = [] := by rw [same]
  obtain ⟨init, x, rfl⟩ : ∃ init x, front = init ++ [x] := by
    rcases List.eq_nil_or_concat' front with rfl | ⟨init, x, concat⟩
    · rw [dispatch, Frames.drain_none Frames.size_nil] at frontStopped
      cases frontStopped
    · exact ⟨init, x, concat⟩
  have initRunning : (dispatch node [] init).running = true := by
    by_contra halted
    have appended := Frames.drain_append_stopped [x] (Bool.eq_false_of_not_eq_true halted)
    change dispatch node [] (init ++ [x]) = _ at appended
    rw [appended] at frontLast
    exact List.cons_ne_nil x [] (List.append_eq_nil_iff.1 frontLast).2
  have initStatus := (messageLoop_running 0 (Nat.lt_succ_self _) (le_refl 0) initRunning).1
  have frontNegative :=
    (messageLoop_stopped 0 0 (Nat.lt_succ_self _) frontStopped (by rw [frontLast]; decide)).1
  let together : List ReadEvent := bytewise init ++ .data [x, y] :: bytewise others
  have chunks : chunksOf together =
      chunksOf (bytewise init) ++ [x, y] :: chunksOf (bytewise others) := chunksOf_append _ _
  have cut : IsCut stream together := by
    refine ⟨?_, ?_, ?_⟩
    · rw [chunks, List.flatten_append, List.flatten_cons, (bytewise_isCut init).stream,
        (bytewise_isCut others).stream, parts]
      simp only [List.append_assoc, List.cons_append, List.nil_append]
    · rw [chunks, List.forall_mem_append, List.forall_mem_cons]
      exact ⟨(bytewise_isCut init).nonempty, by simp, (bytewise_isCut others).nonempty⟩
    · rw [chunks, List.forall_mem_append, List.forall_mem_cons]
      exact ⟨(bytewise_isCut init).fits, by simp, (bytewise_isCut others).fits⟩
  refine ⟨bytewise stream, together, bytewise_isCut stream, cut, ?_⟩
  -- the first cut ends with the message
  obtain ⟨ended, frontFeed, endedHandled, endedData⟩ := feed_bytewise node frontLast
  have first : received node (bytewise stream) =
      .ok ((dispatch node [] (init ++ [x])).state.1, ended.handled, ended.inBuf.data) := by
    rw [received_feed (bytewise_isCut stream).nonempty, parts, bytewise_append, chunksOf_append,
      feed_append frontFeed, if_pos frontNegative]
    rfl
  -- the second one brings another byte with it
  obtain ⟨begun, initFeed, begunHandled, begunData⟩ :=
    feed_bytewise node (Frames.drain_behind initRunning)
  have pass : dispatch node begun.handled (pushed begun [x, y]).data =
      { dispatch node [] (init ++ [x]) with behind := [y] } := by
    rw [pushed_data, begunData, begunHandled, ← dispatch_append _ initRunning]
    have appended := Frames.drain_append_stopped [y] frontStopped
    change dispatch node [] (init ++ [x] ++ [y]) = { dispatch node [] (init ++ [x]) with
      behind := (dispatch node [] (init ++ [x])).behind ++ [y] } at appended
    rw [List.append_assoc, frontLast] at appended
    exact appended
  have second : received node together =
      onReadData node begun [x, y] >>= fun outcome =>
        (if outcome.1 < 0 then .ok outcome
          else feed node (chunksOf (bytewise others)) outcome.2) >>= fun outcome =>
          .ok (outcome.1, outcome.2.handled, outcome.2.inBuf.data) := by
    rw [received_feed cut.nonempty, chunks, feed_append initFeed, if_neg (by omega), feed,
      bind_assoc]
  rw [first, second]
  have run := @onReadData_stopped node begun [x, y]
  rw [pass] at run
  obtain ⟨-, returns | ⟨-, fault⟩⟩ := run frontStopped (le_refl 1)
  · rw [returns, Exec.ok_bind, if_pos frontNegative]
    intro equal
    simp only [Exec.ok_bind, Exec.ok.injEq, Prod.mk.injEq] at equal
    have longer := congrArg List.length equal.2.2
    rw [endedData, List.length_append, List.length_singleton] at longer
    omega
  · rw [fault]
    intro equal
    cases equal

/-- All ways of cutting a stream have one outcome exactly when no byte follows the first message
that fails and no cut leaves a header across the end of the allocation. The outcome then is the
one the stream says. -/
theorem received_agree_iff (node : SpvNode) (stream : Bytes) :
    ((∀ first second, IsCut stream first → IsCut stream second →
        received node first = received node second) ↔
      (dispatch node [] stream).behind = [] ∧
        ∀ events, IsCut stream events → HeadersInside .empty (chunksOf events)) ∧
    ((dispatch node [] stream).behind = [] →
      ∀ events, IsCut stream events → HeadersInside .empty (chunksOf events) →
        received node events = .ok (dispatched node stream)) := by
  refine ⟨⟨fun agree => ?_, fun condition first second firstCut secondCut => ?_⟩,
    fun last events cut => (received_of_cut cut last).1⟩
  · have last : (dispatch node [] stream).behind = [] := by
      by_contra more
      obtain ⟨first, second, firstCut, secondCut, differ⟩ := cuts_differ more
      exact differ (agree first second firstCut secondCut)
    refine ⟨last, fun events cut => ?_⟩
    by_contra outside
    have same := agree _ _ cut (bytewise_isCut stream)
    rw [(received_of_cut cut last).2 outside, (received_of_cut (bytewise_isCut stream) last).1
      (bytewise_headersInside Frames.size_nil)] at same
    cases same
  · obtain ⟨last, inside⟩ := condition
    rw [(received_of_cut firstCut last).1 (inside first firstCut),
      (received_of_cut secondCut last).1 (inside second secondCut)]

/-! ## Two cuts of one stream -/

/-- The handler fails on the first message. -/
def sampleNode : SpvNode where
  crypto := sampleCrypto
  magic := 0xd9b4bef9
  Object := Unit
  parsers _ := none
  onMessageHandler handled _ := if handled.length = 0 then -1 else 0

def verackBytes : Bytes :=
  leBytes 4 0xd9b4bef9 ++ [0x76, 0x65, 0x72, 0x61, 0x63, 0x6b, 0, 0, 0, 0, 0, 0] ++ leBytes 4 0 ++
    (hash256 sampleCrypto []).val.take 4

def verackMessage : BitcoinMessage sampleNode.Object := ⟨verackBytes, .verack, none⟩

instance : DecidableEq (BitcoinMessage sampleNode.Object) :=
  inferInstanceAs (DecidableEq (BitcoinMessage Unit))

/-- In one chunk, the second message overwrites the failure of the first one. -/
theorem received_differs :
    IsCut (verackBytes ++ verackBytes) [.data verackBytes, .data verackBytes] ∧
      IsCut (verackBytes ++ verackBytes) [.data (verackBytes ++ verackBytes)] ∧
      received sampleNode [.data verackBytes, .data verackBytes] = .ok (-1, [verackMessage], []) ∧
      received sampleNode [.data (verackBytes ++ verackBytes)] =
        .ok (0, [verackMessage, verackMessage], []) :=
  ⟨⟨rfl, by decide +kernel, by decide +kernel⟩, ⟨rfl, by decide +kernel, by decide +kernel⟩,
    by decide +kernel, by decide +kernel⟩

end BitcoinClib.Net
