import BitcoinClib.Chains.Arrivals
import BitcoinClib.Net.Headers

/-!
Contract: the `getheaders` messages of a node, and who answers them.

Owns:
- the frame a callback puts into the output buffer, and which callbacks ask for headers;
- the locator in such a frame, whose first hash is that of the tip;
- `honestPeer`, the answer of a peer that has the headers of one chain;
- the loop over the headers of an answer, for a block chain in sync with that chain.

Does not own: the order in which messages arrive.

The functions of the single messages are parameters; `LocatorsRead` is what is documented of those
for `getheaders`.
-/

namespace BitcoinClib.Net

open BitcoinClib.Lib
open BitcoinClib.Types
open BitcoinClib.Crypto
open BitcoinClib.Chains

variable {env : NodeEnv}

/-! ## Frames -/

/-- The message that a callback appended to the output buffer, if any. -/
def sentBy (before after : SpvNodeContext env) : List Bytes :=
  let frame := after.outBuf.drop before.outBuf.length
  if frame = [] then [] else [frame]

/-- The type that the header of a frame names. -/
def frameType (frame : Bytes) : BitcoinMessageType :=
  bitcoinMessageTypeFromString (hdrCommand frame)

theorem sentBy_same {before after : SpvNodeContext env} (same : after.outBuf = before.outBuf) :
    sentBy before after = [] := by
  rw [sentBy, same, List.drop_length]
  rfl

theorem sentBy_pushOut {before after : SpvNodeContext env} {frame : Bytes}
    (pushed : after.outBuf = before.outBuf ++ frame) (nonempty : frame ≠ []) :
    sentBy before after = [frame] := by
  rw [sentBy, pushed, List.drop_left]
  exact if_neg nonempty

/-- The field for the command in the header of a message. -/
def commandField (command : String) : Bytes :=
  (command.toUTF8.toList ++ List.replicate 12 0).take 12

theorem commandField_length (command : String) : (commandField command).length = 12 := by
  rw [commandField, List.length_take, List.length_append, List.length_replicate]
  omega

/-- The command of a frame, and what stands behind its header. -/
theorem frame_parts {magic checksum payload : Bytes} {command : String} {length : Nat}
    (magicSize : magic.length = 4) (checksumSize : checksum.length = 4) :
    hdrCommand (messageHeader magic command length checksum ++ payload) = commandField command ∧
      (messageHeader magic command length checksum ++ payload).drop messageHeaderSize = payload ∧
      messageHeader magic command length checksum ++ payload ≠ [] := by
  have size : (messageHeader magic command length checksum).length = messageHeaderSize := by
    have field := commandField_length command
    rw [commandField] at field
    rw [messageHeader, List.length_append, List.length_append, List.length_append, field,
      leBytes_length, magicSize, checksumSize]
    rfl
  refine ⟨?_, ?_, ?_⟩
  · rw [hdrCommand, messageHeader, List.append_assoc, List.append_assoc, List.append_assoc,
      ← magicSize, List.drop_left, ← commandField]
    conv_lhs => rw [← commandField_length command]
    rw [List.take_left]
  · rw [← size, List.drop_left]
  · intro empty
    have lengths := congrArg List.length empty
    rw [List.length_append, size, List.length_nil, messageHeaderSize] at lengths
    omega

/-- A frame that `spv_node_send_message` puts into the output buffer. -/
theorem spvNodeSendMessage_frame (spv : SpvNodeContext env) {magic payload : Bytes}
    (command : String) {object : MessageObject env.Tx env.Block} (magicSize : magic.length = 4)
    (encodes : env.messages.serialize object = some payload) :
    ∃ frame, sentBy spv (spvNodeSendMessage spv magic command object) = [frame] ∧
      hdrCommand frame = commandField command ∧ frame.drop messageHeaderSize = payload := by
  have checksumSize : (if payload = [] then emptyPayloadChecksum
      else (hash256 env.crypto payload).val.take 4).length = 4 := by
    split
    · exact leBytes_length _ _
    · rw [List.length_take, (hash256 env.crypto payload).property]
      rfl
  obtain ⟨isCommand, behind, nonempty⟩ :
      hdrCommand (messageHeader magic command payload.length _ ++ payload) = _ ∧ _ ∧ _ :=
    frame_parts magicSize checksumSize
  refine ⟨_, sentBy_pushOut ?_ nonempty, isCommand, behind⟩
  rw [spvNodeSendMessage, encodes]
  rfl

theorem spvNodeSendMessage_chain (spv : SpvNodeContext env) (magic : Bytes) (command : String)
    (object : MessageObject env.Tx env.Block) :
    (spvNodeSendMessage spv magic command object).chain = spv.chain := by
  unfold spvNodeSendMessage
  split
  · rfl
  · rfl

/-! ## Requests -/

/-- What is documented of the functions for `getheaders`: a locator of a size that is allowed can
be sent, and a peer reads the hashes that were sent. -/
def LocatorsRead (env : NodeEnv) : Prop :=
  ∀ locator : BlockLocator, 0 < locator.hashes.length → locator.hashes.length ≤ 2000 →
    ∃ payload read, env.messages.serialize (.getheaders locator) = some payload ∧
      env.messages.getheadersParse payload = some read ∧ read.hashes = locator.hashes

/-- A frame that asks for the headers above a block. -/
def AsksAbove (env : NodeEnv) (hash : Uint256) (frame : Bytes) : Prop :=
  frameType frame = .getheaders ∧ ∃ locator : BlockLocator,
    env.messages.getheadersParse (frame.drop messageHeaderSize) = some locator ∧
      locator.hashes.head? = some hash

theorem knownHashesLoop_head (heirHash : Nat → Uint256) {slots i step height : Nat}
    (room : 0 < slots) : (knownHashesLoop heirHash slots i step height).2.head? =
      some (heirHash height) := by
  cases slots with
  | zero => exact absurd room (Nat.lt_irrefl 0)
  | succ slots =>
      rw [knownHashesLoop]
      by_cases genesis : height = 0
      · rw [if_pos genesis, genesis]
        rfl
      · rw [if_neg genesis]
        rfl

/-- Asking for more headers sends a frame that asks for those above the tip. -/
theorem pullHeaders_asks (reads : LocatorsRead env) (spv : SpvNodeContext env) {magic : Bytes}
    {maxHashes : Nat} (magicSize : magic.length = 4)
    (enough : maxHashes = 0 ∨ 74 ≤ maxHashes) :
    ∃ after frame, pullHeaders spv magic maxHashes = .ok (0, after) ∧ after.chain = spv.chain ∧
      sentBy spv after = [frame] ∧
      AsksAbove env (env.heirHash spv.chain (env.chainHeight spv.chain)) frame := by
  obtain ⟨whole, present, bounded⟩ := blockchainGetKnownHashes_count spv.chain enough
  have inRange : ¬ ((blockchainGetKnownHashes env spv.chain maxHashes).1 = 0 ∨
      2000 < (blockchainGetKnownHashes env spv.chain maxHashes).1) := by omega
  have copied : ¬ (blockchainGetKnownHashes env spv.chain maxHashes).2.length <
      (blockchainGetKnownHashes env spv.chain maxHashes).1 := by omega
  have slots : 0 < if maxHashes = 0 ∨ 2000 < maxHashes then 2000 else maxHashes := by
    split_ifs with outside
    · decide
    · omega
  have isTip : (blockchainGetKnownHashes env spv.chain maxHashes).2.head? =
      some (env.heirHash spv.chain (env.chainHeight spv.chain)) := knownHashesLoop_head _ slots
  simp only [pullHeaders, Exec.assert_of present, Exec.ok_bind, bitcoinMessageGetheadersSet,
    if_neg inRange, if_neg copied]
  rw [whole] at present bounded ⊢
  rw [List.take_length]
  obtain ⟨payload, read, encodes, decodes, sameHashes⟩ :=
    reads ⟨_, _, uint256Zero⟩ present bounded
  obtain ⟨frame, sent, isCommand, behind⟩ :=
    spvNodeSendMessage_frame spv "getheaders" magicSize encodes
  have parsed := (congrArg env.messages.getheadersParse behind).trans decodes
  refine ⟨_, frame, rfl, spvNodeSendMessage_chain _ _ _ _, sent, ?_, read, parsed,
    (congrArg List.head? sameHashes).trans isTip⟩
  rw [frameType, isCommand]
  decide +kernel

/-! ## The callbacks -/

/-- A callback that only changes other fields sends nothing. -/
theorem sends_nothing {before after : SpvNodeContext env} (chain : after.chain = before.chain)
    (same : after.outBuf = before.outBuf) :
    after.chain = before.chain ∧ ∀ frame ∈ sentBy before after, frameType frame ≠ .getheaders := by
  refine ⟨chain, fun frame inside => ?_⟩
  rw [sentBy_same same] at inside
  cases inside

/-- A callback that sends a message with another command. -/
theorem sends_other {before after : SpvNodeContext env} {frame : Bytes} {command : String}
    (chain : after.chain = before.chain) (pushed : after.outBuf = before.outBuf ++ frame)
    (isCommand : hdrCommand frame = commandField command) (nonempty : frame ≠ [])
    (other : bitcoinMessageTypeFromString (commandField command) ≠ .getheaders) :
    after.chain = before.chain ∧ ∀ frame ∈ sentBy before after, frameType frame ≠ .getheaders := by
  refine ⟨chain, fun sent inside => ?_⟩
  rw [sentBy_pushOut pushed nonempty, List.mem_singleton] at inside
  rw [inside, frameType, isCommand]
  exact other

theorem onMessageDumped_sends {spv after : SpvNodeContext env} {inMsg : InMessage env} {rc : Int}
    (returns : onMessageDumped spv inMsg = .ok (rc, after)) :
    after.chain = spv.chain ∧ ∀ frame ∈ sentBy spv after, frameType frame ≠ .getheaders := by
  obtain ⟨_, -, done⟩ := Exec.bind_eq_ok.1 returns
  cases done
  exact sends_nothing rfl rfl

/-- A message other than `headers` leaves the chain as it is, and the callbacks for messages other
than `headers` and `verack` ask for nothing. -/
theorem onMessageHandler_others {spv after : SpvNodeContext env} {inMsg : InMessage env} {rc : Int}
    (whole : messageHeaderSize ≤ inMsg.msgData.length) (notHeaders : inMsg.msgType ≠ .headers)
    (notVerack : inMsg.msgType ≠ .verack)
    (returns : onMessageHandler spv inMsg = .ok (rc, after)) :
    after.chain = spv.chain ∧ ∀ frame ∈ sentBy spv after, frameType frame ≠ .getheaders := by
  obtain ⟨msgData, msgType, msgObject⟩ := inMsg
  have magicSize : (msgData.take 4).length = 4 := by
    rw [List.length_take]
    change 24 ≤ msgData.length at whole
    omega
  cases msgType with
  | headers => exact absurd rfl notHeaders
  | verack => exact absurd rfl notVerack
  | version =>
      obtain ⟨_, -, returns⟩ := Exec.bind_eq_ok.1 returns
      cases msgObject with
      | none => cases returns
      | some object =>
          cases object with
          | version msgVer =>
              cases returns
              obtain ⟨isCommand, -, nonempty⟩ : hdrCommand (messageHeader (msgData.take 4)
                  "verack" 0 emptyPayloadChecksum ++ []) = commandField "verack" ∧ _ ∧ _ :=
                frame_parts magicSize (leBytes_length 4 _)
              rw [List.append_nil] at isCommand nonempty
              exact sends_other rfl rfl isCommand nonempty (by decide +kernel)
          | _ => cases returns
  | addr =>
      cases msgObject with
      | none => cases returns
      | some object =>
          cases object with
          | addr addrs =>
              cases returns
              exact sends_nothing rfl rfl
          | _ => cases returns
  | inv =>
      obtain ⟨_, -, returns⟩ := Exec.bind_eq_ok.1 returns
      cases msgObject with
      | none => cases returns
      | some object =>
          cases object with
          | inv invs =>
              cases returns
              cases encodes : env.messages.serialize (.getdata invs) with
              | none =>
                  refine sends_nothing (spvNodeSendMessage_chain _ _ _ _) ?_
                  rw [spvNodeSendMessage, encodes]
              | some payload =>
                  obtain ⟨frame, sent, isCommand, -⟩ :=
                    spvNodeSendMessage_frame spv "getdata" magicSize encodes
                  refine ⟨spvNodeSendMessage_chain _ _ _ _, fun other inside => ?_⟩
                  rw [sent, List.mem_singleton] at inside
                  rw [inside, frameType, isCommand]
                  decide +kernel
          | _ => cases returns
  | ping =>
      obtain ⟨_, -, returns⟩ := Exec.bind_eq_ok.1 returns
      cases returns
      have checksumSize : (hdrChecksum msgData).length = 4 := by
        rw [hdrChecksum, List.length_take, List.length_drop]
        change 24 ≤ msgData.length at whole
        omega
      obtain ⟨isCommand, -, nonempty⟩ : hdrCommand (messageHeader (msgData.take 4) "pong" 8
          (hdrChecksum msgData) ++ (msgData.drop messageHeaderSize).take 8) =
            commandField "pong" ∧ _ ∧ _ := frame_parts magicSize checksumSize
      exact sends_other rfl rfl isCommand nonempty (by decide +kernel)
  | sendheaders =>
      cases returns
      exact sends_nothing rfl rfl
  | getdata => exact onMessageDumped_sends returns
  | notfound => exact onMessageDumped_sends returns
  | getblocks => exact onMessageDumped_sends returns
  | getheaders => exact onMessageDumped_sends returns
  | tx => exact onMessageDumped_sends returns
  | block => exact onMessageDumped_sends returns
  | _ =>
      cases returns
      exact sends_nothing rfl rfl

/-! ## The peer -/

section Peer

variable {chainEnv : ChainEnv Uint256} {genesis : Uint256}
  {headers : List (SatoshiBlockHeader Uint256)}

/-- The height of a block among the headers of a chain. -/
def blockHeight (chainEnv : ChainEnv Uint256) (genesis : Uint256)
    (headers : List (SatoshiBlockHeader Uint256)) (hash : Uint256) : Option Nat :=
  let place := (genesis :: headers.map chainEnv.hash256).idxOf hash
  if place ≤ headers.length then some place else none

/-- The headers from a height on that one message takes. -/
def headersFrom (headers : List (SatoshiBlockHeader Uint256)) (height : Nat) :
    List (SatoshiBlockHeader Uint256) :=
  (headers.drop height).take 2000

/-- The answer of a peer with these headers: up to 2000 headers above the first block of the
locator that it knows, or above the genesis block. Frames of other types are not answered. -/
def honestPeer (env : NodeEnv) (chainEnv : ChainEnv Uint256) (genesis : Uint256)
    (headers : List (SatoshiBlockHeader Uint256)) (frame : Bytes) :
    Option (List (SatoshiBlockHeader Uint256)) :=
  if frameType frame = .getheaders then
    (env.messages.getheadersParse (frame.drop messageHeaderSize)).map fun locator =>
      headersFrom headers
        ((locator.hashes.findSome? (blockHeight chainEnv genesis headers)).getD 0)
  else none

theorem blockHeight_of (distinct : (genesis :: headers.map chainEnv.hash256).Nodup) {place : Nat}
    {hash : Uint256} (isBlock : (genesis :: headers.map chainEnv.hash256)[place]? = some hash) :
    blockHeight chainEnv genesis headers hash = some place := by
  obtain ⟨inRange, rfl⟩ := List.getElem?_eq_some_iff.1 isBlock
  have position := List.get_idxOf distinct ⟨place, inRange⟩
  rw [List.get_eq_getElem] at position
  rw [blockHeight, position]
  refine if_pos ?_
  rw [List.length_cons, List.length_map] at inRange
  exact Nat.le_of_lt_succ inRange

/-- The peer answers a frame that asks for the headers above one of its blocks. -/
theorem honestPeer_answers (distinct : (genesis :: headers.map chainEnv.hash256).Nodup)
    {place : Nat} {hash : Uint256} {frame : Bytes}
    (isBlock : (genesis :: headers.map chainEnv.hash256)[place]? = some hash)
    (asks : AsksAbove env hash frame) :
    honestPeer env chainEnv genesis headers frame = some (headersFrom headers place) := by
  obtain ⟨isType, locator, parsed, isFirst⟩ := asks
  obtain ⟨others, isHashes⟩ := List.head?_eq_some_iff.1 isFirst
  rw [honestPeer, if_pos isType, parsed, Option.map_some, isHashes, List.findSome?_cons,
    blockHeight_of distinct isBlock]
  rfl

theorem honestPeer_silent {frame : Bytes} (other : frameType frame ≠ .getheaders) :
    honestPeer env chainEnv genesis headers frame = none := if_neg other

end Peer

/-! ## A node in sync -/

theorem addHeaders_goes_on {chain next : env.Chain} {hdr : SatoshiBlockHeader Uint256}
    {rest : List (SatoshiBlockHeader Uint256)} (adds : env.chainAdd chain hdr = .ok (0, next)) :
    App.addHeaders env (hdr :: rest) chain = App.addHeaders env rest next := by
  rw [App.addHeaders, adds, Exec.ok_bind]
  exact if_neg (not_not.2 rfl)

section InSync

variable {chainEnv : ChainEnv Uint256} {fuel : Nat} {genesis : BlockchainHeir Uint256}
  {headers arrived : List (SatoshiBlockHeader Uint256)}

/-- The block chain is in sync with those of the headers that have arrived. -/
def ChainSynced (chainEnv : ChainEnv Uint256) (genesis : BlockchainHeir Uint256)
    (headers arrived : List (SatoshiBlockHeader Uint256)) (chain : Blockchain Uint256) : Prop :=
  Synced chainEnv genesis headers (· ∈ arrived) chain

/-- The hash of the tip, as the locator starts with it. -/
def tipHash (chainEnv : ChainEnv Uint256) (chain : SizedChain) : Uint256 :=
  ((chain.val.heirs[chain.val.height]?).map BlockchainHeir.hash).getD chainEnv.zeroHash

/-- The tip of a block chain in sync is a block of the chain of the headers. -/
theorem ChainSynced.tip {chain : SizedChain}
    (synced : ChainSynced chainEnv genesis headers arrived chain.val) :
    (genesis.hash :: headers.map chainEnv.hash256)[chain.val.height]? =
      some (tipHash chainEnv chain) := by
  have hashes := synced.hashes
  have inside : chain.val.height < chain.val.heirs.length := by
    rw [synced.front.2.2, List.length_cons, heirsOf_length, List.length_take,
      Nat.min_eq_left synced.front.2.1]
    exact Nat.lt_succ_self _
  have stored := List.getElem?_eq_getElem inside
  have isTip : (chain.val.heirs.map BlockchainHeir.hash)[chain.val.height]? =
      some chain.val.heirs[chain.val.height].hash := by
    rw [List.getElem?_map, stored]
    rfl
  rw [hashes, List.getElem?_take_of_lt (Nat.lt_succ_self _)] at isTip
  rw [isTip, tipHash, stored]
  rfl

/-- Headers of the chain from a height on that the block chain has reached: the loop over them
returns and forgets none, and if they start above the tip, the block chain gets higher. -/
theorem addHeaders_synced (oneChain : OneChain chainEnv genesis.hash headers)
    (enough : headers.length + 1 < fuel) {chain : SizedChain}
    {hdrs : List (SatoshiBlockHeader Uint256)} {place : Nat}
    (synced : ChainSynced chainEnv genesis headers arrived chain.val)
    (isPart : hdrs <+: headers.drop place) (reached : place ≤ chain.val.height) :
    ∃ (after : SizedChain) (later : List (SatoshiBlockHeader Uint256)),
      App.addHeaders (chainNode fuel chainEnv env) hdrs chain = .ok after ∧
        ChainSynced chainEnv genesis headers later after.val ∧ arrived ⊆ later ∧
        chain.val.height ≤ after.val.height ∧
        (hdrs ≠ [] → place = chain.val.height → chain.val.height < after.val.height) ∧
        (hdrs ≠ [] → place ≠ chain.val.height → after = chain) := by
  induction hdrs generalizing chain arrived place with
  | nil =>
      refine ⟨chain, arrived, rfl, synced, fun _ => id, Nat.le_refl _, ?_, ?_⟩
      · intro impossible
        exact absurd rfl impossible
      · intro impossible
        exact absurd rfl impossible
  | cons hdr rest inductionHypothesis =>
      have isHdr : headers[place]? = some hdr := by
        obtain ⟨others, same⟩ := isPart
        rw [← List.head?_drop, ← same]
        rfl
      rcases Nat.lt_or_eq_of_le reached with below | atTip
      · -- the header is an heir, and the loop ends
        have adds : (chainNode fuel chainEnv env).chainAdd chain hdr = .ok (-1, chain) :=
          chainAddSized_returns (synced.known below isHdr) chain.property
        refine ⟨chain, arrived, addHeaders_refused adds (by decide), synced, fun _ => id,
          Nat.le_refl _, fun _ same => ?_, fun _ _ => rfl⟩
        exact absurd same (Nat.ne_of_lt below)
      · rw [atTip] at isHdr
        obtain ⟨next, adds, nextSynced, higher⟩ := synced.next oneChain isHdr enough
        have bounded : next.height < 2 ^ 63 := by
          have room := oneChain.room
          have inside := nextSynced.front.2.1
          rw [blockchainDefaultAllocSize] at room
          omega
        have addsSized : (chainNode fuel chainEnv env).chainAdd chain hdr =
            .ok (0, ⟨next, bounded⟩) := chainAddSized_returns adds bounded
        have isRest : rest <+: headers.drop (place + 1) := by
          obtain ⟨others, same⟩ := isPart
          refine ⟨others, ?_⟩
          rw [← List.tail_drop, ← same]
          rfl
        obtain ⟨after, later, loop, afterSynced, keeps, notLower, -, -⟩ : ∃ (after : SizedChain)
            (later : List (SatoshiBlockHeader Uint256)),
            App.addHeaders (chainNode fuel chainEnv env) rest ⟨next, bounded⟩ = .ok after ∧
              ChainSynced chainEnv genesis headers later after.val ∧ arrived ++ [hdr] ⊆ later ∧
              next.height ≤ after.val.height ∧ _ ∧ _ :=
          inductionHypothesis nextSynced isRest (by rw [atTip]; exact higher)
        refine ⟨after, later, ?_, afterSynced, ?_, ?_, ?_, ?_⟩
        · exact (addHeaders_goes_on addsSized).trans loop
        · exact fun other inside => keeps (List.mem_append_left _ inside)
        · exact Nat.le_trans (Nat.le_of_lt higher) notLower
        · exact fun _ _ => Nat.lt_of_lt_of_le higher notLower
        · exact fun _ differs => absurd atTip differs

theorem onMessageHandler_pulls {spv after : SpvNodeContext env} {msgData : Bytes}
    {hdr : SatoshiBlockHeader Uint256} {rest : List (SatoshiBlockHeader Uint256)}
    {chain : env.Chain} (loop : App.addHeaders env (hdr :: rest) spv.chain = .ok chain)
    (pulls : pullHeaders { spv with chain } (msgData.take 4) 100 = .ok (0, after)) :
    onMessageHandler spv ⟨msgData, .headers, some (.headers (hdr :: rest))⟩ = .ok (0, after) := by
  show App.onMessageHeaders spv ⟨msgData, .headers, some (.headers (hdr :: rest))⟩ = _
  simp only [App.onMessageHeaders, loop, Exec.ok_bind, pulls]
  rfl

/-- A `headers` message with headers of the chain: the node handles it, and asks for those above
its new tip unless the message is empty. -/
theorem onMessageHeaders_synced (reads : LocatorsRead env)
    (oneChain : OneChain chainEnv genesis.hash headers) (enough : headers.length + 1 < fuel)
    {spv : SpvNodeContext (chainNode fuel chainEnv env)} {msgData : Bytes} {place : Nat}
    (whole : messageHeaderSize ≤ msgData.length)
    (synced : ChainSynced chainEnv genesis headers arrived spv.chain.val)
    (reached : place ≤ spv.chain.val.height) :
    ∃ (after : SpvNodeContext (chainNode fuel chainEnv env))
      (later : List (SatoshiBlockHeader Uint256)),
      onMessageHandler spv ⟨msgData, .headers, some (.headers (headersFrom headers place))⟩ =
          .ok (0, after) ∧
        ChainSynced chainEnv genesis headers later after.chain.val ∧ arrived ⊆ later ∧
        spv.chain.val.height ≤ after.chain.val.height ∧
        (headersFrom headers place ≠ [] → place = spv.chain.val.height →
          spv.chain.val.height < after.chain.val.height) ∧
        (place ≠ spv.chain.val.height → after.chain.val.height = spv.chain.val.height) ∧
        (headersFrom headers place = [] ∧ sentBy spv after = [] ∨
          ∃ frame, sentBy spv after = [frame] ∧
            AsksAbove env (tipHash chainEnv after.chain) frame) := by
  have nodeReads : LocatorsRead (chainNode fuel chainEnv env) := reads
  have isPart : headersFrom headers place <+: headers.drop place := List.take_prefix _ _
  obtain ⟨chain, later, loop, afterSynced, keeps, notLower, higher, same⟩ :=
    addHeaders_synced oneChain enough synced isPart reached
  cases isHdrs : headersFrom headers place with
  | nil =>
      refine ⟨spv, arrived, rfl, synced, fun _ => id, Nat.le_refl _, ?_, fun _ => rfl,
        .inl ⟨rfl, sentBy_same rfl⟩⟩
      intro impossible
      exact absurd rfl impossible
  | cons hdr rest =>
      rw [isHdrs] at loop higher same
      have magicSize : (msgData.take 4).length = 4 := by
        rw [List.length_take]
        change 24 ≤ msgData.length at whole
        omega
      let grown : SpvNodeContext (chainNode fuel chainEnv env) := { spv with chain := chain }
      obtain ⟨after, frame, pulls, sameChain, sent, asks⟩ :=
        pullHeaders_asks nodeReads grown magicSize (.inr (by decide : 74 ≤ 100))
      change after.chain = chain at sameChain
      have sentFrame : sentBy spv after = [frame] := sent
      refine ⟨after, later, ?_, ?_, keeps, ?_, ?_, ?_, .inr ⟨frame, sentFrame, ?_⟩⟩
      · exact onMessageHandler_pulls loop pulls
      · rw [sameChain]
        exact afterSynced
      · rw [sameChain]
        exact notLower
      · rw [sameChain]
        exact higher
      · intro differs
        rw [sameChain, same (List.cons_ne_nil _ _) differs]
      · rw [sameChain]
        exact asks

/-- A `verack` message: the node asks for the headers above its tip. -/
theorem onMessageVerack_asks (reads : LocatorsRead env)
    {spv after : SpvNodeContext (chainNode fuel chainEnv env)}
    {inMsg : InMessage (chainNode fuel chainEnv env)} {rc : Int}
    (whole : messageHeaderSize ≤ inMsg.msgData.length) (isVerack : inMsg.msgType = .verack)
    (returns : onMessageHandler spv inMsg = .ok (rc, after)) :
    after.chain = spv.chain ∧ ∃ frame, sentBy spv after = [frame] ∧
      AsksAbove env (tipHash chainEnv spv.chain) frame := by
  have nodeReads : LocatorsRead (chainNode fuel chainEnv env) := reads
  obtain ⟨msgData, msgType, msgObject⟩ := inMsg
  change msgType = .verack at isVerack
  subst isVerack
  have magicSize : (msgData.take 4).length = 4 := by
    rw [List.length_take]
    change 24 ≤ msgData.length at whole
    omega
  obtain ⟨next, frame, pulls, sameChain, sent, asks⟩ : ∃ next frame,
      pullHeaders spv (msgData.take 4) 0 = .ok (0, next) ∧ next.chain = spv.chain ∧
        sentBy spv next = [frame] ∧ AsksAbove (chainNode fuel chainEnv env) _ frame :=
    pullHeaders_asks nodeReads spv magicSize (.inl rfl)
  have same : pullHeaders spv (msgData.take 4) 0 = .ok (rc, after) := returns
  rw [pulls] at same
  cases same
  exact ⟨sameChain, frame, sent, asks⟩

end InSync

end BitcoinClib.Net
