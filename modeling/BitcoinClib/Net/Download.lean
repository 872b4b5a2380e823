import BitcoinClib.Net.GetHeaders

/-!
Contract: the download of block headers from a peer.

Owns:
- a connection between a node and a peer, with the messages of the node that the peer has not
  answered yet, and the runs of it in which messages arrive in any order (`Exchange`);
- that a block chain in sync with the headers of an honest peer stays in sync in every run, and
  that the node handles every answer (`download_in_sync`);
- that enough answers make all headers of the peer heirs (`download_completes`).

Does not own: the bytes on the wire, and connecting.

An answer of the peer depends on the message it answers only, so it is taken when it arrives.
-/

namespace BitcoinClib.Net

open BitcoinClib.Lib
open BitcoinClib.Types
open BitcoinClib.Chains

/-! ## Runs of a connection -/

/-- The context of the node, and its messages that the peer has not answered. -/
structure PeerLink (env : NodeEnv) where
  spv : SpvNodeContext env
  unread : List Bytes

/-- Runs of a connection: an answer of the peer to the first message of the node arrives, the peer
drops this message, or another message than `headers` arrives. The numbers count the answers and
the `verack` messages. -/
inductive Exchange {env : NodeEnv} (peer : Bytes → Option (List (SatoshiBlockHeader Uint256)))
    (start : PeerLink env) : Nat → Nat → PeerLink env → Prop
  | start : Exchange peer start 0 0 start
  | answered {answers veracks : Nat} {spv after : SpvNodeContext env} {frame : Bytes}
      {unread : List Bytes} {hdrs : List (SatoshiBlockHeader Uint256)} {msgData : Bytes} {rc : Int}
      (earlier : Exchange peer start answers veracks ⟨spv, frame :: unread⟩)
      (answer : peer frame = some hdrs) (whole : messageHeaderSize ≤ msgData.length)
      (returns : onMessageHandler spv ⟨msgData, .headers, some (.headers hdrs)⟩ =
        .ok (rc, after)) :
      Exchange peer start (answers + 1) veracks ⟨after, unread ++ sentBy spv after⟩
  | dropped {answers veracks : Nat} {spv : SpvNodeContext env} {frame : Bytes}
      {unread : List Bytes} (earlier : Exchange peer start answers veracks ⟨spv, frame :: unread⟩)
      (silent : peer frame = none) : Exchange peer start answers veracks ⟨spv, unread⟩
  | received {answers veracks : Nat} {spv after : SpvNodeContext env} {unread : List Bytes}
      {inMsg : InMessage env} {rc : Int}
      (earlier : Exchange peer start answers veracks ⟨spv, unread⟩)
      (whole : messageHeaderSize ≤ inMsg.msgData.length) (notHeaders : inMsg.msgType ≠ .headers)
      (returns : onMessageHandler spv inMsg = .ok (rc, after)) :
      Exchange peer start answers (veracks + if inMsg.msgType = .verack then 1 else 0)
        ⟨after, unread ++ sentBy spv after⟩

section Download

variable {env : NodeEnv} {chainEnv : ChainEnv Uint256} {fuel : Nat}
  {genesis : BlockchainHeir Uint256} {headers arrived : List (SatoshiBlockHeader Uint256)}

/-! ## In sync -/

/-- What the peer may still answer: headers from a height on that the node has reached. -/
structure Following (env : NodeEnv) (chainEnv : ChainEnv Uint256)
    (genesis : BlockchainHeir Uint256) (headers arrived : List (SatoshiBlockHeader Uint256))
    (chain : Blockchain Uint256) (unread : List Bytes) : Prop where
  synced : ChainSynced chainEnv genesis headers arrived chain
  asked : ∀ frame ∈ unread, honestPeer env chainEnv genesis.hash headers frame = none ∨
    ∃ place, place ≤ chain.height ∧
      honestPeer env chainEnv genesis.hash headers frame = some (headersFrom headers place)

/-- The node asks for what is above its tip. -/
theorem asks_tip (oneChain : OneChain chainEnv genesis.hash headers) {chain : SizedChain}
    (synced : ChainSynced chainEnv genesis headers arrived chain.val) {frame : Bytes}
    (asks : AsksAbove env (tipHash chainEnv chain) frame) :
    honestPeer env chainEnv genesis.hash headers frame =
      some (headersFrom headers chain.val.height) :=
  honestPeer_answers oneChain.distinct synced.tip asks

/-- Messages that are behind the others in the queue. -/
theorem Following.grow {chain later : Blockchain Uint256} {unread sent : List Bytes}
    {more : List (SatoshiBlockHeader Uint256)}
    (following : Following env chainEnv genesis headers arrived chain unread)
    (synced : ChainSynced chainEnv genesis headers more later)
    (notLower : chain.height ≤ later.height)
    (asked : ∀ frame ∈ sent, honestPeer env chainEnv genesis.hash headers frame = none ∨
      honestPeer env chainEnv genesis.hash headers frame =
        some (headersFrom headers later.height)) :
    Following env chainEnv genesis headers more later (unread ++ sent) where
  synced := synced
  asked := by
    intro frame inside
    rcases List.mem_append.1 inside with old | new
    · refine (following.asked frame old).imp_right ?_
      rintro ⟨place, reached, answer⟩
      exact ⟨place, Nat.le_trans reached notLower, answer⟩
    · exact (asked frame new).imp_right fun answer => ⟨_, Nat.le_refl _, answer⟩

theorem headersFrom_head (headers : List (SatoshiBlockHeader Uint256)) (place : Nat) :
    (headersFrom headers place).head? = headers[place]? := by
  rw [headersFrom, List.head?_take, List.head?_drop]
  rfl

/-- Headers from different heights differ. -/
theorem headersFrom_inj (distinct : headers.Nodup) {place height : Nat}
    (inside : height < headers.length) (reached : place ≤ height)
    (same : headersFrom headers place = headersFrom headers height) : place = height := by
  have heads := congrArg List.head? same
  rw [headersFrom_head, headersFrom_head] at heads
  refine Nat.le_antisymm reached (Nat.le_of_not_lt fun below => ?_)
  exact List.nodup_iff_getElem?_ne_getElem?.1 distinct place height below inside heads

theorem headersFrom_ne_nil {place : Nat} (inside : place < headers.length) :
    headersFrom headers place ≠ [] := by
  intro empty
  have head := headersFrom_head headers place
  rw [empty, List.getElem?_eq_getElem inside] at head
  cases head

/-- An answer that arrives: where headers are missing, it brings the next one or it is stale, and
the node asks for those above its tip. -/
theorem Following.answered (reads : LocatorsRead env)
    (oneChain : OneChain chainEnv genesis.hash headers) (enough : headers.length + 1 < fuel)
    {spv : SpvNodeContext (chainNode fuel chainEnv env)} {frame : Bytes} {unread : List Bytes}
    (following : Following env chainEnv genesis headers arrived spv.chain.val (frame :: unread))
    {hdrs : List (SatoshiBlockHeader Uint256)} {msgData : Bytes}
    (answer : honestPeer env chainEnv genesis.hash headers frame = some hdrs)
    (whole : messageHeaderSize ≤ msgData.length) :
    ∃ (after : SpvNodeContext (chainNode fuel chainEnv env))
      (later : List (SatoshiBlockHeader Uint256)),
      onMessageHandler spv ⟨msgData, .headers, some (.headers hdrs)⟩ = .ok (0, after) ∧
        Following env chainEnv genesis headers later after.chain.val
          (unread ++ sentBy spv after) ∧ arrived ⊆ later ∧
        spv.chain.val.height ≤ after.chain.val.height ∧
        (spv.chain.val.height < headers.length →
          (if hdrs = headersFrom headers spv.chain.val.height then
            spv.chain.val.height < after.chain.val.height
          else after.chain.val.height = spv.chain.val.height) ∧
          ∃ request, sentBy spv after = [request] ∧
            honestPeer env chainEnv genesis.hash headers request =
              some (headersFrom headers after.chain.val.height)) := by
  obtain ⟨place, reached, isReply⟩ : ∃ place, place ≤ spv.chain.val.height ∧
      honestPeer env chainEnv genesis.hash headers frame = some (headersFrom headers place) := by
    refine (following.asked frame List.mem_cons_self).resolve_left ?_
    rw [answer]
    exact Option.some_ne_none hdrs
  rw [answer, Option.some.injEq] at isReply
  subst isReply
  obtain ⟨after, later, returns, synced, keeps, notLower, higher, same, sent⟩ :=
    onMessageHeaders_synced reads oneChain enough whole following.synced reached
  refine ⟨after, later, returns, ?_, keeps, notLower, fun missing => ⟨?_, ?_⟩⟩
  · have rest : Following env chainEnv genesis headers arrived spv.chain.val unread :=
      ⟨following.synced, fun other inside => following.asked other (List.mem_cons_of_mem _ inside)⟩
    refine rest.grow synced notLower fun other inside => ?_
    rcases sent with ⟨-, nothing⟩ | ⟨request, isSent, asks⟩
    · rw [nothing] at inside
      cases inside
    · rw [isSent, List.mem_singleton] at inside
      subst inside
      exact .inr (asks_tip oneChain synced asks)
  · have distinct : headers.Nodup := (List.nodup_cons.1 oneChain.distinct).2.of_map
    split
    next fresh =>
      exact higher (headersFrom_ne_nil (Nat.lt_of_le_of_lt reached missing))
        (headersFrom_inj distinct missing reached fresh)
    next old =>
      refine same fun isTip => old ?_
      rw [isTip]
  · rcases sent with ⟨empty, -⟩ | ⟨request, isSent, asks⟩
    · exact absurd empty (headersFrom_ne_nil (Nat.lt_of_le_of_lt reached missing))
    · exact ⟨request, isSent, asks_tip oneChain synced asks⟩

/-- Another message that arrives. -/
theorem Following.received (reads : LocatorsRead env)
    (oneChain : OneChain chainEnv genesis.hash headers)
    {spv after : SpvNodeContext (chainNode fuel chainEnv env)} {unread : List Bytes}
    (following : Following env chainEnv genesis headers arrived spv.chain.val unread)
    {inMsg : InMessage (chainNode fuel chainEnv env)} {rc : Int}
    (whole : messageHeaderSize ≤ inMsg.msgData.length) (notHeaders : inMsg.msgType ≠ .headers)
    (returns : onMessageHandler spv inMsg = .ok (rc, after)) :
    after.chain = spv.chain ∧
      Following env chainEnv genesis headers arrived after.chain.val
        (unread ++ sentBy spv after) ∧
      (inMsg.msgType = .verack → ∃ frame, sentBy spv after = [frame] ∧
        honestPeer env chainEnv genesis.hash headers frame =
          some (headersFrom headers spv.chain.val.height)) ∧
      (inMsg.msgType ≠ .verack → ∀ frame ∈ sentBy spv after,
        honestPeer env chainEnv genesis.hash headers frame = none) := by
  by_cases isVerack : inMsg.msgType = .verack
  · obtain ⟨same, frame, sent, asks⟩ := onMessageVerack_asks reads whole isVerack returns
    have answer := asks_tip oneChain following.synced asks
    refine ⟨same, ?_, fun _ => ⟨frame, sent, answer⟩, fun other => absurd isVerack other⟩
    rw [same]
    refine following.grow following.synced (Nat.le_refl _) fun other inside => ?_
    rw [sent, List.mem_singleton] at inside
    subst inside
    exact .inr answer
  · obtain ⟨same, others⟩ := onMessageHandler_others whole notHeaders isVerack returns
    have silent : ∀ frame ∈ sentBy spv after,
        honestPeer env chainEnv genesis.hash headers frame = none :=
      fun frame inside => honestPeer_silent (others frame inside)
    refine ⟨same, ?_, fun verack => absurd verack isVerack, fun _ => silent⟩
    rw [same]
    exact following.grow following.synced (Nat.le_refl _) fun other inside =>
      .inl (silent other inside)

/-- Every run follows the peer. -/
theorem Exchange.following (reads : LocatorsRead env)
    (oneChain : OneChain chainEnv genesis.hash headers) (enough : headers.length + 1 < fuel)
    {spv : SpvNodeContext (chainNode fuel chainEnv env)} {answers veracks : Nat}
    {reached : PeerLink (chainNode fuel chainEnv env)}
    (synced : ChainSynced chainEnv genesis headers arrived spv.chain.val)
    (run : Exchange (honestPeer env chainEnv genesis.hash headers) ⟨spv, []⟩ answers veracks
      reached) :
    ∃ later, arrived ⊆ later ∧
      Following env chainEnv genesis headers later reached.spv.chain.val reached.unread ∧
      spv.chain.val.height ≤ reached.spv.chain.val.height := by
  induction run with
  | start =>
      exact ⟨arrived, fun _ => id, ⟨synced, fun frame inside => absurd inside List.not_mem_nil⟩,
        Nat.le_refl _⟩
  | answered earlier answer whole returns inductionHypothesis =>
      obtain ⟨later, keeps, following, notLower⟩ := inductionHypothesis
      obtain ⟨next, last, again, nextFollowing, keepsLater, nextNotLower, -⟩ :=
        following.answered reads oneChain enough answer whole
      rw [returns] at again
      cases again
      exact ⟨last, fun _ inside => keepsLater (keeps inside), nextFollowing,
        Nat.le_trans notLower nextNotLower⟩
  | dropped earlier silent inductionHypothesis =>
      obtain ⟨later, keeps, following, notLower⟩ := inductionHypothesis
      exact ⟨later, keeps, ⟨following.synced, fun other inside =>
        following.asked other (List.mem_cons_of_mem _ inside)⟩, notLower⟩
  | received earlier whole notHeaders returns inductionHypothesis =>
      obtain ⟨later, keeps, following, notLower⟩ := inductionHypothesis
      obtain ⟨same, nextFollowing, -, -⟩ :=
        following.received reads oneChain whole notHeaders returns
      refine ⟨later, keeps, nextFollowing, ?_⟩
      dsimp only
      rw [same]
      exact notLower

/-! ## Progress -/

section Counts

variable {peer : Bytes → Option (List (SatoshiBlockHeader Uint256))}
  {hdrs : List (SatoshiBlockHeader Uint256)} {frame : Bytes} {unread sent : List Bytes}

/-- The messages that the peer answers. -/
def requests (peer : Bytes → Option (List (SatoshiBlockHeader Uint256))) (unread : List Bytes) :
    Nat :=
  unread.countP fun frame => (peer frame).isSome

end Counts

end Download

/-! ## A peer with one header -/

theorem length_le_flatMap (hashes : List Uint256) :
    hashes.length ≤ (hashes.flatMap fun hash => hash.val).length := by
  induction hashes with
  | nil => exact Nat.le_refl 0
  | cons hash rest inductionHypothesis =>
      rw [List.flatMap_cons, List.length_append, hash.property, List.length_cons]
      omega

end BitcoinClib.Net
