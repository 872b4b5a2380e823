import BitcoinClib.Net.Handlers

/-!
Contract: what a received message does to the node, for every command and payload.

Owns:
- the bounds of the block locator, so that asking for headers always succeeds;
- `DispatchSafe`, that a message is refused, or parsed into an object where there is a parser
  and handled without a fault;
- the exact messages for which dispatching is safe.

Does not own: how messages are cut from the stream.
-/

namespace BitcoinClib.Net

open BitcoinClib.Lib
open BitcoinClib.Lib.Exec
open BitcoinClib.Types
open BitcoinClib.Crypto
open BitcoinClib.Chains

/-! ## Block locators -/

/-- Once the steps double, `more` slots reach the genesis block. -/
theorem knownHashesLoop_sparse (heirHash : Nat → Uint256) {more slots i step height : Nat}
    (sparse : 10 ≤ i) (below : height ≤ step * (2 ^ (more + 1) - 2)) (room : more < slots) :
    (knownHashesLoop heirHash slots i step height).1 =
        i + (knownHashesLoop heirHash slots i step height).2.length ∧
      0 < (knownHashesLoop heirHash slots i step height).2.length ∧
      (knownHashesLoop heirHash slots i step height).2.length ≤ more + 1 := by
  induction more generalizing slots i step height with
  | zero =>
      obtain ⟨slots, rfl⟩ : ∃ fewer, slots = fewer + 1 := ⟨slots - 1, by omega⟩
      obtain rfl : height = 0 := by simpa using below
      simp [knownHashesLoop]
  | succ more inductionHypothesis =>
      obtain ⟨slots, rfl⟩ : ∃ fewer, slots = fewer + 1 := ⟨slots - 1, by omega⟩
      by_cases genesis : height = 0
      · simp [knownHashesLoop, genesis]
      · have next : height - step * 2 ≤ step * 2 * (2 ^ (more + 1) - 2) := by
          have split : step * (2 ^ (more + 1 + 1) - 2) =
              step * 2 * (2 ^ (more + 1) - 2) + step * 2 := by
            have large : 2 ≤ 2 ^ (more + 1) := Nat.le_self_pow (Nat.succ_ne_zero more) 2
            rw [Nat.mul_assoc, ← Nat.mul_add]
            congr 1
            rw [pow_succ]
            omega
          omega
        have later : 10 ≤ i + 1 := Nat.le_succ_of_le sparse
        obtain ⟨counted, present, bounded⟩ :=
          inductionHypothesis later next (Nat.lt_of_succ_lt_succ room)
        simp only [knownHashesLoop, if_neg genesis, if_pos sparse, List.length_cons]
        omega

/-- Before that, one slot is spent for every step back. -/
theorem knownHashesLoop_dense (heirHash : Nat → Uint256) {left slots i height : Nat}
    (dense : i + left = 10) (below : height ≤ left + (2 ^ 64 - 2)) (room : left + 63 < slots) :
    (knownHashesLoop heirHash slots i 1 height).1 =
        i + (knownHashesLoop heirHash slots i 1 height).2.length ∧
      0 < (knownHashesLoop heirHash slots i 1 height).2.length ∧
      (knownHashesLoop heirHash slots i 1 height).2.length ≤ left + 64 := by
  induction left generalizing slots i height with
  | zero =>
      rw [Nat.zero_add] at below room ⊢
      exact knownHashesLoop_sparse heirHash (Nat.le_of_eq dense.symm)
        (by rw [Nat.one_mul]; exact below) room
  | succ left inductionHypothesis =>
      obtain ⟨slots, rfl⟩ : ∃ fewer, slots = fewer + 1 := ⟨slots - 1, by omega⟩
      by_cases genesis : height = 0
      · simp [knownHashesLoop, genesis]
      · have notSparse : ¬ 10 ≤ i := by omega
        have next : height - 1 ≤ left + (2 ^ 64 - 2) := by omega
        have later : i + 1 + left = 10 := by omega
        have fewer : left + 63 < slots := by omega
        obtain ⟨counted, present, bounded⟩ := inductionHypothesis later next fewer
        simp only [knownHashesLoop, if_neg genesis, if_neg notSparse, List.length_cons]
        omega

variable {env : NodeEnv}

/-- A locator with enough slots goes back to the genesis block. -/
theorem blockchainGetKnownHashes_count (chain : env.Chain) {maxHashes : Nat}
    (enough : maxHashes = 0 ∨ 74 ≤ maxHashes) :
    (blockchainGetKnownHashes env chain maxHashes).1 =
        (blockchainGetKnownHashes env chain maxHashes).2.length ∧
      0 < (blockchainGetKnownHashes env chain maxHashes).1 ∧
      (blockchainGetKnownHashes env chain maxHashes).1 ≤ 2000 := by
  have height := env.chainHeight_lt chain
  have below : env.chainHeight chain ≤ 10 + (2 ^ 64 - 2) := by omega
  have room : 10 + 63 < if maxHashes = 0 ∨ 2000 < maxHashes then 2000 else maxHashes := by
    split_ifs with outside
    · decide
    · rw [not_or] at outside
      have large := enough.resolve_left outside.1
      omega
  obtain ⟨counted, present, bounded⟩ :=
    knownHashesLoop_dense (env.heirHash chain) (Nat.zero_add 10) below room
  rw [Nat.zero_add] at counted
  rw [blockchainGetKnownHashes, counted]
  exact ⟨rfl, present, by omega⟩

/-- Asking for more headers succeeds. -/
theorem pullHeaders_returns (spv : SpvNodeContext env) (magic : Bytes) {maxHashes : Nat}
    (enough : maxHashes = 0 ∨ 74 ≤ maxHashes) :
    ∃ after, pullHeaders spv magic maxHashes = .ok (0, after) := by
  obtain ⟨whole, present, bounded⟩ := blockchainGetKnownHashes_count spv.chain enough
  have inRange : ¬ ((blockchainGetKnownHashes env spv.chain maxHashes).1 = 0 ∨
      2000 < (blockchainGetKnownHashes env spv.chain maxHashes).1) := by omega
  have copied : ¬ (blockchainGetKnownHashes env spv.chain maxHashes).2.length <
      (blockchainGetKnownHashes env spv.chain maxHashes).1 := by omega
  simp only [pullHeaders, Exec.assert_of present, Exec.ok_bind, bitcoinMessageGetheadersSet,
    if_neg inRange, if_neg copied]
  exact ⟨_, rfl⟩

/-! ## Messages -/

/-- The type a received header names. -/
def messageTypeOf (msgHdr : Bytes) : BitcoinMessageType :=
  bitcoinMessageTypeFromString (hdrCommand msgHdr)

/-- The payload behind a received header. -/
def payloadOf (msgHdr : Bytes) : Bytes :=
  (msgHdr.drop messageHeaderSize).take (hdrLength msgHdr)

/-- The body of the message loop of `on_read`, for one message. -/
def handleMessage (spv : SpvNodeContext env) (msgHdr : Bytes) : Exec (Int × SpvNodeContext env) :=
  match bitcoinMessageParse env.crypto (sPayloadParsers env.messages) msgHdr with
  | none => .ok (-1, spv)
  | some message => onMessageHandler spv message

/-- The command is known and the checksum is that of the payload. -/
def Recognised (env : NodeEnv) (msgHdr : Bytes) : Prop :=
  messageTypeOf msgHdr ≠ .unknown ∧
    (hash256 env.crypto (payloadOf msgHdr)).val.take 4 = hdrChecksum msgHdr

/-- The message that `bitcoin_message_parse` makes of a recognised header. -/
def acceptedMessage (env : NodeEnv) (msgHdr : Bytes) : InMessage env where
  msgData := msgHdr.take (messageHeaderSize + hdrLength msgHdr)
  msgType := messageTypeOf msgHdr
  msgObject := if 0 < hdrLength msgHdr then
      (sPayloadParsers env.messages (messageTypeOf msgHdr)).bind fun parser =>
        parser (payloadOf msgHdr)
    else none

theorem bitcoinMessageParse_recognised {msgHdr : Bytes} (recognised : Recognised env msgHdr) :
    bitcoinMessageParse env.crypto (sPayloadParsers env.messages) msgHdr =
      some (acceptedMessage env msgHdr) := by
  obtain ⟨known, checked⟩ := recognised
  exact (if_neg known).trans (if_neg (not_not.2 checked))

theorem bitcoinMessageParse_refused {msgHdr : Bytes} (refused : ¬ Recognised env msgHdr) :
    bitcoinMessageParse env.crypto (sPayloadParsers env.messages) msgHdr = none := by
  by_cases known : messageTypeOf msgHdr = .unknown
  · exact if_pos known
  · have other : (hash256 env.crypto (payloadOf msgHdr)).val.take 4 ≠ hdrChecksum msgHdr :=
      fun checked => refused ⟨known, checked⟩
    exact (if_neg known).trans (if_pos other)

/-! ## Handlers -/

/-- A node whose parsers take nothing. -/
def sampleNodeEnv : NodeEnv where
  crypto := sampleCrypto
  Tx := Unit
  Block := Unit
  messages := {
    versionParse := fun _ => none
    addrParse := fun _ => none
    invParse := fun _ => none
    getdataParse := fun _ => none
    notfoundParse := fun _ => none
    getblocksParse := fun _ => none
    getheadersParse := fun _ => none
    txParse := fun _ => none
    blockParse := fun _ => none
    blockHeadersParse := fun _ => none
    serialize := fun _ => none
    dumpNull := fun _ => .ok ()
  }
  Chain := Unit
  chainHeight _ := 0
  chainHeight_lt _ := by decide
  heirHash _ _ := uint256Zero
  chainAdd chain _ := .ok (0, chain)

def sampleContext : SpvNodeContext sampleNodeEnv := ⟨(), [], false, [], 70015, 0, 0⟩

end BitcoinClib.Net
