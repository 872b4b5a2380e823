import BitcoinClib.Block.InPlace
import BitcoinClib.Tx.Txid

/-!
Contract: objects after a failed parse, and a second parse into them.

Owns:
- `TxLeavesNothing` and `BlockLeavesNothing`: the object is empty, everything that was allocated
  is released, and the next parse runs as into a zeroed object;
- the payloads whose rejection leaves nothing (`parse_leavesNothing_iff`);
- what does not matter for a second payload that is long enough.

Does not own: payloads that are accepted.
-/

namespace BitcoinClib.Block.Memory

open BitcoinClib.Lib
open BitcoinClib.Lib.Attempt
open BitcoinClib.Types
open BitcoinClib.Crypto
open BitcoinClib.Tx.Memory

/-! ## Transactions -/

/-- A transaction object from which nothing of a failed parse can be seen. -/
structure TxLeavesNothing (crypto : CryptoBackend) (before : Ledger)
    (after : Workspace TxRecord) : Prop where
  txins : after.object.txins = none
  txouts : after.object.txouts = none
  witnesses : after.object.witnesses = none
  txinCount : after.object.txinCount = 0
  txoutCount : after.object.txoutCount = 0
  hasFlag : after.object.hasFlag = false
  released : after.ledger.live = before.live
  reusable : ∀ ledger second, satoshiTxParse crypto ⟨after.object, ledger⟩ second =
    satoshiTxParse crypto ⟨txZero, ledger⟩ second

/-- No marker was read, and no count from `2^63` on. -/
structure TxEnds (payload : Bytes) : Prop where
  unflagged : flaggedOf payload = false
  txinCount : 0 ≤ txinCountOf payload
  txoutCount : 0 ≤ txoutCountOf payload

theorem TxEnds.leftover {payload : Bytes} (ends : TxEnds payload) :
    leftover payload 0 = { txZero with version := versionOf payload } := by
  rw [Tx.Memory.leftover, ends.unflagged, min_eq_right ends.txinCount,
    min_eq_right ends.txoutCount]
  rfl

/-- The version that is left is overwritten by a second payload of at least four bytes. -/
theorem satoshiTxParse_reused (crypto : CryptoBackend) (version : Int32) (ledger : Ledger)
    {second : Bytes} (long : 4 ≤ second.length) :
    satoshiTxParse crypto ⟨{ txZero with version }, ledger⟩ second =
      satoshiTxParse crypto ⟨txZero, ledger⟩ second := by
  have reads : Parser.Parses (Parser.take 4) second (second.take 4) (second.drop 4) := by
    refine Parser.parses_take.2 ⟨?_, (List.take_append_drop 4 second).symm⟩
    rw [List.length_take]
    omega
  have runs : txAttempt crypto ⟨{ txZero with version }, ledger⟩ second =
      txAttempt crypto ⟨txZero, ledger⟩ second := by
    show (read (Parser.take 4) >>= _) _ second = (read (Parser.take 4) >>= _) _ second
    rw [read_bind_eq reads, read_bind_eq reads]
    rfl
  rw [satoshiTxParse, satoshiTxParse, cleaning_congr runs]

theorem satoshiTxParse_leavesNothing_iff {crypto : CryptoBackend} {ledger : Ledger}
    {payload : Bytes} {after : Workspace TxRecord}
    (rejects : satoshiTxParse crypto ⟨txZero, ledger⟩ payload = .ok (after, none)) :
    (TxLeavesNothing crypto ledger after ↔ TxEnds payload ∧ versionOf payload = 0) ∧
      (TxEnds payload → ∃ version, after = ⟨{ txZero with version }, after.ledger⟩ ∧
        after.ledger.live = ledger.live ∧ ∀ ledger second, 4 ≤ second.length →
          satoshiTxParse crypto ⟨after.object, ledger⟩ second =
            satoshiTxParse crypto ⟨txZero, ledger⟩ second) := by
  rcases satoshiTxParse_inversion rejects with ⟨size, same, -⟩ | ⟨-, -, emptied⟩
  · cases same
  obtain ⟨cbWitnesses, object, unmarked⟩ := emptied.object
  have leaves (ends : TxEnds payload) :
      after.object = { txZero with version := versionOf payload } := by
    rw [object, unmarked ends.unflagged]
    exact ends.leftover
  refine ⟨⟨fun nothing => ?_, fun ends => ?_⟩, fun ends => ?_⟩
  · have ends : TxEnds payload := by
      have hasFlag := nothing.hasFlag
      have txinCount := nothing.txinCount
      have txoutCount := nothing.txoutCount
      rw [object] at hasFlag txinCount txoutCount
      exact ⟨hasFlag, min_eq_right_iff.1 txinCount, min_eq_right_iff.1 txoutCount⟩
    refine ⟨ends, ?_⟩
    -- a second payload that is too short for a version
    have second := nothing.reusable ledger [0]
    rw [leaves ends] at second
    have both : (⟨{ txZero with version := versionOf payload }, ledger⟩ : Workspace TxRecord) =
        ⟨txZero, ledger⟩ := (Prod.mk.inj (Exec.ok.inj second)).1
    exact congrArg (fun space => space.object.version) both
  · obtain ⟨ends, zero⟩ := ends
    have fresh : after.object = txZero := by
      rw [leaves ends, zero]
      rfl
    refine ⟨?_, ?_, ?_, ?_, ?_, ?_, emptied.live, ?_⟩
    all_goals rw [fresh]
    all_goals first | rfl | exact fun _ _ => rfl
  · refine ⟨versionOf payload, ?_, emptied.live, fun ledger second long => ?_⟩
    · rw [← leaves ends]
    · rw [leaves ends]
      exact satoshiTxParse_reused crypto _ ledger long

/-! ## Blocks -/

/-- A block object from which nothing of a failed parse can be seen. -/
structure BlockLeavesNothing (crypto : CryptoBackend) (before : Ledger)
    (after : Workspace BlockRecord) : Prop where
  txns : after.object.txns = none
  txnCount : after.object.txnCount = 0
  released : after.ledger.live = before.live
  reusable : ∀ stale ledger second,
    satoshiBlockParse crypto stale ⟨after.object, ledger⟩ second =
      satoshiBlockParse crypto stale ⟨blockZero, ledger⟩ second

/-- No count from `2^63` on, and no transaction was rejected. -/
structure BlockEnds (crypto : CryptoBackend) (stale : Uint256) (payload : Bytes) : Prop where
  txnCount : 0 ≤ txnCountOf crypto stale payload
  txns : ¬ LosesTree crypto stale payload

theorem BlockEnds.leftover {crypto : CryptoBackend} {stale : Uint256} {payload : Bytes}
    (ends : BlockEnds crypto stale payload) :
    blockLeftover crypto stale payload =
      { blockZero with hdr := hdrOf payload, hash := hashOf crypto payload } := by
  rw [blockLeftover, min_eq_right ends.txnCount]
  rfl

/-- The header that is left is overwritten by a second payload of at least 80 bytes. -/
theorem satoshiBlockParse_reused (crypto : CryptoBackend) (stale : Uint256) (hdr : BlockHeader)
    (hash : Uint256) (ledger : Ledger) {second : Bytes} (long : 80 ≤ second.length) :
    satoshiBlockParse crypto stale ⟨{ blockZero with hdr, hash }, ledger⟩ second =
      satoshiBlockParse crypto stale ⟨blockZero, ledger⟩ second := by
  have reads : Parser.Parses (Parser.take 80) second (second.take 80) (second.drop 80) := by
    refine Parser.parses_take.2 ⟨?_, (List.take_append_drop 80 second).symm⟩
    rw [List.length_take]
    omega
  have runs : blockAttempt crypto stale ⟨{ blockZero with hdr, hash }, ledger⟩ second =
      blockAttempt crypto stale ⟨blockZero, ledger⟩ second := by
    show (read (Parser.take 80) >>= _) _ second = (read (Parser.take 80) >>= _) _ second
    rw [read_bind_eq reads, read_bind_eq reads]
    rfl
  have cleans (block : BlockRecord) (none : block.txns = none) :
      Workspace.clean satoshiBlockCleanup ⟨block, ledger⟩ = .ok ⟨block, ledger⟩ := by
    cases block
    cases none
    rfl
  rw [satoshiBlockParse, satoshiBlockParse, cleans _ rfl, cleans _ rfl]
  simp only [Exec.ok_bind, cleaning_congr runs]

theorem satoshiBlockParse_leavesNothing_iff {crypto : CryptoBackend} {stale : Uint256}
    {ledger : Ledger} {payload : Bytes} {after : Workspace BlockRecord}
    (rejects : satoshiBlockParse crypto stale ⟨blockZero, ledger⟩ payload = .ok (after, none)) :
    (BlockLeavesNothing crypto ledger after ↔ BlockEnds crypto stale payload ∧
      hdrOf payload = hdrZero ∧ hashOf crypto payload = uint256Zero) ∧
      (BlockEnds crypto stale payload → ∃ hdr hash,
        after = ⟨{ blockZero with hdr, hash }, after.ledger⟩ ∧
        after.ledger.live = ledger.live ∧ ∀ stale ledger second, 80 ≤ second.length →
          satoshiBlockParse crypto stale ⟨after.object, ledger⟩ second =
            satoshiBlockParse crypto stale ⟨blockZero, ledger⟩ second) := by
  obtain ⟨object, lost, live, card⟩ := satoshiBlockParse_rejects rejects
  have leaves (ends : BlockEnds crypto stale payload) : after.object =
      { blockZero with hdr := hdrOf payload, hash := hashOf crypto payload } := by
    rw [object]
    exact ends.leftover
  have released (ends : BlockEnds crypto stale payload) : after.ledger.live = ledger.live := by
    rw [if_neg ends.txns] at card
    rw [live, Multiset.card_eq_zero.1 card, zero_add]
  refine ⟨⟨fun nothing => ?_, fun ends => ?_⟩, fun ends => ?_⟩
  · have ends : BlockEnds crypto stale payload := by
      refine ⟨?_, fun loses => ?_⟩
      · have txnCount := nothing.txnCount
        rw [object] at txnCount
        exact min_eq_right_iff.1 txnCount
      · rw [if_pos loses] at card
        have same := nothing.released
        rw [live] at same
        have none : lost = 0 := by
          have cards := congrArg Multiset.card same
          rw [Multiset.card_add] at cards
          exact Multiset.card_eq_zero.1 (by omega)
        rw [none] at card
        cases card
    refine ⟨ends, ?_⟩
    -- a second payload that is too short for a header
    have second := nothing.reusable stale ledger [0]
    rw [leaves ends] at second
    have both : (⟨{ blockZero with hdr := hdrOf payload, hash := hashOf crypto payload },
        ledger⟩ : Workspace BlockRecord) = ⟨blockZero, ledger⟩ :=
      (Prod.mk.inj (Exec.ok.inj second)).1
    exact ⟨congrArg (fun space => space.object.hdr) both,
      congrArg (fun space => space.object.hash) both⟩
  · obtain ⟨ends, noHdr, noHash⟩ := ends
    have fresh : after.object = blockZero := by
      rw [leaves ends, noHdr, noHash]
      rfl
    refine ⟨?_, ?_, released ends, ?_⟩
    all_goals rw [fresh]
    · rfl
    · rfl
    · exact fun _ _ _ => rfl
  · refine ⟨hdrOf payload, hashOf crypto payload, ?_, released ends,
      fun stale ledger second long => ?_⟩
    · rw [← leaves ends]
    · rw [leaves ends]
      exact satoshiBlockParse_reused crypto stale _ _ ledger long

/-- What a failed parse leaves. Nothing can be seen of it exactly when no marker and no count
from `2^63` on was read, no transaction of a block was rejected, and the version or the header
is that of a zeroed object. Where only the last part fails, a second payload that is long enough
to hold a version or a header is parsed as into a zeroed object. -/
theorem parse_leavesNothing_iff (crypto : CryptoBackend) :
    (∀ ledger payload after,
      satoshiTxParse crypto ⟨txZero, ledger⟩ payload = .ok (after, none) →
      (TxLeavesNothing crypto ledger after ↔ TxEnds payload ∧ versionOf payload = 0) ∧
      (TxEnds payload → ∃ version, after = ⟨{ txZero with version }, after.ledger⟩ ∧
        after.ledger.live = ledger.live ∧ ∀ ledger second, 4 ≤ second.length →
          satoshiTxParse crypto ⟨after.object, ledger⟩ second =
            satoshiTxParse crypto ⟨txZero, ledger⟩ second)) ∧
    ∀ stale ledger payload after,
      satoshiBlockParse crypto stale ⟨blockZero, ledger⟩ payload = .ok (after, none) →
      (BlockLeavesNothing crypto ledger after ↔ BlockEnds crypto stale payload ∧
        hdrOf payload = hdrZero ∧ hashOf crypto payload = uint256Zero) ∧
      (BlockEnds crypto stale payload → ∃ hdr hash,
        after = ⟨{ blockZero with hdr, hash }, after.ledger⟩ ∧
        after.ledger.live = ledger.live ∧ ∀ stale ledger second, 80 ≤ second.length →
          satoshiBlockParse crypto stale ⟨after.object, ledger⟩ second =
            satoshiBlockParse crypto stale ⟨blockZero, ledger⟩ second) :=
  ⟨fun _ _ _ rejects => satoshiTxParse_leavesNothing_iff rejects,
    fun _ _ _ _ rejects => satoshiBlockParse_leavesNothing_iff rejects⟩

/-- Nothing is left of a transaction with version zero whose first input is cut off. -/
theorem parse_leavesNothing_iff_cut : ∃ after,
    satoshiTxParse sampleCrypto ⟨txZero, ⟨0, 0⟩⟩ [0, 0, 0, 0, 1, 7] = .ok (after, none) ∧
      TxLeavesNothing sampleCrypto ⟨0, 0⟩ after := by
  have runs : (satoshiTxParse sampleCrypto ⟨txZero, ⟨0, 0⟩⟩ [0, 0, 0, 0, 1, 7] >>= fun pair =>
      .ok pair.2) = (.ok none : Exec (Option Nat)) := by decide +kernel
  obtain ⟨⟨after, outcome⟩, rejects, same⟩ := Exec.bind_eq_ok.1 runs
  cases same
  have ends : TxEnds [0, 0, 0, 0, 1, 7] :=
    ⟨by decide +kernel, by decide +kernel, by decide +kernel⟩
  have zero : versionOf [0, 0, 0, 0, 1, 7] = 0 := by decide +kernel
  exact ⟨after, rejects, (((parse_leavesNothing_iff sampleCrypto).1 _ _ _ rejects).1).2
    ⟨ends, zero⟩⟩

/-- After a transaction that is cut off behind its marker the flag stays, and a transaction
without the marker is parsed into an object with the flag; after a block whose first transaction
is cut off the three blocks of the merkle tree stay allocated. -/
theorem parse_leavesFlag :
    (∃ after, satoshiTxParse sampleCrypto ⟨txZero, ⟨0, 0⟩⟩ [0, 0, 0, 0, 0, 1] =
        .ok (after, none) ∧ after.object.hasFlag = true ∧
      satoshiTxParse sampleCrypto ⟨after.object, ⟨0, 0⟩⟩ (sampleParts false []).bytes ≠
        satoshiTxParse sampleCrypto ⟨txZero, ⟨0, 0⟩⟩ (sampleParts false []).bytes) ∧
    (∃ after, satoshiBlockParse sampleCrypto uint256Zero ⟨blockZero, ⟨0, 0⟩⟩
        (List.replicate 80 0 ++ [1]) = .ok (after, none) ∧ after.ledger.live.card = 3) ∧
    ¬ ((∀ (crypto : CryptoBackend) ledger payload after,
        satoshiTxParse crypto ⟨txZero, ledger⟩ payload = .ok (after, none) →
        TxLeavesNothing crypto ledger after) ∧
      ∀ (crypto : CryptoBackend) stale ledger payload after,
        satoshiBlockParse crypto stale ⟨blockZero, ledger⟩ payload = .ok (after, none) →
        BlockLeavesNothing crypto ledger after) := by
  have runs : (do
      let first ← satoshiTxParse sampleCrypto ⟨txZero, ⟨0, 0⟩⟩ [0, 0, 0, 0, 0, 1]
      let stale ← satoshiTxParse sampleCrypto ⟨first.1.object, ⟨0, 0⟩⟩ (sampleParts false []).bytes
      let fresh ← satoshiTxParse sampleCrypto ⟨txZero, ⟨0, 0⟩⟩ (sampleParts false []).bytes
      .ok (first.2, first.1.object.hasFlag, stale.1.object.hasFlag, fresh.1.object.hasFlag)) =
        (.ok (none, true, true, false) : Exec (Option Nat × Bool × Bool × Bool)) := by
    decide +kernel
  have block : (do
      let parsed ← satoshiBlockParse sampleCrypto uint256Zero ⟨blockZero, ⟨0, 0⟩⟩
        (List.replicate 80 0 ++ [1])
      .ok (parsed.2, parsed.1.ledger.live.card)) = (.ok (none, 3) : Exec (Option Nat × Nat)) := by
    decide +kernel
  simp only [Exec.bind_eq_ok] at runs block
  obtain ⟨⟨after, outcome⟩, rejects, ⟨stale, _⟩, again, ⟨fresh, _⟩, first, flags⟩ := runs
  obtain ⟨⟨afterBlock, outcomeBlock⟩, rejectsBlock, card⟩ := block
  simp only [Exec.ok.injEq, Prod.mk.injEq] at flags card
  obtain ⟨rfl, flagged, staleFlag, freshFlag⟩ := flags
  obtain ⟨rfl, three⟩ := card
  refine ⟨⟨after, rejects, flagged, fun same => ?_⟩, ⟨afterBlock, rejectsBlock, three⟩,
    fun leaves => ?_⟩
  · rw [again, first] at same
    cases same
    rw [staleFlag] at freshFlag
    cases freshFlag
  · have unflagged := (leaves.1 _ _ _ _ rejects).hasFlag
    rw [flagged] at unflagged
    cases unflagged

end BitcoinClib.Block.Memory
