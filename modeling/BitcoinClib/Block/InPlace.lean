import BitcoinClib.Block.Memory

/-!
Contract: what `satoshi_block_parse` leaves in the caller's object.

Owns:
- the blocks of the heap a block object owns, and its cleanup;
- the fields that a rejected payload leaves in a zeroed object (`blockLeftover`), and when the
  merkle tree is lost (`losesTree`);
- that a run does what the parser over values does.

Does not own: objects that are parsed into again.
-/

namespace BitcoinClib.Block.Memory

open BitcoinClib.Lib
open BitcoinClib.Lib.Ledger
open BitcoinClib.Lib.Attempt
open BitcoinClib.Types
open BitcoinClib.Crypto
open BitcoinClib.Tx.Memory

/-! ## Transactions in a block -/

/-- The object after a rejected transaction owns nothing. -/
theorem Emptied.holds {payload : Bytes} {live : Multiset Nat} {after : Workspace TxRecord}
    (emptied : Emptied payload live after) : Holds txBlocks TxProper live after := by
  obtain ⟨cbWitnesses, object, -⟩ := emptied.object
  constructor
  · rw [emptied.live, object]
    exact (zero_add _).symm
  · rw [object]
    exact ⟨noSlots, noSlots, noSlots⟩

theorem txZero_proper : TxProper txZero := ⟨noSlots, noSlots, noSlots⟩

theorem parseTx_builds (crypto : CryptoBackend) :
    Builds (parseTx crypto) (satoshiTxReader crypto) txZero txBlocks TxProper TxRecord.view := by
  intro ledger p
  unfold Tracks parseTx satoshiTxReader Tx.Memory.satoshiTxParse Tx.satoshiTxParse
  by_cases bounded : 0 < p.length ∧ p.length ≤ Tx.maxBlockSerializedSize
  · have tracks := satoshiTxParse_tracks crypto ledger p
    unfold Tracks at tracks
    rw [Exec.assert_of bounded, Exec.ok_bind, Exec.ok_bind]
    cases value : Tx.txParser crypto p with
    | ok expected =>
        rw [value] at tracks
        cases expected with
        | none =>
            obtain ⟨after, runs, emptied⟩ := tracks
            rw [runs]
            exact ⟨after, rfl, Emptied.holds emptied⟩
        | some pair =>
            obtain ⟨after, size, runs, holds, shows, rfl⟩ := tracks
            rw [runs]
            simp only [Exec.ok_bind, Option.map_some]
            by_cases some : 0 < p.length - pair.2.length
            · rw [if_pos some, if_pos some]
              exact ⟨after, (), rfl, holds, shows⟩
            · rw [if_neg some, if_neg some]
              exact ⟨after, rfl, holds⟩
    | fault cause =>
        rw [value] at tracks
        rw [tracks]
        rfl
    | timeout =>
        rw [value] at tracks
        rw [tracks]
        rfl
  · rw [Exec.assert_of_not bounded]
    rfl

/-! ## Blocks -/

def blockBlocks (block : BlockRecord) : Multiset Nat := arrayBlocks txBlocks block.txns

/-- The array of transactions is as long as its count announces. -/
def BlockProper (block : BlockRecord) : Prop :=
  ∀ owned, block.txns = some owned → ProperSlots TxProper block.txnCount.toNat owned.content

def BlockRecord.view (block : BlockRecord) : BlockObject where
  hdr := block.hdr
  txns := (block.txns.map fun txns => txns.content.map TxRecord.view).getD []
  hash := block.hash

/-- The object after `satoshi_block_cleanup`. -/
def BlockRecord.cleaned (block : BlockRecord) : BlockRecord :=
  { block with
    txnCount := if block.txns.isSome then 0 else block.txnCount
    txns := none }

theorem satoshiBlockCleanup_releases {block : BlockRecord} (proper : BlockProper block) :
    Releases satoshiBlockCleanup block block.cleaned (blockBlocks block) := by
  intro others next
  have txns := freeArray_releases (fun owned stored => (proper owned stored).length)
    (fun owned stored slot inside => satoshiTxCleanup_releases
      ((proper owned stored).proper slot inside)) others next
  rw [satoshiBlockCleanup, blockBlocks, txns]
  rfl

/-- The object and the heap while the transactions are parsed; `lost` are the blocks of the
merkle tree. -/
structure TxnsArray (block : BlockRecord) (others : Multiset Nat) (after : Workspace BlockRecord)
    (txnCount : Int) (txns : Option (Owned (List TxRecord))) (lost : Multiset Nat) : Prop where
  object : after.object = { block with txnCount, txns }
  live : after.ledger.live = arrayBlocks txBlocks txns + (lost + others)
  slots : ∀ owned, txns = some owned → ProperSlots TxProper txnCount.toNat owned.content

theorem TxnsArray.holds {block : BlockRecord} {others : Multiset Nat}
    {after : Workspace BlockRecord} {txnCount : Int} {txns : Option (Owned (List TxRecord))}
    {lost : Multiset Nat} (array : TxnsArray block others after txnCount txns lost) :
    Holds blockBlocks BlockProper (lost + others) after := by
  constructor
  · rw [array.live, array.object]
    rfl
  · rw [array.object]
    exact array.slots

theorem merkleTreeNew_tracks {T α β : Type} {space : Workspace T} {p : Bytes}
    {next : List (Option (Owned Unit)) → Attempt (Workspace T) UInt8 α} {reader : Parser UInt8 β}
    {Done : Workspace T → α → β → Bytes → Prop} {Rejected : Workspace T → Prop}
    (second : Tracks (next (space.ledger.mallocs 3).1) reader
      ⟨space.object, (space.ledger.mallocs 3).2⟩ p Done Rejected) :
    Tracks (merkleTreeNew >>= next) reader space p Done Rejected := second

theorem parseTxns_tracks (crypto : CryptoBackend) {block : BlockRecord}
    (noTxns : block.txns = none) (noCount : block.txnCount = 0) (ledger : Ledger) (p : Bytes) :
    Tracks (Memory.parseTxns crypto) (Block.parseTxns crypto) ⟨block, ledger⟩ p
      (fun after mtree values _ => ∃ owned,
        TxnsArray block ledger.live after (Parser.valueOr Tx.parseVarint 0 p) (some owned)
            (slotBlocks pointed mtree) ∧
          owned.content.map TxRecord.view = values ∧ 0 < Parser.valueOr Tx.parseVarint 0 p)
      (fun after => ∃ txns lost,
        TxnsArray block ledger.live after (Parser.valueOr Tx.parseVarint 0 p) txns lost ∧
          txns.isSome = decide (0 < Parser.valueOr Tx.parseVarint 0 p) ∧
          lost.card = if 0 < Parser.valueOr Tx.parseVarint 0 p then 3 else 0) := by
  refine Tracks.read_bind (fun rejects => ?_) fun count middle counted => ?_
  · rw [Parser.valueOr_rejects rejects]
    refine ⟨none, 0, ⟨?_, ?_, noSlots⟩, rfl, rfl⟩
    · rw [← noTxns, ← noCount]
    · rw [zero_add]
      exact (zero_add _).symm
  rw [counted.valueOr]
  apply Tracks.write_bind
  refine Tracks.read_bind (fun rejects => ?_) fun _ here requires => ?_
  · have negative := Parser.not_of_require_rejects rejects
    refine ⟨none, 0, ⟨?_, ?_, noSlots⟩, ?_, ?_⟩
    · rw [← noTxns]
    · rw [zero_add]
      exact (zero_add _).symm
    · rw [decide_eq_false negative]
      rfl
    · rw [if_neg negative]
      rfl
  obtain ⟨positive, rfl⟩ := Parser.parses_require.1 requires
  apply Tracks.calloc_bind
  apply merkleTreeNew_tracks
  have filled := (element_builds (parseTx_builds crypto) rfl txZero_proper).fill rfl txZero_proper
    count.toNat ledger.next BlockRecord.setTxns
    ⟨BlockRecord.setTxns ⟨ledger.next, List.replicate count.toNat txZero⟩
        { block with txnCount := count },
      ((ledger.malloc (List.replicate count.toNat txZero)).2.mallocs 3).2⟩ here
  have stored : ∀ after slots, Filled txBlocks TxProper
      ⟨ledger.next, List.replicate count.toNat txZero⟩ BlockRecord.setTxns
      ⟨BlockRecord.setTxns ⟨ledger.next, List.replicate count.toNat txZero⟩
          { block with txnCount := count },
        ((ledger.malloc (List.replicate count.toNat txZero)).2.mallocs 3).2⟩ after slots →
      TxnsArray block ledger.live after count (some ⟨ledger.next, slots⟩)
        (slotBlocks pointed
          ((ledger.malloc (List.replicate count.toNat txZero)).2.mallocs 3).1) := by
    intro after slots filled
    refine ⟨?_, ?_, ?_⟩
    · rw [filled.object]
      rfl
    · rw [filled.live, mallocs_live, malloc, arrayBlocks, ← Multiset.singleton_add]
      dsimp only
      abel
    · intro owned same
      cases same
      have proper := filled.proper
      rw [List.length_replicate] at proper
      exact proper
  refine Tracks.attempt_bind (filled.mono (fun _ _ _ _ _ done => done) ?_) ?_
  · rintro _ after ⟨slots, filled⟩
    refine ⟨_, _, stored after slots filled, ?_, ?_⟩
    · rw [decide_eq_true positive]
      rfl
    · rw [if_pos positive]
      rfl
  · rintro after _ values rest _ ⟨slots, filled, shows⟩
    exact tracks_pure ⟨_, stored after slots filled, shows, positive⟩

/-- The merkle tree is released before its root is compared. -/
theorem verifyMerkleRoot_runs (crypto : CryptoBackend) {space : Workspace BlockRecord}
    {mtree : List (Option (Owned Unit))} {others : Multiset Nat}
    (live : space.ledger.live = slotBlocks pointed mtree + others) :
    ∃ ledger : Ledger, ledger.live = others ∧ ∀ p, verifyMerkleRoot crypto mtree space p =
      read (Parser.require (space.object.hdr.merkleRoot = merkleTreeRecalc crypto
        (((space.object.txns.map Owned.content).getD []).map TxRecord.txid)))
        ⟨space.object, ledger⟩ p := by
  let txids := ((space.object.txns.map Owned.content).getD []).map TxRecord.txid
  let count := if txids.length ≤ 1 then 0 else merkleLayersCount merkleTreeMaxLayers txids.length
  let layers := (space.ledger.mallocs count).1
  have allocated : (space.ledger.mallocs count).2 =
      ⟨slotBlocks pointed (layers ++ mtree) + others, (space.ledger.mallocs count).2.next⟩ := by
    have lives := mallocs_live space.ledger count
    rw [live, ← add_assoc, ← slotBlocks_append] at lives
    rw [← lives]
  have freed : (space.ledger.mallocs count).2.frees (layers ++ mtree) =
      .ok ⟨others, (space.ledger.mallocs count).2.next⟩ := by
    rw [allocated]
    exact frees_pointed _ _ _
  refine ⟨⟨others, (space.ledger.mallocs count).2.next⟩, rfl, fun p => ?_⟩
  show Attempt.bind (merkleTreeFree (layers ++ mtree))
    (fun _ => read (Parser.require (space.object.hdr.merkleRoot = merkleTreeRecalc crypto txids)))
    ⟨space.object, (space.ledger.mallocs count).2⟩ p = _
  rw [Attempt.bind, merkleTreeFree, freed]
  rfl

/-! ## Announced fields -/

def hdrOf (payload : Bytes) : BlockHeader :=
  Parser.valueOr (do
    let hdr ← Parser.take 80
    pure (headerOfBytes hdr)) hdrZero payload

/-- The hash of the header, zero if it is cut off. -/
def hashOf (crypto : CryptoBackend) (payload : Bytes) : Uint256 :=
  Parser.valueOr (do
    let hdr ← Parser.take 80
    pure (hash256 crypto (headerBytes (headerOfBytes hdr)))) uint256Zero payload

/-- A header that is followed by transactions. -/
def blockHeader (crypto : CryptoBackend) (stale : Uint256) : Parser UInt8 Unit := do
  let payload ← Parser.remaining
  let hdr ← Parser.take 80
  Parser.require ((satoshiBlockHeaderVerify crypto stale (headerOfBytes hdr)).1 = 0)
  Parser.require (payload.length ≠ 80)

/-- The count of transactions, `0` if it is not read. -/
def txnCountOf (crypto : CryptoBackend) (stale : Uint256) (payload : Bytes) : Int :=
  Parser.valueOr (do
    blockHeader crypto stale
    Tx.parseVarint) 0 payload

/-- The loop over the transactions ends at one that is cut off or rejected. -/
def LosesTree (crypto : CryptoBackend) (stale : Uint256) (payload : Bytes) : Prop :=
  0 < txnCountOf crypto stale payload ∧
    (do
      blockHeader crypto stale
      Block.parseTxns crypto : Parser UInt8 (List Tx.TxObject)) payload = .ok none

instance (crypto : CryptoBackend) (stale : Uint256) (payload : Bytes) :
    Decidable (LosesTree crypto stale payload) := inferInstanceAs (Decidable (_ ∧ _))

/-- The object after a run that rejects: the header, its hash and a count below zero stay. -/
def blockLeftover (crypto : CryptoBackend) (stale : Uint256) (payload : Bytes) : BlockRecord where
  hdr := hdrOf payload
  txnCount := min (txnCountOf crypto stale payload) 0
  txns := none
  hash := hashOf crypto payload

/-- A rejected object before its cleanup; `lost` are the blocks of the merkle tree. -/
structure BlockRejected (crypto : CryptoBackend) (stale : Uint256) (payload : Bytes)
    (others : Multiset Nat) (after : Workspace BlockRecord) : Prop where
  holds : ∃ lost, Holds blockBlocks BlockProper (lost + others) after ∧
    lost.card = if LosesTree crypto stale payload then 3 else 0
  left : after.object.cleaned = blockLeftover crypto stale payload

section Fields

variable {crypto : CryptoBackend} {stale : Uint256} {payload p hdr : Bytes}

/-- No field is read. -/
theorem blockFields_none
    (rejects : (Parser.take 80 : Parser UInt8 Bytes) payload = .ok none) :
    blockLeftover crypto stale payload = blockZero ∧ ¬ LosesTree crypto stale payload := by
  have header : blockHeader crypto stale payload = .ok none := by
    rw [blockHeader, Parser.remaining_bind_eq]
    exact Parser.bind_rejects_first rejects
  have count : txnCountOf crypto stale payload = 0 := Parser.valueOr_bind_rejects _ header _
  refine ⟨?_, fun loses => ?_⟩
  · rw [blockLeftover, count, hdrOf, hashOf, Parser.valueOr_bind_rejects _ rejects,
      Parser.valueOr_bind_rejects _ rejects]
    rfl
  · rw [LosesTree, count] at loses
    exact absurd loses.1 (lt_irrefl _)

theorem hdrOf_eq (reads : Parser.Parses (Parser.take 80) payload hdr p) :
    hdrOf payload = headerOfBytes hdr := by
  rw [hdrOf, Parser.valueOr_bind reads]
  rfl

theorem hashOf_eq (reads : Parser.Parses (Parser.take 80) payload hdr p) :
    hashOf crypto payload = hash256 crypto (headerBytes (headerOfBytes hdr)) := by
  rw [hashOf, Parser.valueOr_bind reads]
  rfl

/-- The header is refused, or nothing follows it. -/
theorem txnCountOf_none (rejects : blockHeader crypto stale payload = .ok none) :
    txnCountOf crypto stale payload = 0 ∧ ¬ LosesTree crypto stale payload := by
  have count : txnCountOf crypto stale payload = 0 := Parser.valueOr_bind_rejects _ rejects _
  refine ⟨count, fun loses => ?_⟩
  rw [LosesTree, count] at loses
  exact absurd loses.1 (lt_irrefl _)

theorem txnCountOf_eq (header : Parser.Parses (blockHeader crypto stale) payload () p) :
    txnCountOf crypto stale payload = Parser.valueOr Tx.parseVarint 0 p :=
  Parser.valueOr_bind header _

theorem losesTree_iff (header : Parser.Parses (blockHeader crypto stale) payload () p) :
    LosesTree crypto stale payload ↔
      0 < Parser.valueOr Tx.parseVarint 0 p ∧ Block.parseTxns crypto p = .ok none := by
  rw [LosesTree, txnCountOf_eq header, Parser.bind_parses_eq header]

end Fields

/-! ## Runs -/

theorem blockAttempt_tracks (crypto : CryptoBackend) (stale : Uint256) (ledger : Ledger)
    (payload : Bytes) :
    Tracks (blockAttempt crypto stale) (blockParser crypto stale) ⟨blockZero, ledger⟩ payload
      (fun after _ block _ => Holds blockBlocks BlockProper ledger.live after ∧
        after.object.view = block)
      (BlockRejected crypto stale payload ledger.live) := by
  have alone : ∀ (hdr : BlockHeader) (hash : Uint256), Holds blockBlocks BlockProper
      (0 + ledger.live) ⟨⟨hdr, 0, none, hash⟩, ledger⟩ := by
    intro hdr hash
    refine ⟨?_, noSlots⟩
    rw [zero_add]
    exact (zero_add _).symm
  apply Tracks.position_bind
  apply Tracks.remaining_bind
  refine Tracks.read_bind (fun rejects => ?_) fun hdr p reads => ?_
  · obtain ⟨zero, keeps⟩ := blockFields_none rejects
    exact ⟨⟨0, alone _ _, (if_neg keeps).symm⟩, zero.symm⟩
  have isHdr := hdrOf_eq reads
  have isHash : hashOf crypto payload = _ := hashOf_eq reads
  apply Tracks.write_bind
  apply Tracks.current_bind
  apply Tracks.write_bind
  refine Tracks.read_bind (fun rejects => ?_) fun _ q verifies => ?_
  · have refused : blockHeader crypto stale payload = .ok none := by
      rw [blockHeader, Parser.remaining_bind_eq, Parser.bind_parses_eq reads]
      exact Parser.bind_rejects_first rejects
    obtain ⟨count, keeps⟩ := txnCountOf_none refused
    refine ⟨⟨0, alone _ _, (if_neg keeps).symm⟩, ?_⟩
    rw [blockLeftover, isHdr, isHash, count]
    rfl
  obtain ⟨verified, rfl⟩ := Parser.parses_require.1 verifies
  by_cases short : payload.length = 80
  · rw [if_pos short, if_pos short]
    exact tracks_pure ⟨⟨(zero_add _).symm, noSlots⟩, rfl⟩
  rw [if_neg short, if_neg short]
  have header : Parser.Parses (blockHeader crypto stale) payload () q := by
    unfold Parser.Parses
    rw [blockHeader, Parser.remaining_bind_eq, Parser.bind_parses_eq reads,
      Parser.bind_parses_eq verifies]
    exact Parser.parses_require.2 ⟨short, rfl⟩
  apply Tracks.bind (parseTxns_tracks crypto rfl rfl ledger q)
  · rintro rejects after ⟨txns, lost, array, stored, card⟩
    have loses := (losesTree_iff header).trans (and_iff_left rejects)
    have left : (if txns.isSome then 0 else Parser.valueOr Tx.parseVarint 0 q) =
        min (Parser.valueOr Tx.parseVarint 0 q) 0 := by
      rw [stored]
      by_cases positive : 0 < Parser.valueOr Tx.parseVarint 0 q
      · rw [decide_eq_true positive, if_pos rfl, min_eq_right positive.le]
      · rw [decide_eq_false positive, if_neg Bool.false_ne_true, min_eq_left (not_lt.1 positive)]
    refine ⟨⟨lost, array.holds, ?_⟩, ?_⟩
    · simp only [card, loses]
    · rw [array.object, blockLeftover, isHdr, isHash, txnCountOf_eq header, ← left]
      rfl
  · rintro after mtree txns rest accepts ⟨owned, array, shows, positive⟩
    have keeps : ¬ LosesTree crypto stale payload := by
      rw [losesTree_iff header]
      rintro ⟨-, rejects⟩
      rw [accepts] at rejects
      cases rejects
    have live : after.ledger.live =
        slotBlocks pointed mtree + (arrayBlocks txBlocks (some owned) + ledger.live) := by
      rw [array.live]
      abel
    obtain ⟨last, lastLive, runs⟩ := verifyMerkleRoot_runs crypto live
    have holds : Holds blockBlocks BlockProper ledger.live ⟨after.object, last⟩ := by
      refine ⟨?_, array.holds.proper⟩
      rw [lastLive, array.object]
      rfl
    have txids : ((after.object.txns.map Owned.content).getD []).map TxRecord.txid =
        txns.map Tx.TxObject.txid := by
      rw [array.object, ← shows, List.map_map]
      rfl
    apply Tracks.of_run (runs rest)
    rw [txids, array.object]
    refine Tracks.read_done (fun _ => ⟨⟨0, ?_, (if_neg keeps).symm⟩, ?_⟩) fun _ last _ => ?_
    · rw [zero_add, ← array.object]
      exact holds
    · rw [blockLeftover, isHdr, isHash, txnCountOf_eq header, min_eq_right positive.le]
      rfl
    · refine tracks_pure ⟨?_, ?_⟩
      · rw [← array.object]
        exact holds
      · rw [← shows]
        rfl

theorem satoshiBlockParse_tracks (crypto : CryptoBackend) (stale : Uint256) (ledger : Ledger)
    (payload : Bytes) :
    Tracks (cleaning (Workspace.clean satoshiBlockCleanup) (blockAttempt crypto stale))
      (blockParser crypto stale) ⟨blockZero, ledger⟩ payload
      (fun after _ block _ => Holds blockBlocks BlockProper ledger.live after ∧
        after.object.view = block)
      (fun after => after.object = blockLeftover crypto stale payload ∧
        ∃ lost, after.ledger.live = lost + ledger.live ∧
          lost.card = if LosesTree crypto stale payload then 3 else 0) := by
  apply (blockAttempt_tracks crypto stale ledger payload).cleaning
  intro _ after rejected
  obtain ⟨lost, holds, card⟩ := rejected.holds
  exact ⟨_, holds.clean (satoshiBlockCleanup_releases holds.proper), rejected.left, lost, rfl,
    card⟩

/-- A call that rejects a payload leaves the fields of `blockLeftover`, and loses the merkle
tree exactly when a transaction of the loop was rejected. -/
theorem satoshiBlockParse_rejects {crypto : CryptoBackend} {stale : Uint256} {ledger : Ledger}
    {payload : Bytes} {after : Workspace BlockRecord}
    (returns : satoshiBlockParse crypto stale ⟨blockZero, ledger⟩ payload = .ok (after, none)) :
    after.object = blockLeftover crypto stale payload ∧
      ∃ lost, after.ledger.live = lost + ledger.live ∧
        lost.card = if LosesTree crypto stale payload then 3 else 0 := by
  rw [satoshiBlockParse, Exec.bind_eq_ok] at returns
  obtain ⟨_, -, returns⟩ := returns
  rw [Exec.bind_eq_ok] at returns
  obtain ⟨start, cleans, returns⟩ := returns
  cases cleans
  rw [Exec.bind_eq_ok] at returns
  obtain ⟨⟨space, outcome⟩, runs, returns⟩ := returns
  change cleaning (Workspace.clean satoshiBlockCleanup) (blockAttempt crypto stale)
    ⟨blockZero, ledger⟩ payload = _ at runs
  have tracks := satoshiBlockParse_tracks crypto stale ledger payload
  unfold Tracks at tracks
  cases value : blockParser crypto stale payload with
  | ok expected =>
      rw [value] at tracks
      cases expected with
      | none =>
          obtain ⟨last, same, rejected⟩ := tracks
          rw [runs] at same
          cases same
          cases returns
          exact rejected
      | some pair =>
          obtain ⟨last, result, same, -⟩ := tracks
          rw [runs] at same
          cases same
          dsimp only at returns
          rw [Exec.bind_eq_ok] at returns
          obtain ⟨_, -, returns⟩ := returns
          cases returns
  | fault cause =>
      rw [value, runs] at tracks
      cases tracks
  | timeout =>
      rw [value, runs] at tracks
      cases tracks

end BitcoinClib.Block.Memory
