import BitcoinClib.Tx.InPlace

/-!
Contract: whole runs of `satoshi_tx_parse` into a zeroed object.

Owns:
- the fields that a rejected payload leaves in the object (`leftover`);
- that a run accepts what the parser over values accepts, with an object that shows its value
  and owns what was allocated;
- that a run that rejects releases everything it allocated.

Does not own: what the bytes mean.
-/

namespace BitcoinClib.Tx.Memory

open BitcoinClib.Lib
open BitcoinClib.Lib.Ledger
open BitcoinClib.Lib.Attempt
open BitcoinClib.Types
open BitcoinClib.Crypto

/-! ## Announced fields -/

/-- The version, `0` if the payload is too short. -/
def versionOf (payload : Bytes) : Int32 :=
  Parser.valueOr (do
    let version ← Parser.take 4
    pure (uint32OfBytes version).toInt32) 0 payload

/-- Whether the witness marker is read. -/
def flaggedOf (payload : Bytes) : Bool :=
  Parser.valueOr (do
    let _ ← Parser.take 4
    parseMarker) false payload

/-- The count of inputs, `0` if it is not read. -/
def txinCountOf (payload : Bytes) : Int :=
  Parser.valueOr (do
    let _ ← Parser.take 4
    let _ ← parseMarker
    parseVarint) 0 payload

/-- The count of outputs, `0` if it is not read. -/
def txoutCountOf (payload : Bytes) : Int :=
  Parser.valueOr (do
    let _ ← Parser.take 4
    let _ ← parseMarker
    let _ ← Tx.parseTxins
    parseVarint) 0 payload

/-- The object after a run that rejects: the version, the flag, and counts below zero stay. -/
def leftover (payload : Bytes) (cbWitnesses : Int) : TxRecord :=
  { txZero with
    version := versionOf payload
    hasFlag := flaggedOf payload
    flag := if flaggedOf payload then (0, 1) else (0, 0)
    txinCount := min (txinCountOf payload) 0
    txoutCount := min (txoutCountOf payload) 0
    cbWitnesses }

/-- A rejected object before its cleanup. -/
structure Rejected (payload : Bytes) (others : Multiset Nat) (after : Workspace TxRecord) :
    Prop where
  holds : Holds txBlocks TxProper others after
  left : ∃ cbWitnesses, after.object.cleaned = leftover payload cbWitnesses ∧
    (flaggedOf payload = false → cbWitnesses = 0)

/-- The object during a run, with the arrays as far as they are allocated. -/
def TxRecord.during (version : Int32) (hasFlag : Bool) (txinCount : Int)
    (txins : Option (Owned (List TxinRecord))) (txoutCount : Int)
    (txouts : Option (Owned (List TxoutRecord))) (cbWitnesses : Int)
    (witnesses : Option (Owned (List WitnessRecord))) : TxRecord :=
  { txZero with
    version
    hasFlag
    flag := if hasFlag then (0, 1) else (0, 0)
    txinCount
    txins
    txoutCount
    txouts
    cbWitnesses
    witnesses }

section Rejections

variable {payload p q r : Bytes} {version : Bytes} {hasFlag : Bool} {others : Multiset Nat}

/-- No field is read. -/
theorem fields_none (rejects : (Parser.take 4 : Parser UInt8 Bytes) payload = .ok none) :
    versionOf payload = 0 ∧ flaggedOf payload = false ∧ txinCountOf payload = 0 ∧
      txoutCountOf payload = 0 :=
  ⟨Parser.valueOr_bind_rejects _ rejects _, Parser.valueOr_bind_rejects _ rejects _,
    Parser.valueOr_bind_rejects _ rejects _, Parser.valueOr_bind_rejects _ rejects _⟩

theorem versionOf_eq (reads : Parser.Parses (Parser.take 4) payload version p) :
    versionOf payload = (uint32OfBytes version).toInt32 := by
  rw [versionOf, Parser.valueOr_bind reads]
  rfl

/-- The marker is not read. -/
theorem fields_unmarked (reads : Parser.Parses (Parser.take 4) payload version p)
    (rejects : parseMarker p = .ok none) :
    flaggedOf payload = false ∧ txinCountOf payload = 0 ∧ txoutCountOf payload = 0 := by
  refine ⟨?_, ?_, ?_⟩
  · rw [flaggedOf, Parser.valueOr_bind reads, Parser.valueOr_rejects rejects]
  · rw [txinCountOf, Parser.valueOr_bind reads, Parser.valueOr_bind_rejects _ rejects]
  · rw [txoutCountOf, Parser.valueOr_bind reads, Parser.valueOr_bind_rejects _ rejects]

theorem flaggedOf_eq (reads : Parser.Parses (Parser.take 4) payload version p)
    (marks : Parser.Parses parseMarker p hasFlag q) : flaggedOf payload = hasFlag := by
  rw [flaggedOf, Parser.valueOr_bind reads, marks.valueOr]

theorem txinCountOf_eq (reads : Parser.Parses (Parser.take 4) payload version p)
    (marks : Parser.Parses parseMarker p hasFlag q) :
    txinCountOf payload = Parser.valueOr parseVarint 0 q := by
  rw [txinCountOf, Parser.valueOr_bind reads, Parser.valueOr_bind marks]

/-- The inputs are not read. -/
theorem txoutCountOf_none (reads : Parser.Parses (Parser.take 4) payload version p)
    (marks : Parser.Parses parseMarker p hasFlag q) (rejects : Tx.parseTxins q = .ok none) :
    txoutCountOf payload = 0 := by
  rw [txoutCountOf, Parser.valueOr_bind reads, Parser.valueOr_bind marks,
    Parser.valueOr_bind_rejects _ rejects]

theorem txoutCountOf_eq {txins : List TxinObject}
    (reads : Parser.Parses (Parser.take 4) payload version p)
    (marks : Parser.Parses parseMarker p hasFlag q)
    (inputs : Parser.Parses Tx.parseTxins q txins r) :
    txoutCountOf payload = Parser.valueOr parseVarint 0 r := by
  rw [txoutCountOf, Parser.valueOr_bind reads, Parser.valueOr_bind marks,
    Parser.valueOr_bind inputs]

/-- The object owns the arrays that are allocated. -/
theorem holds_during {after : Workspace TxRecord} {version : Int32} {txinCount txoutCount : Int}
    {txins : Option (Owned (List TxinRecord))} {txouts : Option (Owned (List TxoutRecord))}
    {cbWitnesses : Int} {witnesses : Option (Owned (List WitnessRecord))}
    (object : after.object = TxRecord.during version hasFlag txinCount txins txoutCount txouts
      cbWitnesses witnesses)
    (live : after.ledger.live = arrayBlocks witnessBlocks witnesses +
      (arrayBlocks txinBlocks txins + arrayBlocks txoutBlocks txouts) + others)
    (txinSlots : ∀ owned, txins = some owned →
      ProperSlots TxinProper txinCount.toNat owned.content)
    (txoutSlots : ∀ owned, txouts = some owned →
      ProperSlots TxoutProper txoutCount.toNat owned.content)
    (witnessSlots : ∀ owned, witnesses = some owned →
      hasFlag = true ∧ ProperSlots WitnessProper txinCount.toNat owned.content) :
    Holds txBlocks TxProper others after := by
  constructor
  · rw [live, object]
    rfl
  · rw [object]
    exact ⟨txinSlots, txoutSlots, witnessSlots⟩

/-- What is left of the object depends on the fields that were read. -/
theorem rejected_during {after : Workspace TxRecord} {version : Int32} {txinCount txoutCount : Int}
    {txins : Option (Owned (List TxinRecord))} {txouts : Option (Owned (List TxoutRecord))}
    {cbWitnesses : Int} {witnesses : Option (Owned (List WitnessRecord))}
    (holds : Holds txBlocks TxProper others after)
    (object : after.object = TxRecord.during version hasFlag txinCount txins txoutCount txouts
      cbWitnesses witnesses)
    (isVersion : versionOf payload = version) (isFlag : flaggedOf payload = hasFlag)
    (txinsLeft : (if txins.isSome then 0 else txinCount) = min (txinCountOf payload) 0)
    (txoutsLeft : (if txouts.isSome then 0 else txoutCount) = min (txoutCountOf payload) 0)
    (unflagged : hasFlag = false → cbWitnesses = 0) : Rejected payload others after := by
  refine ⟨holds, cbWitnesses, ?_, fun none => unflagged (isFlag ▸ none)⟩
  have proper := holds.proper
  rw [object] at proper ⊢
  rw [leftover, isVersion, isFlag, ← txinsLeft, ← txoutsLeft]
  cases hasFlag with
  | true => rfl
  | false =>
      cases witnesses with
      | none => rfl
      | some owned => cases (proper.witnesses owned rfl).1

end Rejections

theorem mark_during (version : Int32) (marked : Bool) :
    TxRecord.mark marked (TxRecord.during version false 0 none 0 none 0 none) =
      TxRecord.during version marked 0 none 0 none 0 none := by
  cases marked with
  | false => rfl
  | true => rfl

theorem noSlots {T : Type} {Stored : Owned T → Prop} :
    ∀ owned, (none : Option (Owned T)) = some owned → Stored owned := by
  intro owned stored
  cases stored

theorem txAttempt_tracks (crypto : CryptoBackend) (ledger : Ledger) (payload : Bytes) :
    Tracks (txAttempt crypto) (txParser crypto) ⟨txZero, ledger⟩ payload
      (fun after size tx rest => Holds txBlocks TxProper ledger.live after ∧
        after.object.view = tx ∧ size = payload.length - rest.length)
      (Rejected payload ledger.live) := by
  have nothing (version : Int32) (hasFlag : Bool) : Holds txBlocks TxProper ledger.live
      ⟨TxRecord.during version hasFlag 0 none 0 none 0 none, ledger⟩ :=
    holds_during rfl (zero_add _).symm noSlots noSlots noSlots
  apply Tracks.position_bind
  apply Tracks.remaining_bind
  refine Tracks.read_bind (fun rejects => ?_) fun version p reads => ?_
  · obtain ⟨isVersion, isFlag, noTxins, noTxouts⟩ := fields_none rejects
    exact rejected_during (nothing 0 false) rfl isVersion isFlag (by rw [noTxins]; rfl)
      (by rw [noTxouts]; rfl) (fun _ => rfl)
  have isVersion := versionOf_eq reads
  apply Tracks.write_bind
  apply Tracks.current_bind
  refine Tracks.read_bind (fun rejects => ?_) fun hasFlag q marks => ?_
  · obtain ⟨isFlag, noTxins, noTxouts⟩ := fields_unmarked reads rejects
    exact rejected_during (nothing _ false) rfl isVersion isFlag (by rw [noTxins]; rfl)
      (by rw [noTxouts]; rfl) (fun _ => rfl)
  have isFlag := flaggedOf_eq reads marks
  have isCount := txinCountOf_eq reads marks
  apply Tracks.write_bind
  apply Tracks.remaining_bind
  show Tracks _ _
    (Workspace.mk (TxRecord.mark hasFlag (TxRecord.during _ false 0 none 0 none 0 none)) ledger)
    q _ _
  rw [mark_during]
  refine Tracks.bind (parseTxins_tracks (TxRecord.during _ hasFlag 0 none 0 none 0 none) ledger q)
    ?_ ?_
  · rintro rejects after ⟨count, txins, counted⟩
    have noTxouts := txoutCountOf_none reads marks rejects
    have live : after.ledger.live =
        0 + (arrayBlocks txinBlocks txins + 0) + ledger.live := by
      rw [counted.live]
      abel
    have holds : Holds txBlocks TxProper ledger.live after :=
      holds_during counted.object live counted.slots noSlots noSlots
    exact rejected_during holds counted.object isVersion isFlag (isCount ▸ counted.left)
      (by rw [noTxouts]; rfl) (fun _ => rfl)
  rintro ⟨object, live⟩ data txins r inputs ⟨count, owned, counted, shows, rfl, positive⟩
  obtain rfl := counted.object
  have isTxoutCount := txoutCountOf_eq reads marks inputs
  apply Tracks.remaining_bind
  refine Tracks.bind (parseTxouts_tracks
    (TxRecord.during _ hasFlag count (some owned) 0 none 0 none) live r) ?_ ?_
  · rintro rejects after ⟨txoutCount, txouts, outputs⟩
    have live : after.ledger.live =
        0 + (arrayBlocks txinBlocks (some owned) + arrayBlocks txoutBlocks txouts) +
          ledger.live := by
      rw [outputs.live, counted.live]
      abel
    have holds : Holds txBlocks TxProper ledger.live after :=
      holds_during outputs.object live counted.slots outputs.slots noSlots
    exact rejected_during holds outputs.object isVersion isFlag (isCount ▸ counted.left)
      (isTxoutCount ▸ outputs.left) (fun _ => rfl)
  rintro ⟨object, between⟩ data txouts s outs ⟨txoutCount, txoutsOwned, outputs, showsTxouts, rfl, -⟩
  obtain rfl := outputs.object
  apply Tracks.remaining_bind
  have size : txins.length = count.toNat := by
    rw [← shows, List.length_map, (counted.slots owned rfl).length]
  rw [size]
  have stored : ∀ after cbWitnesses witnesses, WitnessArray
      (TxRecord.during (uint32OfBytes version).toInt32 hasFlag count (some owned) txoutCount
        (some txoutsOwned) 0 none) between.live after cbWitnesses witnesses →
      Holds txBlocks TxProper ledger.live after := by
    intro after cbWitnesses witnesses section5
    have live : after.ledger.live = arrayBlocks witnessBlocks witnesses +
        (arrayBlocks txinBlocks (some owned) + arrayBlocks txoutBlocks (some txoutsOwned)) +
          ledger.live := by
      rw [section5.live, outputs.live, counted.live]
      abel
    exact holds_during section5.object live counted.slots outputs.slots section5.slots
  refine Tracks.bind (parseWitnesses_tracks (TxRecord.during _ hasFlag count (some owned)
    txoutCount (some txoutsOwned) 0 none) rfl positive between s) ?_ ?_
  · rintro _ after ⟨witnesses, array⟩
    exact rejected_during (stored after 0 witnesses array) array.object isVersion isFlag
      (isCount ▸ counted.left) (isTxoutCount ▸ outputs.left) (fun _ => rfl)
  rintro ⟨object, last⟩ _ witnesses t entries ⟨witnessesOwned, array, showsWitnesses⟩
  have holds := stored _ _ _ array
  obtain rfl := array.object
  apply Tracks.remaining_bind
  refine Tracks.read_bind (fun _ => ?_) fun lockTime rest locks => ?_
  · refine rejected_during holds rfl isVersion isFlag (isCount ▸ counted.left)
      (isTxoutCount ▸ outputs.left) fun unflagged => ?_
    rw [array.unflagged unflagged]
    rfl
  apply Tracks.write_bind
  apply Tracks.current_bind
  apply Tracks.write_bind
  apply Tracks.write_bind
  apply Tracks.position_bind
  apply Tracks.remaining_bind
  apply Tracks.write_bind
  refine tracks_pure ⟨?_, ?_, rfl⟩
  · exact ⟨holds.live, holds.proper.txins, holds.proper.txouts, holds.proper.witnesses⟩
  · have versionBytes := leBytes_version (Parser.parses_take.1 reads).1
    have lockTimeBytes := leBytes_uint32OfBytes (Parser.parses_take.1 locks).1
    have sha : hash256 crypto (leBytes 4 (uint32OfBytes version).toInt32.toUInt32.toNat ++
        consumed q r ++ consumed r s ++ leBytes 4 (uint32OfBytes lockTime).toNat) =
        hash256 crypto (version ++ consumed q r ++ consumed r s ++ lockTime) := by
      rw [versionBytes, lockTimeBytes]
    rw [← shows, ← showsTxouts, ← showsWitnesses, ← sha]
    rfl

/-! ## Calls -/

/-- What `label_error` leaves: nothing that was allocated, and the fields of `leftover`. -/
structure Emptied (payload : Bytes) (live : Multiset Nat) (after : Workspace TxRecord) : Prop where
  live : after.ledger.live = live
  object : ∃ cbWitnesses, after.object = leftover payload cbWitnesses ∧
    (flaggedOf payload = false → cbWitnesses = 0)

/-- A call for a zeroed object does what the parser over values does. -/
theorem satoshiTxParse_tracks (crypto : CryptoBackend) (ledger : Ledger) (payload : Bytes) :
    Tracks (cleaning (Workspace.clean satoshiTxCleanup) (txAttempt crypto)) (txParser crypto)
      ⟨txZero, ledger⟩ payload
      (fun after size tx rest => Holds txBlocks TxProper ledger.live after ∧
        after.object.view = tx ∧ size = payload.length - rest.length)
      (Emptied payload ledger.live) := by
  apply (txAttempt_tracks crypto ledger payload).cleaning
  intro _ after rejected
  exact ⟨_, rejected.holds.clean (satoshiTxCleanup_releases rejected.holds.proper), rfl,
    rejected.left⟩

/-- A call that returns either accepts, and the object shows the value and owns what was
allocated, or rejects, and everything was released. -/
theorem satoshiTxParse_inversion {crypto : CryptoBackend} {ledger : Ledger} {payload : Bytes}
    {after : Workspace TxRecord} {outcome : Option Nat}
    (returns : satoshiTxParse crypto ⟨txZero, ledger⟩ payload = .ok (after, outcome)) :
    (∃ size, outcome = some size ∧
      Tx.satoshiTxParse crypto payload = .ok (some (after.object.view, size)) ∧
      Holds txBlocks TxProper ledger.live after) ∨
    (outcome = none ∧ Tx.satoshiTxParse crypto payload = .ok none ∧
      Emptied payload ledger.live after) := by
  rw [satoshiTxParse, Exec.bind_eq_ok] at returns
  obtain ⟨_, bounded, returns⟩ := returns
  rw [Exec.bind_eq_ok] at returns
  obtain ⟨⟨space, parsed⟩, runs, returns⟩ := returns
  cases returns
  have tracks := satoshiTxParse_tracks crypto ledger payload
  unfold Tracks at tracks
  rw [Tx.satoshiTxParse, bounded, Exec.ok_bind]
  cases value : txParser crypto payload with
  | ok expected =>
      rw [value] at tracks
      cases expected with
      | none =>
          obtain ⟨last, same, emptied⟩ := tracks
          rw [runs] at same
          cases same
          exact .inr ⟨rfl, rfl, emptied⟩
      | some pair =>
          obtain ⟨last, size, same, holds, shows, rfl⟩ := tracks
          rw [runs] at same
          cases same
          refine .inl ⟨_, rfl, ?_, holds⟩
          rw [shows]
          rfl
  | fault cause =>
      rw [value, runs] at tracks
      cases tracks
  | timeout =>
      rw [value, runs] at tracks
      cases tracks

end BitcoinClib.Tx.Memory
