import BitcoinClib.Tx.Memory
import BitcoinClib.Tx.Layout

/-!
Contract: what `satoshi_tx_parse` leaves in the caller's object.

Owns:
- the blocks an object owns, and when it is fit to be cleaned;
- that each cleanup releases exactly these blocks;
- that each parse fills its object with what the parser over values returns.

Does not own: what the two agree on.
-/

namespace BitcoinClib.Tx.Memory

open BitcoinClib.Lib
open BitcoinClib.Lib.Ledger
open BitcoinClib.Lib.Attempt
open BitcoinClib.Types
open BitcoinClib.Crypto

/-! ## Inputs and outputs -/

def txinBlocks (txin : TxinRecord) : Multiset Nat :=
  pointed txin.scripts + pointed txin.redeemScripts

/-- Signatures are stored by the script interpreter only. -/
def TxinProper (txin : TxinRecord) : Prop := txin.signatures = none

def TxinRecord.view (txin : TxinRecord) : TxinObject where
  outpoint := txin.outpoint
  isCoinbase := txin.isCoinbase
  scripts := (txin.scripts.map Owned.content).getD []
  cbScripts := txin.cbScripts
  sequence := txin.sequence

def TxinRecord.cleaned (txin : TxinRecord) : TxinRecord :=
  { txin with scripts := none, redeemScripts := none }

theorem satoshiTxinCleanup_releases {txin : TxinRecord} (proper : TxinProper txin) :
    Releases satoshiTxinCleanup txin txin.cleaned (txinBlocks txin) := by
  intro others next
  have noSignatures (ledger : Ledger) :
      ledger.freeArray varstrFree txin.numSignatures txin.signatures = .ok ledger := by
    rw [proper, freeArray]
  rw [satoshiTxinCleanup, txinBlocks, add_assoc, free_pointed, Exec.ok_bind, noSignatures,
    Exec.ok_bind, free_pointed]
  rfl

theorem satoshiTxinParse_builds :
    Builds satoshiTxinParse Tx.satoshiTxinParse txinZero txinBlocks TxinProper
      TxinRecord.view := by
  intro ledger p
  apply Tracks.cleaning
    (?parses : Tracks _ _ _ p _ (Holds txinBlocks TxinProper ledger.live))
  case parses =>
    refine Tracks.read_bind (fun _ => ⟨(zero_add _).symm, rfl⟩) fun outpoint rest _ => ?_
    apply Tracks.write_bind
    refine Tracks.read_bind (fun _ => ⟨(zero_add _).symm, rfl⟩) fun scripts rest _ => ?_
    apply Tracks.allocate_bind
    refine Tracks.read_bind (fun _ => ⟨rfl, rfl⟩) fun sequence rest _ => ?_
    exact tracks_write ⟨⟨rfl, rfl⟩, rfl⟩
  · intro _ after holds
    exact ⟨_, holds.clean (satoshiTxinCleanup_releases holds.proper), (zero_add _).symm,
      holds.proper⟩

def txoutBlocks (txout : TxoutRecord) : Multiset Nat := pointed txout.scripts

def TxoutProper (_ : TxoutRecord) : Prop := True

def TxoutRecord.view (txout : TxoutRecord) : TxoutObject where
  value := txout.value
  scripts := (txout.scripts.map Owned.content).getD []
  flags := txout.flags

theorem satoshiTxoutCleanup_releases (txout : TxoutRecord) :
    Releases satoshiTxoutCleanup txout { txout with scripts := none } (txoutBlocks txout) := by
  intro others next
  rw [satoshiTxoutCleanup, txoutBlocks, free_pointed]
  rfl

theorem satoshiTxoutParse_builds :
    Builds satoshiTxoutParse Tx.satoshiTxoutParse txoutZero txoutBlocks TxoutProper
      TxoutRecord.view := by
  intro ledger p
  apply Tracks.cleaning
    (?parses : Tracks _ _ _ p _ (Holds txoutBlocks TxoutProper ledger.live))
  case parses =>
    refine Tracks.read_bind (fun _ => ⟨(zero_add _).symm, trivial⟩) fun value rest _ => ?_
    apply Tracks.write_bind
    apply Tracks.position_bind
    apply Tracks.remaining_bind
    refine Tracks.read_bind (fun _ => ⟨(zero_add _).symm, trivial⟩) fun _ rest _ => ?_
    refine Tracks.read_bind (fun _ => ⟨(zero_add _).symm, trivial⟩) fun scripts rest _ => ?_
    apply Tracks.allocate_bind
    refine Tracks.read_bind (fun _ => ⟨rfl, trivial⟩) fun byte rest _ => ?_
    exact tracks_write ⟨⟨rfl, trivial⟩, rfl⟩
  · intro _ after holds
    exact ⟨_, holds.clean (satoshiTxoutCleanup_releases _), (zero_add _).symm, trivial⟩

/-- The check in front of an entry of an array. -/
theorem element_builds {T β : Type} {entry : Attempt (Workspace T) UInt8 Unit}
    {reader : Parser UInt8 β} {zero : T} {blocks : T → Multiset Nat} {Proper : T → Prop}
    {view : T → β} (builds : Builds entry reader zero blocks Proper view)
    (zeroBlocks : blocks zero = 0) (zeroProper : Proper zero) :
    Builds (element entry) (Tx.element reader) zero blocks Proper view := by
  intro ledger p
  apply Tracks.position_bind
  apply Tracks.remaining_bind
  refine Tracks.read_bind (fun _ => ⟨?_, zeroProper⟩) fun _ rest _ => builds ledger rest
  rw [zeroBlocks, zero_add]

/-! ## Witnesses -/

/-- The bytes of an item. -/
def itemView (item : VarstrPtr) : Bytes := (item.map Owned.content).getD []

theorem varstrFree_releases (item : VarstrPtr) : Releases varstrFree item item (pointed item) := by
  intro others next
  rw [varstrFree, free_pointed]
  rfl

theorem parseItem_builds :
    Builds parseItem parseVarstr none pointed (fun _ => True) itemView := by
  intro ledger p
  refine Tracks.read_last (fun _ => ⟨(zero_add _).symm, trivial⟩) fun vstr rest _ => ?_
  exact ⟨_, (), rfl, ⟨rfl, trivial⟩, rfl⟩

def witnessBlocks (witness : WitnessRecord) : Multiset Nat := arrayBlocks pointed witness.items

/-- The array has as many entries as `num_items` announces; without a positive count it is NULL. -/
structure WitnessProper (witness : WitnessRecord) : Prop where
  stored : 0 < witness.numItems → ∃ items, witness.items = some items ∧
    items.content.length = witness.numItems.toNat
  absent : witness.numItems ≤ 0 → witness.items = none

def WitnessRecord.view (witness : WitnessRecord) : WitnessObject where
  numItems := witness.numItems
  items := witness.items.map fun items => items.content.map itemView

theorem bitcoinTxWitnessCleanup_releases {witness : WitnessRecord}
    (proper : WitnessProper witness) :
    Releases bitcoinTxWitnessCleanup witness witnessZero (witnessBlocks witness) := by
  intro others next
  have followed : ¬ (0 < witness.numItems ∧ witness.items = none) := by
    intro both
    obtain ⟨items, stored, -⟩ := proper.stored both.1
    rw [both.2] at stored
    cases stored
  have length : ∀ items, witness.items = some items →
      items.content.length = witness.numItems.toNat := by
    intro items stored
    by_cases positive : 0 < witness.numItems
    · obtain ⟨array, same, size⟩ := proper.stored positive
      rw [same] at stored
      cases stored
      exact size
    · rw [proper.absent (not_lt.1 positive)] at stored
      cases stored
  rw [bitcoinTxWitnessCleanup, if_neg followed, witnessBlocks,
    freeArray_releases length fun _ _ item _ => varstrFree_releases item]
  rfl

theorem witnessZero_proper : WitnessProper witnessZero :=
  ⟨fun positive => absurd positive (lt_irrefl _), fun _ => rfl⟩

theorem parseWitness_builds :
    Builds parseWitness Tx.parseWitness witnessZero witnessBlocks WitnessProper
      WitnessRecord.view := by
  intro ledger p
  refine Tracks.read_bind (fun _ => ⟨(zero_add _).symm, witnessZero_proper⟩) fun numItems rest _ => ?_
  apply Tracks.write_bind
  by_cases positive : 0 < numItems
  · rw [if_pos positive, if_pos positive]
    apply Tracks.calloc_bind
    have filled := parseItem_builds.fill rfl trivial numItems.toNat ledger.next
      WitnessRecord.setItems
      ⟨⟨numItems, some ⟨ledger.next, List.replicate numItems.toNat none⟩⟩,
        (ledger.malloc (List.replicate numItems.toNat (none : VarstrPtr))).2⟩ rest
    have holds : ∀ after slots, Filled pointed (fun _ => True)
        ⟨ledger.next, List.replicate numItems.toNat none⟩ WitnessRecord.setItems
        ⟨⟨numItems, some ⟨ledger.next, List.replicate numItems.toNat none⟩⟩,
          (ledger.malloc (List.replicate numItems.toNat (none : VarstrPtr))).2⟩ after slots →
        Holds witnessBlocks WitnessProper ledger.live after := by
      intro after slots filled
      constructor
      · rw [filled.live, filled.object, witnessBlocks, WitnessRecord.setItems, arrayBlocks,
          add_assoc]
        rfl
      · rw [filled.object]
        refine ⟨fun _ => ⟨_, rfl, ?_⟩, fun negative => absurd positive (not_lt.2 negative)⟩
        show slots.length = numItems.toNat
        rw [filled.proper.length, List.length_replicate]
    refine Tracks.reader_bind (filled.mono (fun _ _ _ _ _ done => done) ?_) ?_
    · rintro _ after ⟨slots, filled⟩
      exact holds after slots filled
    · rintro after _ items rest _ ⟨slots, filled, shows⟩
      refine tracks_pure ⟨holds after slots filled, ?_⟩
      rw [filled.object, ← shows]
      rfl
  · rw [if_neg positive, if_neg positive]
    refine tracks_pure ⟨⟨(zero_add _).symm, ?_, ?_⟩, rfl⟩
    · intro announced
      exact absurd announced positive
    · intro _
      rfl

/-! ## Arrays with their counts -/

/-- The fields of an array and its count after `parseCounted`; `start` is the position before
the count. -/
structure CountedArray {T α : Type} (blocks : α → Multiset Nat) (Proper : α → Prop)
    (put : Int → Option (Owned (List α)) → T) (others : Multiset Nat) (start : Bytes)
    (after : Workspace T) (count : Int) (array : Option (Owned (List α))) : Prop where
  object : after.object = put count array
  live : after.ledger.live = arrayBlocks blocks array + others
  slots : ∀ owned, array = some owned → ProperSlots Proper count.toNat owned.content
  /-- only a count that is not positive is left without an array -/
  left : (if array.isSome then 0 else count) = min (Parser.valueOr parseVarint 0 start) 0

theorem parseCounted_tracks {T α β : Type} {zero : α} {setCount : Int → T → T}
    {setArray : Owned (List α) → T → T} {entry : Attempt (Workspace α) UInt8 Unit}
    {reader : Parser UInt8 β} {blocks : α → Multiset Nat} {Proper : α → Prop} {view : α → β}
    {encode : β → Bytes} {Valid : β → Prop} (put : Int → Option (Owned (List α)) → T)
    (builds : Builds entry reader zero blocks Proper view)
    (zeroBlocks : blocks zero = 0) (zeroProper : Proper zero)
    (codes : Parser.Codes (Tx.element reader) encode Valid)
    (putCount : ∀ count, setCount count (put 0 none) = put count none)
    (putArray : ∀ count array owned, setArray owned (put count array) = put count (some owned))
    (ledger : Ledger) (p : Bytes) :
    Tracks (parseCounted zero setCount setArray entry) (do
        let count ← parseVarint
        Parser.require (0 < count)
        Parser.many (Tx.element reader) count.toNat) ⟨put 0 none, ledger⟩ p
      (fun after data values rest => ∃ count owned,
        CountedArray blocks Proper put ledger.live p after count (some owned) ∧
          owned.content.map view = values ∧ data = consumed p rest ∧ 0 < count)
      (fun after => ∃ count array,
        CountedArray blocks Proper put ledger.live p after count array) := by
  apply Tracks.position_bind
  refine Tracks.read_bind (fun rejects => ⟨0, none, rfl, (zero_add _).symm, ?_, ?_⟩)
    fun count middle counted => ?_
  · intro owned stored
    cases stored
  · rw [Parser.valueOr_rejects rejects]
    rfl
  have announced := counted.valueOr 0
  apply Tracks.write_bind
  rw [putCount]
  refine Tracks.read_bind (fun rejects => ⟨count, none, rfl, (zero_add _).symm, ?_, ?_⟩)
    fun _ here requires => ?_
  · intro owned stored
    cases stored
  · rw [announced, min_eq_left (not_lt.1 (Parser.not_of_require_rejects rejects))]
    rfl
  · obtain ⟨positive, rfl⟩ := Parser.parses_require.1 requires
    apply Tracks.calloc_bind
    apply Tracks.position_bind
    rw [putArray]
    have filled := (element_builds builds zeroBlocks zeroProper).fill zeroBlocks zeroProper
      count.toNat ledger.next setArray
      ⟨put count (some ⟨ledger.next, List.replicate count.toNat zero⟩),
        (ledger.malloc (List.replicate count.toNat zero)).2⟩ here
    have stored : ∀ after slots, Filled blocks Proper
        ⟨ledger.next, List.replicate count.toNat zero⟩ setArray
        ⟨put count (some ⟨ledger.next, List.replicate count.toNat zero⟩),
          (ledger.malloc (List.replicate count.toNat zero)).2⟩ after slots →
        CountedArray blocks Proper put ledger.live p after count
          (some ⟨ledger.next, slots⟩) := by
      intro after slots filled
      refine ⟨?_, ?_, ?_, ?_⟩
      · rw [filled.object, putArray]
      · rw [filled.live, arrayBlocks, add_assoc]
        rfl
      · intro owned same
        cases same
        have proper := filled.proper
        rw [List.length_replicate] at proper
        exact proper
      · rw [announced, min_eq_right positive.le]
        rfl
    refine Tracks.attempt_bind (filled.mono (fun _ _ _ _ _ done => done) ?_) ?_
    · rintro _ after ⟨slots, filled⟩
      exact ⟨count, _, stored after slots filled⟩
    · rintro after _ values rest entries ⟨slots, filled, shows⟩
      apply Tracks.position_bind
      refine tracks_pure ⟨count, _, stored after slots filled, shows, ?_, positive⟩
      obtain ⟨vint, isVarint, rfl, -⟩ := parseVarint_iff.1 counted
      obtain ⟨raws, rfl, -⟩ := Parser.many_reads codes.reads entries
      rw [varintSize_append isVarint.1, isVarint.2, List.take_left, consumed_append,
        ← List.append_assoc, consumed_append]

def TxRecord.withTxins (tx : TxRecord) (txinCount : Int)
    (txins : Option (Owned (List TxinRecord))) : TxRecord :=
  { tx with txinCount, txins }

def TxRecord.withTxouts (tx : TxRecord) (txoutCount : Int)
    (txouts : Option (Owned (List TxoutRecord))) : TxRecord :=
  { tx with txoutCount, txouts }

theorem parseTxins_tracks (tx : TxRecord) (ledger : Ledger) (p : Bytes) :
    Tracks parseTxins Tx.parseTxins ⟨tx.withTxins 0 none, ledger⟩ p
      (fun after data values rest => ∃ count owned,
        CountedArray txinBlocks TxinProper tx.withTxins ledger.live p after count (some owned) ∧
          owned.content.map TxinRecord.view = values ∧ data = consumed p rest ∧ 0 < count)
      (fun after => ∃ count array,
        CountedArray txinBlocks TxinProper tx.withTxins ledger.live p after count array) := by
  apply Tracks.position_bind
  apply Tracks.remaining_bind
  refine Tracks.read_bind (fun rejects => ⟨0, none, rfl, (zero_add _).symm, ?_, ?_⟩)
    fun _ here requires => ?_
  · intro owned stored
    cases stored
  · rw [not_not.1 (Parser.not_of_require_rejects rejects)]
    rfl
  · obtain ⟨-, rfl⟩ := Parser.parses_require.1 requires
    exact parseCounted_tracks tx.withTxins satoshiTxinParse_builds rfl rfl
      (codes_element satoshiTxinParse_codes fun txin _ => txin.bytes_ne_nil)
      (fun _ => rfl) (fun _ _ _ => rfl) ledger here

theorem parseTxouts_tracks (tx : TxRecord) (ledger : Ledger) (p : Bytes) :
    Tracks parseTxouts Tx.parseTxouts ⟨tx.withTxouts 0 none, ledger⟩ p
      (fun after data values rest => ∃ count owned,
        CountedArray txoutBlocks TxoutProper tx.withTxouts ledger.live p after count
            (some owned) ∧
          owned.content.map TxoutRecord.view = values ∧ data = consumed p rest ∧ 0 < count)
      (fun after => ∃ count array,
        CountedArray txoutBlocks TxoutProper tx.withTxouts ledger.live p after count array) :=
  parseCounted_tracks tx.withTxouts satoshiTxoutParse_builds rfl trivial
    (codes_element satoshiTxoutParse_codes fun txout _ => txout.bytes_ne_nil)
    (fun _ => rfl) (fun _ _ _ => rfl) ledger p

/-! ## Transactions -/

/-- The blocks of a transaction, in the order in which they are released. -/
def txBlocks (tx : TxRecord) : Multiset Nat :=
  arrayBlocks witnessBlocks tx.witnesses +
    (arrayBlocks txinBlocks tx.txins + arrayBlocks txoutBlocks tx.txouts)

/-- Arrays are as long as their counts announce; witnesses belong to flagged transactions. -/
structure TxProper (tx : TxRecord) : Prop where
  txins : ∀ owned, tx.txins = some owned →
    ProperSlots TxinProper tx.txinCount.toNat owned.content
  txouts : ∀ owned, tx.txouts = some owned →
    ProperSlots TxoutProper tx.txoutCount.toNat owned.content
  witnesses : ∀ owned, tx.witnesses = some owned →
    tx.hasFlag = true ∧ ProperSlots WitnessProper tx.txinCount.toNat owned.content

/-- The object after `satoshi_tx_cleanup`. -/
def TxRecord.cleaned (tx : TxRecord) : TxRecord :=
  { tx with
    witnesses := if tx.hasFlag then none else tx.witnesses
    txinCount := if tx.txins.isSome then 0 else tx.txinCount
    txins := none
    txoutCount := if tx.txouts.isSome then 0 else tx.txoutCount
    txouts := none }

def TxRecord.view (tx : TxRecord) : TxObject where
  version := tx.version
  hasFlag := tx.hasFlag
  flag := tx.flag
  txins := (tx.txins.map fun txins => txins.content.map TxinRecord.view).getD []
  txouts := (tx.txouts.map fun txouts => txouts.content.map TxoutRecord.view).getD []
  witnesses := tx.witnesses.map fun witnesses => witnesses.content.map WitnessRecord.view
  cbWitnesses := tx.cbWitnesses.toNat
  lockTime := tx.lockTime
  txid := tx.txid
  wtxid := tx.wtxid

/-- The cleanup releases what a proper object owns, each block once. -/
theorem satoshiTxCleanup_releases {tx : TxRecord} (proper : TxProper tx) :
    Releases satoshiTxCleanup tx tx.cleaned (txBlocks tx) := by
  intro others next
  have followed : (if tx.hasFlag then tx.witnesses else none) = tx.witnesses := by
    cases stored : tx.witnesses with
    | none => exact ite_self none
    | some owned => exact if_pos (proper.witnesses owned stored).1
  have witnesses := freeArray_releases (fun owned stored => (proper.witnesses owned stored).2.length)
    (fun owned stored slot inside => bitcoinTxWitnessCleanup_releases
      ((proper.witnesses owned stored).2.proper slot inside))
    (arrayBlocks txinBlocks tx.txins + arrayBlocks txoutBlocks tx.txouts + others) next
  have txins := freeArray_releases (fun owned stored => (proper.txins owned stored).length)
    (fun owned stored slot inside => satoshiTxinCleanup_releases
      ((proper.txins owned stored).proper slot inside))
    (arrayBlocks txoutBlocks tx.txouts + others) next
  have txouts := freeArray_releases (fun owned stored => (proper.txouts owned stored).length)
    (fun owned stored slot inside => satoshiTxoutCleanup_releases slot) others next
  rw [satoshiTxCleanup, followed, txBlocks, add_assoc, witnesses, Exec.ok_bind, add_assoc, txins,
    Exec.ok_bind, txouts]
  rfl

/-- The witness fields after `parseWitnesses`. -/
structure WitnessArray (tx : TxRecord) (others : Multiset Nat) (after : Workspace TxRecord)
    (cbWitnesses : Nat) (witnesses : Option (Owned (List WitnessRecord))) : Prop where
  object : after.object = { tx with cbWitnesses, witnesses }
  live : after.ledger.live = arrayBlocks witnessBlocks witnesses + others
  slots : ∀ owned, witnesses = some owned →
    tx.hasFlag = true ∧ ProperSlots WitnessProper tx.txinCount.toNat owned.content
  unflagged : tx.hasFlag = false → cbWitnesses = 0

theorem parseWitnesses_tracks (tx : TxRecord) (absent : tx.witnesses = none)
    (positive : 0 < tx.txinCount) (ledger : Ledger) (p : Bytes) :
    Tracks parseWitnesses (Tx.parseWitnesses tx.hasFlag tx.txinCount.toNat) ⟨tx, ledger⟩ p
      (fun after _ values rest => ∃ witnesses,
        WitnessArray tx ledger.live after (p.length - rest.length) witnesses ∧
          witnesses.map (fun owned => owned.content.map WitnessRecord.view) = values)
      (fun after => ∃ witnesses, WitnessArray tx ledger.live after 0 witnesses) := by
  have asBefore : WitnessArray tx ledger.live ⟨{ tx with cbWitnesses := 0 }, ledger⟩ 0 none := by
    refine ⟨?_, (zero_add _).symm, fun owned stored => ?_, fun _ => rfl⟩
    · rw [← absent]
      rfl
    · cases stored
  apply Tracks.write_bind
  apply Tracks.current_bind
  apply Tracks.position_bind
  apply Tracks.remaining_bind
  by_cases present : tx.hasFlag = true ∧ 4 < p.length
  · rw [if_pos present, if_pos present]
    apply Tracks.lift_bind (Exec.assert_of positive)
    apply Tracks.calloc_bind
    have filled := parseWitness_builds.fill rfl witnessZero_proper tx.txinCount.toNat ledger.next
      TxRecord.setWitnesses
      ⟨TxRecord.setWitnesses ⟨ledger.next, List.replicate tx.txinCount.toNat witnessZero⟩
          { tx with cbWitnesses := 0 },
        (ledger.malloc (List.replicate tx.txinCount.toNat witnessZero)).2⟩ p
    have stored : ∀ after slots, Filled witnessBlocks WitnessProper
        ⟨ledger.next, List.replicate tx.txinCount.toNat witnessZero⟩ TxRecord.setWitnesses
        ⟨TxRecord.setWitnesses ⟨ledger.next, List.replicate tx.txinCount.toNat witnessZero⟩
            { tx with cbWitnesses := 0 },
          (ledger.malloc (List.replicate tx.txinCount.toNat witnessZero)).2⟩ after slots →
        ∀ cbWitnesses : Nat, WitnessArray tx ledger.live
          ⟨{ after.object with cbWitnesses }, after.ledger⟩ cbWitnesses
          (some ⟨ledger.next, slots⟩) := by
      intro after slots filled cbWitnesses
      refine ⟨?_, ?_, ?_, fun unflagged => ?_⟩
      · rw [filled.object]
        rfl
      · rw [filled.live, arrayBlocks, add_assoc]
        rfl
      · intro owned same
        cases same
        have proper := filled.proper
        rw [List.length_replicate] at proper
        exact ⟨present.1, proper⟩
      · rw [present.1] at unflagged
        cases unflagged
    apply Tracks.bind filled
    · rintro _ after ⟨slots, filled⟩
      have same : after.object = { after.object with cbWitnesses := 0 } := by
        rw [filled.object]
        rfl
      have witnesses := stored after slots filled 0
      rw [Nat.cast_zero, ← same] at witnesses
      exact ⟨_, witnesses⟩
    · rintro after _ values rest _ ⟨slots, filled, shows⟩
      apply Tracks.position_bind
      exact tracks_write ⟨_, stored after slots filled _, congrArg some shows⟩
  · rw [if_neg present, if_neg present]
    refine tracks_pure ⟨none, ?_, rfl⟩
    rw [Nat.sub_self]
    exact asBefore

end BitcoinClib.Tx.Memory
