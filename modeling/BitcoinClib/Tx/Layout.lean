import BitcoinClib.Tx.CodecRules

/-!
Contract: whole transactions on the wire.

Owns:
- the image of a transaction object (`TxObject.bytes`) and the objects that have one
  (`TxObject.WellFormed`);
- `satoshi_tx_serialize` writes that image, `satoshi_tx_parse` reads it back in front of
  anything;
- a description of whatever `satoshi_tx_parse` accepts (`ReadTx`).

Does not own: the two round trips.
-/

namespace BitcoinClib.Tx

open BitcoinClib.Lib
open BitcoinClib.Lib.Parser
open BitcoinClib.Types
open BitcoinClib.Crypto

/-! ## Images -/

/-- The witness items of one input on the wire. -/
def WitnessObject.bytes (witness : WitnessObject) : Bytes :=
  varintSetData (witness.items.getD []).length ++ (witness.items.getD []).flatten

structure WitnessObject.WellFormed (witness : WitnessObject) : Prop where
  numItems : witness.numItems = (witness.items.getD []).length
  items : ∀ item ∈ witness.items.getD [], IsVarstr item
  small : (witness.items.getD []).length < 2 ^ 63

/-- An empty array of items is read back as NULL. -/
def WitnessObject.reparsed (witness : WitnessObject) : WitnessObject where
  numItems := witness.numItems
  items := if witness.items.getD [] = [] then none else witness.items

@[simp] theorem WitnessObject.reparsed_items (witness : WitnessObject) :
    witness.reparsed.items.getD [] = witness.items.getD [] := by
  unfold WitnessObject.reparsed
  dsimp only
  split
  next empty => rw [empty, Option.getD_none]
  · rfl

/-- `tx->flag` on the wire. -/
def markerBytes (hasFlag : Bool) : Bytes := if hasFlag then [0, 1] else []

/-- The witness section. -/
def TxObject.witnessBytes (tx : TxObject) : Bytes :=
  if tx.hasFlag then (tx.witnesses.getD []).flatMap WitnessObject.bytes else []

/-- The inputs and outputs with their counts. -/
def TxObject.bodyBytes (tx : TxObject) : Bytes :=
  varintSetData tx.txins.length ++ tx.txins.flatMap TxinObject.bytes ++
    varintSetData tx.txouts.length ++ tx.txouts.flatMap TxoutObject.bytes

/-- A transaction on the wire. -/
def TxObject.bytes (tx : TxObject) : Bytes :=
  leBytes 4 tx.version.toUInt32.toNat ++ markerBytes tx.hasFlag ++ tx.bodyBytes ++
    tx.witnessBytes ++ leBytes 4 tx.lockTime.toNat

/-- Inputs and outputs exist, every stored string has the size its prefix announces, and
the witness fields agree with `has_flag`. -/
structure TxObject.WellFormed (tx : TxObject) : Prop where
  txins_nonempty : tx.txins ≠ []
  txouts_nonempty : tx.txouts ≠ []
  txinScripts : ∀ txin ∈ tx.txins, IsVarstr txin.scripts
  txoutScripts : ∀ txout ∈ tx.txouts, IsVarstr txout.scripts
  flag : tx.flag = if tx.hasFlag then (0, 1) else (0, 0)
  witnesses : if tx.hasFlag then
      ∃ witnesses, tx.witnesses = some witnesses ∧ witnesses.length = tx.txins.length ∧
        ∀ witness ∈ witnesses, witness.WellFormed
    else tx.witnesses = none
  cbWitnesses : tx.hasFlag = true → tx.cbWitnesses = tx.witnessBytes.length

/-! ## Serialization -/

theorem serializeAll_of {α : Type} {serialize : α → Exec Bytes} {encode : α → Bytes}
    {values : List α} (returns : ∀ value ∈ values, serialize value = .ok (encode value)) :
    serializeAll serialize values = .ok (values.flatMap encode) := by
  induction values with
  | nil => rfl
  | cons head tail inductionHypothesis =>
      rw [serializeAll, returns head List.mem_cons_self, Exec.ok_bind,
        inductionHypothesis fun value present => returns value (List.mem_cons_of_mem _ present)]
      rfl

theorem copyVarstr_of {buffer : Bytes} (isVarstr : IsVarstr buffer) :
    copyVarstr buffer = .ok buffer := by
  rw [copyVarstr, isVarstr.1, Exec.ok_bind, if_pos (le_refl _), List.take_length]

theorem satoshiTxinSerialize_of {txin : TxinObject} (isVarstr : IsVarstr txin.scripts) :
    satoshiTxinSerialize txin = .ok txin.bytes := by
  have positive := List.length_pos_iff.2 isVarstr.ne_nil
  rw [satoshiTxinSerialize, isVarstr.1, Exec.ok_bind, Exec.assert_of ⟨positive, isVarstr.2⟩,
    Exec.ok_bind, copyVarstr_of isVarstr]
  rfl

theorem satoshiTxoutSerialize_of {txout : TxoutObject} (isVarstr : IsVarstr txout.scripts) :
    satoshiTxoutSerialize txout = .ok txout.bytes := by
  rw [satoshiTxoutSerialize, copyVarstr_of isVarstr, Exec.ok_bind,
    Exec.assert_of isVarstr.ne_nil]
  rfl

theorem witnessSerialize_of {witness : WitnessObject} (wellFormed : witness.WellFormed) :
    witnessSerialize witness = .ok witness.bytes := by
  have small := wellFormed.small
  have count : (witness.numItems % 2 ^ 64).toNat = (witness.items.getD []).length := by
    rw [wellFormed.numItems]
    omega
  unfold witnessSerialize WitnessObject.bytes
  rw [count]
  dsimp only
  split
  next none =>
    have empty : witness.items.getD [] = [] := by
      apply List.eq_nil_of_length_eq_zero
      have numItems := wellFormed.numItems
      omega
    rw [empty]
    rfl
  next counted =>
    have items := wellFormed.items
    have numItems := wellFormed.numItems
    cases stored : witness.items with
    | none =>
        rw [stored] at numItems
        exact absurd numItems counted
    | some list =>
        rw [stored] at items
        have copied : serializeAll copyVarstr list = .ok (list.flatMap id) :=
          serializeAll_of fun item present => copyVarstr_of (items item present)
        simp only [copied, Exec.ok_bind, Option.getD_some, List.flatMap_id]

theorem WitnessObject.bytes_ne_nil (witness : WitnessObject) : witness.bytes ≠ [] := by
  unfold WitnessObject.bytes
  exact fun empty => varintSetData_ne_nil _ (List.append_eq_nil_iff.1 empty).1

namespace TxObject

variable {tx : TxObject}

theorem WellFormed.witnessBytes_pos (wellFormed : tx.WellFormed) (hasFlag : tx.hasFlag = true) :
    0 < tx.witnessBytes.length := by
  have witnesses := wellFormed.witnesses
  rw [if_pos hasFlag] at witnesses
  obtain ⟨witnesses, stored, length, -⟩ := witnesses
  rw [witnessBytes, if_pos hasFlag, stored, Option.getD_some]
  cases witnesses with
  | nil => exact absurd (List.eq_nil_of_length_eq_zero length.symm) wellFormed.txins_nonempty
  | cons head tail =>
      have positive := List.length_pos_iff.2 head.bytes_ne_nil
      rw [List.flatMap_cons, List.length_append]
      omega

theorem WellFormed.witnessesSerialize (wellFormed : tx.WellFormed) (hasFlag : tx.hasFlag = true) :
    witnessesSerialize tx = .ok tx.witnessBytes := by
  have positive := wellFormed.witnessBytes_pos hasFlag
  have cbWitnesses := wellFormed.cbWitnesses hasFlag
  have witnesses := wellFormed.witnesses
  rw [if_pos hasFlag] at witnesses
  obtain ⟨witnesses, stored, length, proper⟩ := witnesses
  have written : serializeAll witnessSerialize (witnesses.take tx.txins.length) =
      .ok tx.witnessBytes := by
    rw [← length, List.take_length, witnessBytes, if_pos hasFlag, stored, Option.getD_some]
    exact serializeAll_of fun witness present => witnessSerialize_of (proper witness present)
  rw [Tx.witnessesSerialize, stored]
  dsimp only
  rw [Exec.assert_of (cbWitnesses ▸ positive), Exec.ok_bind, if_neg (length ▸ lt_irrefl _),
    Exec.ok_bind, written, Exec.ok_bind, if_neg (by omega), if_pos cbWitnesses.symm]

/-- A well-formed transaction is written as its image. -/
theorem WellFormed.serialize (wellFormed : tx.WellFormed) :
    satoshiTxSerialize tx = .ok tx.bytes := by
  have txins : serializeAll satoshiTxinSerialize tx.txins =
      .ok (tx.txins.flatMap TxinObject.bytes) :=
    serializeAll_of fun txin present => satoshiTxinSerialize_of (wellFormed.txinScripts txin present)
  have txouts : serializeAll satoshiTxoutSerialize tx.txouts =
      .ok (tx.txouts.flatMap TxoutObject.bytes) :=
    serializeAll_of fun txout present =>
      satoshiTxoutSerialize_of (wellFormed.txoutScripts txout present)
  rw [satoshiTxSerialize, txins, Exec.ok_bind, txouts, Exec.ok_bind]
  unfold TxObject.bytes bodyBytes markerBytes
  by_cases hasFlag : tx.hasFlag = true
  · rw [if_pos hasFlag, if_pos hasFlag, wellFormed.witnessesSerialize hasFlag, Exec.ok_bind]
    simp only [List.append_assoc]
  · have none : tx.witnessBytes = [] := if_neg hasFlag
    rw [if_neg hasFlag, if_neg hasFlag, Exec.ok_bind, none]
    simp only [List.append_assoc]

end TxObject

/-! ## Parsing an image -/

theorem parseWitness_of {witness : WitnessObject} (wellFormed : witness.WellFormed)
    (rest : Bytes) : Parses parseWitness (witness.bytes ++ rest) witness.reparsed rest := by
  unfold parseWitness WitnessObject.bytes
  rw [parses_bind]
  refine ⟨witness.numItems, (witness.items.getD []).flatten ++ rest,
    parseVarint_iff.2 ⟨_, isVarint_varintSetData _, by rw [List.append_assoc], ?_⟩, ?_⟩
  · have small := wellFormed.small
    rw [varintGet_varintSetData _ (by omega), ssizeOf_of_lt small, wellFormed.numItems]
  have numItems := wellFormed.numItems
  have items := wellFormed.items
  unfold WitnessObject.reparsed
  split
  next positive =>
    have nonempty : witness.items.getD [] ≠ [] := by
      apply List.ne_nil_of_length_pos
      omega
    obtain ⟨list, stored⟩ : ∃ list, witness.items = some list := by
      apply Option.ne_none_iff_exists'.1
      intro none
      exact nonempty (by rw [none, Option.getD_none])
    rw [if_neg nonempty]
    rw [stored, Option.getD_some] at items numItems ⊢
    rw [parses_bind]
    refine ⟨list, rest, ?_, parses_pure.2 ⟨rfl, rfl⟩⟩
    rw [numItems, Int.toNat_natCast, ← List.flatMap_id]
    exact parses_many (fun item present => parseVarstr_of (items item present)) rest
  next none =>
    have empty : witness.items.getD [] = [] := by
      apply List.eq_nil_of_length_eq_zero
      omega
    rw [if_pos empty, empty]
    exact parses_pure.2 ⟨rfl, rfl⟩

theorem parseMarker_iff {p rest : Bytes} {hasFlag : Bool} :
    Parses parseMarker p hasFlag rest ↔
      p = markerBytes hasFlag ++ rest ∧ (hasFlag = false → 2 ≤ p.length ∧ p.headD 0 ≠ 0) := by
  unfold parseMarker markerBytes
  rw [parses_remaining_bind, parses_require_bind]
  split
  next marked =>
    simp only [parses_require_bind, parses_take_bind, parses_pure]
    constructor
    · rintro ⟨-, second, marker, middle, length, rfl, rfl, rfl⟩
      obtain ⟨first, second', rfl⟩ := List.length_eq_two.1 length
      simp only [List.cons_append, List.headD_cons, List.getD_cons_succ, List.nil_append,
        List.getD_cons_zero] at marked second
      subst marked second
      simp
    · rintro ⟨parts, unmarked⟩
      cases hasFlag with
      | false => exact absurd marked (unmarked rfl).2
      | true =>
          subst parts
          exact ⟨by simp, by simp, [0, 1], rest, rfl, rfl, rfl, rfl⟩
  next unmarked =>
    rw [parses_pure]
    constructor
    · rintro ⟨length, rfl, rfl⟩
      exact ⟨rfl, fun _ => ⟨length, unmarked⟩⟩
    · rintro ⟨parts, length⟩
      cases hasFlag with
      | true =>
          subst parts
          exact absurd rfl unmarked
      | false => exact ⟨(length rfl).1, rfl, parts.symm⟩

/-- No positive count begins like a marker. -/
theorem varintSetData_headD {value : Nat} (positive : 0 < value) (rest : Bytes) :
    (varintSetData value ++ rest).headD 0 ≠ 0 := by
  unfold varintSetData
  split_ifs with oneByte
  · simp only [leBytes, List.cons_append, List.headD_cons]
    intro zero
    have digit := congrArg UInt8.toNat zero
    simp at digit
    omega
  all_goals simp

/-- What `satoshi_txin_parse` stores for the fields on the wire. -/
def TxinObject.reparsed (txin : TxinObject) : TxinObject :=
  { txin with
    isCoinbase := txin.outpoint = coinbaseOutpoint
    cbScripts := varintGet txin.scripts }

/-- What `satoshi_txout_parse` stores for the fields on the wire. -/
def TxoutObject.reparsed (txout : TxoutObject) : TxoutObject :=
  { txout with
    flags := if (txout.scripts.drop (varintSize txout.scripts)).headD 0 ≤ 16 then txoutTypeSegwit
      else txoutTypeLegacy }

/-- What `satoshi_tx_parse` stores for the fields on the wire. -/
def TxObject.reparsed (crypto : CryptoBackend) (tx : TxObject) : TxObject :=
  { tx with
    flag := if tx.hasFlag then (0, 1) else (0, 0)
    txins := tx.txins.map TxinObject.reparsed
    txouts := tx.txouts.map TxoutObject.reparsed
    witnesses := tx.witnesses.map (List.map WitnessObject.reparsed)
    cbWitnesses := tx.witnessBytes.length
    txid := hash256 crypto (leBytes 4 tx.version.toUInt32.toNat ++ tx.bodyBytes ++
      leBytes 4 tx.lockTime.toNat)
    wtxid := if tx.hasFlag then hash256 crypto tx.bytes else uint256Zero }

theorem TxinObject.reparsed_parsed {txin : TxinObject} (isVarstr : IsVarstr txin.scripts) :
    txin.reparsed.Parsed := ⟨isVarstr, rfl, rfl⟩

theorem TxoutObject.reparsed_parsed {txout : TxoutObject} (isVarstr : IsVarstr txout.scripts)
    (hasScript : HasScript txout.scripts) : txout.reparsed.Parsed := by
  refine ⟨isVarstr, ?_⟩
  obtain ⟨byte, first⟩ := firstScriptByte_eq_ok.2 hasScript
  refine ⟨byte, first, ?_⟩
  unfold firstScriptByte at first
  unfold TxoutObject.reparsed
  dsimp only
  split at first
  · cases first
  next head tail data =>
    cases first
    rw [data, List.headD_cons]

theorem consumed_append (chunk rest : Bytes) : consumed (chunk ++ rest) rest = chunk := by
  unfold consumed
  rw [List.length_append, Nat.add_sub_cancel, List.take_left]

namespace TxObject

variable {tx : TxObject}

theorem reparsed_bodyBytes (crypto : CryptoBackend) (tx : TxObject) :
    (tx.reparsed crypto).bodyBytes = tx.bodyBytes := by
  simp only [bodyBytes, reparsed, List.length_map, List.flatMap_map]
  rfl

theorem WellFormed.parseTxins (wellFormed : tx.WellFormed) (small : tx.txins.length < 2 ^ 63)
    (rest : Bytes) :
    Parses parseTxins (varintSetData tx.txins.length ++ tx.txins.flatMap TxinObject.bytes ++ rest)
      (tx.txins.map TxinObject.reparsed) rest := by
  refine parseTxins_iff.2 ⟨varintSetData tx.txins.length, ?_, ?_, ?_, ?_⟩
  · rw [List.length_map]
    exact announces_varintSetData small
  · exact fun empty => wellFormed.txins_nonempty (List.map_eq_nil_iff.1 empty)
  · intro txin present
    obtain ⟨original, member, rfl⟩ := List.mem_map.1 present
    exact TxinObject.reparsed_parsed (wellFormed.txinScripts original member)
  · rw [List.flatMap_map]
    rfl

theorem WellFormed.parseTxouts (wellFormed : tx.WellFormed) (small : tx.txouts.length < 2 ^ 63)
    (hasScripts : ∀ txout ∈ tx.txouts, HasScript txout.scripts) (rest : Bytes) :
    Parses parseTxouts
      (varintSetData tx.txouts.length ++ tx.txouts.flatMap TxoutObject.bytes ++ rest)
      (tx.txouts.map TxoutObject.reparsed) rest := by
  refine parseTxouts_iff.2 ⟨varintSetData tx.txouts.length, ?_, ?_, ?_, ?_⟩
  · rw [List.length_map]
    exact announces_varintSetData small
  · exact fun empty => wellFormed.txouts_nonempty (List.map_eq_nil_iff.1 empty)
  · intro txout present
    obtain ⟨original, member, rfl⟩ := List.mem_map.1 present
    exact TxoutObject.reparsed_parsed (wellFormed.txoutScripts original member)
      (hasScripts original member)
  · rw [List.flatMap_map]
    rfl

theorem WellFormed.parseWitnesses (wellFormed : tx.WellFormed) (lockTime rest : Bytes)
    (length : lockTime.length = 4) :
    Parses (parseWitnesses tx.hasFlag tx.txins.length) (tx.witnessBytes ++ (lockTime ++ rest))
      (tx.witnesses.map (List.map WitnessObject.reparsed)) (lockTime ++ rest) := by
  unfold Tx.parseWitnesses
  rw [parses_remaining_bind]
  have witnesses := wellFormed.witnesses
  by_cases hasFlag : tx.hasFlag = true
  · have positive := wellFormed.witnessBytes_pos hasFlag
    rw [if_pos hasFlag] at witnesses
    obtain ⟨witnesses, stored, count, proper⟩ := witnesses
    rw [if_pos ⟨hasFlag, by simp only [List.length_append]; omega⟩, parses_bind]
    refine ⟨witnesses.map WitnessObject.reparsed, lockTime ++ rest, ?_,
      parses_pure.2 ⟨by rw [stored, Option.map_some], rfl⟩⟩
    have image : tx.witnessBytes =
        (witnesses.map WitnessObject.reparsed).flatMap WitnessObject.bytes := by
      rw [witnessBytes, if_pos hasFlag, stored, Option.getD_some, List.flatMap_map]
      unfold WitnessObject.bytes
      simp only [WitnessObject.reparsed_items]
    rw [image, ← count, ← List.length_map WitnessObject.reparsed]
    apply parses_many
    intro witness present next
    obtain ⟨original, member, rfl⟩ := List.mem_map.1 present
    have same : original.reparsed.bytes = original.bytes := by
      unfold WitnessObject.bytes
      rw [WitnessObject.reparsed_items]
    rw [same]
    exact parseWitness_of (proper original member) next
  · rw [if_neg hasFlag] at witnesses
    rw [if_neg (fun both => hasFlag both.1), witnesses, witnessBytes, if_neg hasFlag]
    exact parses_pure.2 ⟨rfl, rfl⟩

/-- The image of a well-formed transaction is read back in front of anything. -/
theorem WellFormed.parses (wellFormed : tx.WellFormed) (crypto : CryptoBackend)
    (hasScripts : ∀ txout ∈ tx.txouts, HasScript txout.scripts)
    (txinsSmall : tx.txins.length < 2 ^ 63) (txoutsSmall : tx.txouts.length < 2 ^ 63)
    (rest : Bytes) : Parses (txParser crypto) (tx.bytes ++ rest) (tx.reparsed crypto) rest := by
  have lockTimeLength := leBytes_length 4 tx.lockTime.toNat
  have counted : 0 < tx.txins.length := List.length_pos_iff.2 wellFormed.txins_nonempty
  -- what is left in front of each part
  let atLockTime := leBytes 4 tx.lockTime.toNat ++ rest
  let atWitnesses := tx.witnessBytes ++ atLockTime
  let atTxouts := varintSetData tx.txouts.length ++ tx.txouts.flatMap TxoutObject.bytes ++
    atWitnesses
  let atTxins := varintSetData tx.txins.length ++ tx.txins.flatMap TxinObject.bytes ++ atTxouts
  have start : tx.bytes ++ rest =
      leBytes 4 tx.version.toUInt32.toNat ++ (markerBytes tx.hasFlag ++ atTxins) := by
    simp only [TxObject.bytes, bodyBytes, atTxins, atTxouts, atWitnesses, atLockTime,
      List.append_assoc]
  have marker : Parses parseMarker (markerBytes tx.hasFlag ++ atTxins) tx.hasFlag atTxins := by
    refine parseMarker_iff.2 ⟨rfl, fun noFlag => ?_⟩
    have first : markerBytes tx.hasFlag ++ atTxins =
        varintSetData tx.txins.length ++ (tx.txins.flatMap TxinObject.bytes ++ atTxouts) := by
      rw [noFlag]
      simp only [atTxins, markerBytes, Bool.false_eq_true, if_false, List.nil_append,
        List.append_assoc]
    rw [first]
    refine ⟨?_, varintSetData_headD counted _⟩
    have inCount := List.length_pos_iff.2 (varintSetData_ne_nil tx.txins.length)
    have outCount := List.length_pos_iff.2 (varintSetData_ne_nil tx.txouts.length)
    simp only [atTxouts, List.length_append]
    omega
  unfold txParser
  rw [parses_remaining_bind, parses_take_bind]
  refine ⟨_, _, leBytes_length _ _, start, ?_⟩
  rw [parses_bind]
  refine ⟨_, _, marker, ?_⟩
  rw [parses_remaining_bind, parses_bind]
  refine ⟨_, _, wellFormed.parseTxins txinsSmall atTxouts, ?_⟩
  rw [parses_remaining_bind, parses_bind]
  refine ⟨_, _, wellFormed.parseTxouts txoutsSmall hasScripts atWitnesses, ?_⟩
  rw [parses_remaining_bind, List.length_map, parses_bind]
  refine ⟨_, _, wellFormed.parseWitnesses _ rest lockTimeLength, ?_⟩
  rw [parses_remaining_bind, parses_take_bind]
  refine ⟨_, _, lockTimeLength, rfl, ?_⟩
  rw [parses_remaining_bind, parses_pure]
  refine ⟨?_, rfl⟩
  have txins : consumed atTxins atTxouts =
      varintSetData tx.txins.length ++ tx.txins.flatMap TxinObject.bytes :=
    consumed_append _ _
  have txouts : consumed atTxouts atWitnesses =
      varintSetData tx.txouts.length ++ tx.txouts.flatMap TxoutObject.bytes :=
    consumed_append _ _
  have witnesses : atWitnesses.length - (leBytes 4 tx.lockTime.toNat ++ rest).length =
      tx.witnessBytes.length := by
    rw [List.length_append, Nat.add_sub_cancel]
  have whole : consumed (tx.bytes ++ rest) rest = tx.bytes := consumed_append _ _
  unfold reparsed
  rw [version_leBytes, uint32OfBytes_leBytes, txins, txouts, witnesses, whole]
  simp only [bodyBytes, List.append_assoc]

end TxObject

/-! ## What is accepted -/

/-- The bytes of an accepted transaction: its counts and witnesses as they were found, the
other parts as they are stored. -/
def readBytes (tx : TxObject) (inCount outCount : Bytes) (witnesses : List Bytes) : Bytes :=
  leBytes 4 tx.version.toUInt32.toNat ++ (markerBytes tx.hasFlag ++
    (inCount ++ tx.txins.flatMap TxinObject.bytes ++
      (outCount ++ tx.txouts.flatMap TxoutObject.bytes ++
        (witnesses.flatten ++ leBytes 4 tx.lockTime.toNat))))

/-- What `satoshi_tx_parse` stores for the counts and witnesses it finds. -/
structure ReadTx (tx : TxObject) (inCount outCount : Bytes) (witnesses : List Bytes) : Prop where
  inCount : Announces inCount tx.txins.length
  outCount : Announces outCount tx.txouts.length
  txins_nonempty : tx.txins ≠ []
  txouts_nonempty : tx.txouts ≠ []
  txins : ∀ txin ∈ tx.txins, txin.Parsed
  txouts : ∀ txout ∈ tx.txouts, txout.Parsed
  flag : tx.flag = if tx.hasFlag then (0, 1) else (0, 0)
  witnesses : tx.witnesses = none ∧ witnesses = [] ∨
    tx.hasFlag = true ∧ ∃ stored, tx.witnesses = some stored ∧
      stored.length = tx.txins.length ∧ List.Forall₂ ReadWitness witnesses stored

theorem parseWitnesses_reads (hasFlag : Bool) (txinCount : Nat) :
    Reads (parseWitnesses hasFlag txinCount) fun raw witnesses =>
      ∃ raws : List Bytes, raw = raws.flatten ∧ (witnesses = none ∧ raws = [] ∨
        hasFlag = true ∧ ∃ stored, witnesses = some stored ∧ stored.length = txinCount ∧
          List.Forall₂ ReadWitness raws stored) := by
  intro p witnesses rest parses
  unfold parseWitnesses at parses
  rw [parses_remaining_bind] at parses
  split at parses
  next present =>
    obtain ⟨stored, middle, read, done⟩ := parses_bind.1 parses
    obtain ⟨rfl, rfl⟩ := parses_pure.1 done
    have length := many_length read
    obtain ⟨raws, rfl, related⟩ := many_reads parseWitness_reads read
    exact ⟨raws.flatten, rfl, raws, rfl, .inr ⟨present.1, stored, rfl, length, related⟩⟩
  next absent =>
    obtain ⟨rfl, rfl⟩ := parses_pure.1 parses
    exact ⟨[], rfl, [], rfl, .inl ⟨rfl, rfl⟩⟩

/-- Whatever is accepted has the layout of a transaction. -/
theorem txParser_reads (crypto : CryptoBackend) :
    Reads (txParser crypto) fun raw tx => ∃ inCount outCount witnesses,
      raw = readBytes tx inCount outCount witnesses ∧ ReadTx tx inCount outCount witnesses := by
  intro p tx rest parses
  unfold txParser at parses
  rw [parses_remaining_bind, parses_take_bind] at parses
  obtain ⟨version, afterVersion, versionLength, rfl, parses⟩ := parses
  obtain ⟨hasFlag, afterMarker, marker, parses⟩ := parses_bind.1 parses
  obtain ⟨rfl, -⟩ := parseMarker_iff.1 marker
  rw [parses_remaining_bind] at parses
  obtain ⟨txins, afterTxins, readTxins, parses⟩ := parses_bind.1 parses
  obtain ⟨inCount, inAnnounces, txins_nonempty, txinsParsed, rfl⟩ := parseTxins_iff.1 readTxins
  rw [parses_remaining_bind] at parses
  obtain ⟨txouts, afterTxouts, readTxouts, parses⟩ := parses_bind.1 parses
  obtain ⟨outCount, outAnnounces, txouts_nonempty, txoutsParsed, rfl⟩ :=
    parseTxouts_iff.1 readTxouts
  rw [parses_remaining_bind] at parses
  obtain ⟨witnesses, atLockTime, readWitnesses, parses⟩ := parses_bind.1 parses
  obtain ⟨raw, rfl, raws, rfl, stored⟩ :=
    parseWitnesses_reads hasFlag txins.length _ _ _ readWitnesses
  rw [parses_remaining_bind, parses_take_bind] at parses
  obtain ⟨lockTime, afterLockTime, lockTimeLength, rfl, parses⟩ := parses
  rw [parses_remaining_bind, parses_pure] at parses
  obtain ⟨rfl, rfl⟩ := parses
  refine ⟨version ++ (markerBytes hasFlag ++ (inCount ++ txins.flatMap TxinObject.bytes ++
      (outCount ++ txouts.flatMap TxoutObject.bytes ++ (raws.flatten ++ lockTime)))),
    by simp only [List.append_assoc], inCount, outCount, raws, ?_, ?_⟩
  · simp only [readBytes, leBytes_version versionLength, leBytes_uint32OfBytes lockTimeLength]
  · exact ⟨inAnnounces, outAnnounces, txins_nonempty, txouts_nonempty, txinsParsed,
      txoutsParsed, rfl, stored⟩

end BitcoinClib.Tx
