import BitcoinClib.Tx.Layout

/-!
Contract: `satoshi_tx_parse` against `satoshi_tx_serialize`.

Owns:
- decoding undoes encoding exactly when every output has a script;
- encoding undoes decoding exactly on bytes with minimal counts, a complete witness section
  and proper witness items (`CanonicalTx`).
-/

namespace BitcoinClib.Tx

open BitcoinClib.Lib
open BitcoinClib.Lib.Parser
open BitcoinClib.Types
open BitcoinClib.Crypto

theorem length_le_flatMap {α : Type} {encode : α → Bytes} {values : List α}
    (nonempty : ∀ value ∈ values, encode value ≠ []) :
    values.length ≤ (values.flatMap encode).length := by
  induction values with
  | nil => exact Nat.le_refl 0
  | cons head tail inductionHypothesis =>
      have here := List.length_pos_iff.2 (nonempty head List.mem_cons_self)
      have there := inductionHypothesis fun value present =>
        nonempty value (List.mem_cons_of_mem _ present)
      rw [List.flatMap_cons, List.length_append, List.length_cons]
      omega

namespace TxObject

variable {tx : TxObject}

theorem txins_length_le (tx : TxObject) : tx.txins.length ≤ tx.bytes.length := by
  have records : tx.txins.length ≤ (tx.txins.flatMap TxinObject.bytes).length :=
    length_le_flatMap fun txin _ => txin.bytes_ne_nil
  simp only [TxObject.bytes, bodyBytes, List.length_append]
  omega

theorem txouts_length_le (tx : TxObject) : tx.txouts.length ≤ tx.bytes.length := by
  have records : tx.txouts.length ≤ (tx.txouts.flatMap TxoutObject.bytes).length :=
    length_le_flatMap fun txout _ => txout.bytes_ne_nil
  simp only [TxObject.bytes, bodyBytes, List.length_append]
  omega

theorem bytes_length_pos (tx : TxObject) : 0 < tx.bytes.length := by
  simp only [TxObject.bytes, List.length_append, leBytes_length]
  omega

end TxObject

theorem satoshiTxParse_eq_ok {crypto : CryptoBackend} {payload : Bytes} {tx : TxObject}
    {size : Nat} :
    satoshiTxParse crypto payload = .ok (some (tx, size)) ↔
      (0 < payload.length ∧ payload.length ≤ maxBlockSerializedSize) ∧
        ∃ rest, Parses (txParser crypto) payload tx rest ∧ size = payload.length - rest.length := by
  unfold satoshiTxParse Parses
  rw [Exec.bind_eq_ok]
  simp only [Exec.assert_eq_ok, exists_const, Exec.bind_eq_ok, Exec.ok.injEq,
    Option.map_eq_some_iff, Prod.mk.injEq, Prod.exists]
  refine and_congr_right fun _ => ?_
  constructor
  · rintro ⟨outcome, returns, parsed, rest, rfl, rfl, rfl⟩
    exact ⟨rest, returns, rfl⟩
  · rintro ⟨rest, returns, rfl⟩
    exact ⟨_, returns, tx, rest, rfl, rfl, rfl⟩

theorem TxObject.WellFormed.satoshiTxParse {tx : TxObject} (wellFormed : tx.WellFormed)
    (crypto : CryptoBackend) (hasScripts : ∀ txout ∈ tx.txouts, HasScript txout.scripts)
    {tail : Bytes} (fits : tx.bytes.length + tail.length ≤ maxBlockSerializedSize) :
    satoshiTxParse crypto (tx.bytes ++ tail) =
      .ok (some (tx.reparsed crypto, tx.bytes.length)) := by
  have positive := tx.bytes_length_pos
  have txinsSmall := tx.txins_length_le
  have txoutsSmall := tx.txouts_length_le
  have bound : maxBlockSerializedSize = 4000000 := rfl
  rw [satoshiTxParse_eq_ok]
  refine ⟨by rw [List.length_append]; omega, tail,
    wellFormed.parses crypto hasScripts (by omega) (by omega) tail, ?_⟩
  rw [List.length_append, Nat.add_sub_cancel]

/-! ## Decoding what was encoded -/

/-- The fields of a transaction that are on the wire. -/
structure SameContents (parsed original : TxObject) : Prop where
  version : parsed.version = original.version
  hasFlag : parsed.hasFlag = original.hasFlag
  flag : parsed.flag = original.flag
  txins : parsed.txins.map (fun txin => (txin.outpoint, txin.scripts, txin.sequence)) =
    original.txins.map fun txin => (txin.outpoint, txin.scripts, txin.sequence)
  txouts : parsed.txouts.map (fun txout => (txout.value, txout.scripts)) =
    original.txouts.map fun txout => (txout.value, txout.scripts)
  witnesses : parsed.witnesses.map (List.map fun witness => witness.items.getD []) =
    original.witnesses.map (List.map fun witness => witness.items.getD [])
  lockTime : parsed.lockTime = original.lockTime

theorem TxObject.WellFormed.sameContents {tx : TxObject} (wellFormed : tx.WellFormed)
    (crypto : CryptoBackend) : SameContents (tx.reparsed crypto) tx where
  version := rfl
  hasFlag := rfl
  flag := wellFormed.flag.symm
  txins := by
    simp only [TxObject.reparsed, List.map_map]
    rfl
  txouts := by
    simp only [TxObject.reparsed, List.map_map]
    rfl
  witnesses := by
    have item : (fun witness : WitnessObject => witness.items.getD []) ∘
        WitnessObject.reparsed = fun witness => witness.items.getD [] :=
      funext WitnessObject.reparsed_items
    simp only [TxObject.reparsed, Option.map_map, List.map_comp_map, item]
  lockTime := rfl

/-- Every accepted output has a script. -/
theorem hasScript_of_parse {crypto : CryptoBackend} {payload : Bytes} {tx : TxObject}
    {size : Nat} (returns : satoshiTxParse crypto payload = .ok (some (tx, size))) :
    ∀ txout ∈ tx.txouts, HasScript txout.scripts := by
  obtain ⟨-, rest, parses, -⟩ := satoshiTxParse_eq_ok.1 returns
  obtain ⟨_, _, _, _, _, _, readTx⟩ := txParser_reads crypto _ _ _ parses
  intro txout present
  obtain ⟨byte, first, -⟩ := (readTx.txouts txout present).flags
  exact firstScriptByte_eq_ok.1 ⟨byte, first⟩

/-- What was serialized is parsed back, in front of anything, exactly when no output has an
empty script. -/
theorem satoshiTxParse_satoshiTxSerialize (crypto : CryptoBackend) (tx : TxObject)
    (wellFormed : tx.WellFormed) (tail : Bytes) :
    ∃ bytes, satoshiTxSerialize tx = .ok bytes ∧
      (bytes.length + tail.length ≤ maxBlockSerializedSize →
        ((∃ parsed, satoshiTxParse crypto (bytes ++ tail) = .ok (some (parsed, bytes.length)) ∧
            SameContents parsed tx) ↔
          ∀ txout ∈ tx.txouts, HasScript txout.scripts)) := by
  refine ⟨tx.bytes, wellFormed.serialize, fun fits => ⟨?_, fun hasScripts => ?_⟩⟩
  · rintro ⟨parsed, returns, same⟩ txout present
    have kept : (txout.value, txout.scripts) ∈
        parsed.txouts.map fun txout => (txout.value, txout.scripts) := by
      rw [same.txouts]
      exact List.mem_map_of_mem present
    obtain ⟨accepted, member, fields⟩ := List.mem_map.1 kept
    have hasScript := hasScript_of_parse returns accepted member
    rw [(Prod.mk.inj fields).2] at hasScript
    exact hasScript
  · exact ⟨tx.reparsed crypto, wellFormed.satoshiTxParse crypto hasScripts fits,
      wellFormed.sameContents crypto⟩

/-- One input, one output with the given script and one witness item. -/
def sampleTx (script : Bytes) : TxObject where
  version := 2
  hasFlag := true
  flag := (0, 1)
  txins := [{
    outpoint := ⟨uint256Zero, 0⟩
    isCoinbase := false
    scripts := varstrNew []
    cbScripts := 0
    sequence := 0xffffffff }]
  txouts := [{ value := 50, scripts := varstrNew script, flags := txoutTypeSegwit }]
  witnesses := some [⟨1, some [varstrNew [0xaa]]⟩]
  cbWitnesses := 3
  lockTime := 0
  txid := uint256Zero
  wtxid := uint256Zero

theorem sampleTx_wellFormed {script : Bytes} (isVarstr : IsVarstr (varstrNew script)) :
    (sampleTx script).WellFormed where
  txins_nonempty := by simp [sampleTx]
  txouts_nonempty := by simp [sampleTx]
  txinScripts := by
    simp only [sampleTx, List.forall_mem_singleton]
    decide
  txoutScripts := by
    simpa only [sampleTx, List.forall_mem_singleton]
  flag := rfl
  witnesses := by
    refine ⟨_, rfl, rfl, ?_⟩
    simp only [List.forall_mem_singleton]
    exact ⟨rfl, by simp only [Option.getD_some, List.forall_mem_singleton]; decide, by decide⟩
  cbWitnesses _ := rfl

theorem satoshiTxParse_satoshiTxSerialize_sampleTx :
    ∃ bytes, satoshiTxSerialize (sampleTx [0x51]) = .ok bytes ∧
      (bytes.length + 2 ≤ maxBlockSerializedSize →
        ((∃ parsed, satoshiTxParse sampleCrypto (bytes ++ [7, 7]) =
              .ok (some (parsed, bytes.length)) ∧ SameContents parsed (sampleTx [0x51])) ↔
          ∀ txout ∈ (sampleTx [0x51]).txouts, HasScript txout.scripts)) :=
  satoshiTxParse_satoshiTxSerialize sampleCrypto (sampleTx [0x51])
    (sampleTx_wellFormed (by decide)) [7, 7]

/-- An empty output script is read one byte behind its buffer. -/
theorem satoshiTxParse_emptyScript :
    (sampleTx []).WellFormed ∧ ∃ bytes, satoshiTxSerialize (sampleTx []) = .ok bytes ∧
      bytes.length ≤ maxBlockSerializedSize ∧
      satoshiTxParse sampleCrypto bytes = .fault .bounds :=
  ⟨sampleTx_wellFormed (by decide), _, rfl, by decide, by decide +kernel⟩

/-! ## Encoding what was decoded -/

/-- An array with its count as a minimal varint. -/
def counted (chunks : List Bytes) : Bytes := varintSetData chunks.length ++ chunks.flatten

def IsTxinBytes (raw : Bytes) : Prop :=
  ∃ outpoint scripts sequence : Bytes, raw = outpoint ++ scripts ++ sequence ∧ outpoint.length = 36 ∧
    IsVarstr scripts ∧ sequence.length = 4

def IsTxoutBytes (raw : Bytes) : Prop :=
  ∃ value scripts : Bytes, raw = value ++ scripts ∧ value.length = 8 ∧ IsVarstr scripts ∧
    HasScript scripts

def IsWitnessBytes (raw : Bytes) : Prop :=
  ∃ items, raw = counted items ∧ ∀ item ∈ items, IsVarstr item

/-- The inputs and outputs, and behind a marker a witness for every input, all with minimal
counts. -/
def CanonicalTx (raw : Bytes) : Prop :=
  ∃ (version : Bytes) (txins txouts : List Bytes) (lockTime : Bytes), version.length = 4 ∧
    lockTime.length = 4 ∧ txins ≠ [] ∧ txouts ≠ [] ∧
    (∀ txin ∈ txins, IsTxinBytes txin) ∧ (∀ txout ∈ txouts, IsTxoutBytes txout) ∧
    (raw = version ++ counted txins ++ counted txouts ++ lockTime ∨
      ∃ witnesses : List Bytes, witnesses.length = txins.length ∧
        (∀ witness ∈ witnesses, IsWitnessBytes witness) ∧
        raw = version ++ [0, 1] ++ counted txins ++ counted txouts ++ witnesses.flatten ++
          lockTime)

theorem CanonicalTx.ne_nil {raw : Bytes} (canonical : CanonicalTx raw) : raw ≠ [] := by
  obtain ⟨version, txins, txouts, lockTime, length, -, -, -, -, -, layout⟩ := canonical
  apply List.ne_nil_of_length_pos
  rcases layout with rfl | ⟨witnesses, -, -, rfl⟩
  all_goals
    simp only [List.length_append]
    omega

theorem counted_map {α : Type} (encode : α → Bytes) (values : List α) :
    counted (values.map encode) = varintSetData values.length ++ values.flatMap encode := by
  rw [counted, List.length_map, List.flatMap_def]

theorem TxObject.WellFormed.canonicalTx {tx : TxObject} (wellFormed : tx.WellFormed)
    (hasScripts : ∀ txout ∈ tx.txouts, HasScript txout.scripts) : CanonicalTx tx.bytes := by
  refine ⟨leBytes 4 tx.version.toUInt32.toNat, tx.txins.map TxinObject.bytes,
    tx.txouts.map TxoutObject.bytes, leBytes 4 tx.lockTime.toNat, leBytes_length _ _,
    leBytes_length _ _, fun empty => wellFormed.txins_nonempty (List.map_eq_nil_iff.1 empty),
    fun empty => wellFormed.txouts_nonempty (List.map_eq_nil_iff.1 empty), ?_, ?_, ?_⟩
  · intro raw present
    obtain ⟨txin, member, rfl⟩ := List.mem_map.1 present
    exact ⟨txin.outpoint.bytes, txin.scripts, leBytes 4 txin.sequence.toNat, rfl,
      outpoint_bytes_length _, wellFormed.txinScripts txin member, leBytes_length _ _⟩
  · intro raw present
    obtain ⟨txout, member, rfl⟩ := List.mem_map.1 present
    exact ⟨leBytes 8 txout.value.toUInt64.toNat, txout.scripts, rfl, leBytes_length _ _,
      wellFormed.txoutScripts txout member, hasScripts txout member⟩
  · rw [counted_map, counted_map]
    have witnesses := wellFormed.witnesses
    unfold TxObject.bytes TxObject.witnessBytes TxObject.bodyBytes markerBytes
    by_cases hasFlag : tx.hasFlag = true
    · right
      rw [if_pos hasFlag] at witnesses ⊢
      obtain ⟨witnesses, stored, length, proper⟩ := witnesses
      refine ⟨witnesses.map WitnessObject.bytes, by rw [List.length_map, List.length_map, length],
        ?_, ?_⟩
      · intro raw present
        obtain ⟨witness, member, rfl⟩ := List.mem_map.1 present
        exact ⟨witness.items.getD [], rfl, (proper witness member).items⟩
      · rw [if_pos hasFlag, stored, Option.getD_some, ← List.flatMap_def]
        simp only [List.append_assoc]
    · left
      rw [if_neg hasFlag, if_neg hasFlag]
      simp only [List.append_assoc, List.append_nil]

/-- An object for each canonical string of bytes. -/
theorem IsTxinBytes.object {raw : Bytes} (isTxin : IsTxinBytes raw) :
    ∃ txin : TxinObject, IsVarstr txin.scripts ∧ txin.bytes = raw := by
  obtain ⟨outpoint, scripts, sequence, rfl, outpointLength, isVarstr, sequenceLength⟩ := isTxin
  refine ⟨⟨outpointOfBytes outpoint, false, scripts, 0, uint32OfBytes sequence⟩, isVarstr, ?_⟩
  rw [TxinObject.bytes, bytes_outpointOfBytes outpointLength,
    leBytes_uint32OfBytes sequenceLength]

theorem IsTxoutBytes.object {raw : Bytes} (isTxout : IsTxoutBytes raw) :
    ∃ txout : TxoutObject, (IsVarstr txout.scripts ∧ HasScript txout.scripts) ∧
      txout.bytes = raw := by
  obtain ⟨value, scripts, rfl, valueLength, isVarstr, hasScript⟩ := isTxout
  refine ⟨⟨(UInt64.ofNat (leValue value)).toInt64, scripts, 0⟩, ⟨isVarstr, hasScript⟩, ?_⟩
  rw [TxoutObject.bytes, leBytes_txoutValue valueLength]

theorem IsWitnessBytes.object {raw : Bytes} (isWitness : IsWitnessBytes raw)
    (small : raw.length < 2 ^ 63) :
    ∃ witness : WitnessObject, witness.WellFormed ∧ witness.bytes = raw := by
  obtain ⟨items, rfl, isVarstr⟩ := isWitness
  refine ⟨⟨items.length, some items⟩, ⟨rfl, isVarstr, ?_⟩, rfl⟩
  have announced : items.length ≤ (items.flatMap id).length :=
    length_le_flatMap fun item present => (isVarstr item present).ne_nil
  rw [List.flatMap_id] at announced
  rw [counted, List.length_append] at small
  exact lt_of_le_of_lt (announced.trans (Nat.le_add_left _ _)) small

theorem exists_objects {α : Type} {encode : α → Bytes} {Valid : α → Prop} {chunks : List Bytes}
    (objects : ∀ chunk ∈ chunks, ∃ value, Valid value ∧ encode value = chunk) :
    ∃ values : List α, (∀ value ∈ values, Valid value) ∧ values.map encode = chunks := by
  induction chunks with
  | nil => exact ⟨[], by simp, rfl⟩
  | cons head tail inductionHypothesis =>
      obtain ⟨value, valid, rfl⟩ := objects head List.mem_cons_self
      obtain ⟨values, allValid, rfl⟩ := inductionHypothesis fun chunk present =>
        objects chunk (List.mem_cons_of_mem _ present)
      refine ⟨value :: values, ?_, rfl⟩
      rw [List.forall_mem_cons]
      exact ⟨valid, allValid⟩

theorem CanonicalTx.object {raw : Bytes} (canonical : CanonicalTx raw)
    (small : raw.length < 2 ^ 63) :
    ∃ tx : TxObject, tx.WellFormed ∧ (∀ txout ∈ tx.txouts, HasScript txout.scripts) ∧
      tx.bytes = raw := by
  obtain ⟨version, txins, txouts, lockTime, versionLength, lockTimeLength, txins_nonempty,
    txouts_nonempty, areTxins, areTxouts, layout⟩ := canonical
  obtain ⟨txins, txinScripts, rfl⟩ := exists_objects fun raw present =>
    (areTxins raw present).object
  obtain ⟨txouts, txoutScripts, rfl⟩ := exists_objects fun raw present =>
    (areTxouts raw present).object
  have txins_nonempty : txins ≠ [] := fun empty => txins_nonempty (List.map_eq_nil_iff.2 empty)
  have txouts_nonempty : txouts ≠ [] :=
    fun empty => txouts_nonempty (List.map_eq_nil_iff.2 empty)
  rw [counted_map, counted_map] at layout
  have version_eq := leBytes_version versionLength
  have lockTime_eq := leBytes_uint32OfBytes lockTimeLength
  rcases layout with rfl | ⟨witnesses, length, areWitnesses, rfl⟩
  · refine ⟨⟨(uint32OfBytes version).toInt32, false, (0, 0), txins, txouts, none, 0,
      uint32OfBytes lockTime, uint256Zero, uint256Zero⟩, ⟨txins_nonempty, txouts_nonempty,
      txinScripts, fun txout present => (txoutScripts txout present).1, rfl, rfl, ?_⟩,
      fun txout present => (txoutScripts txout present).2, ?_⟩
    · exact fun hasFlag => absurd hasFlag Bool.false_ne_true
    · simp only [TxObject.bytes, TxObject.bodyBytes, TxObject.witnessBytes, markerBytes,
        version_eq, lockTime_eq, Bool.false_eq_true, if_false, List.append_nil,
        List.append_assoc]
  · obtain ⟨witnesses, proper, rfl⟩ := exists_objects fun raw present =>
      (areWitnesses raw present).object (by
        have part := (List.sublist_flatten_of_mem present).length_le
        simp only [List.length_append] at small
        omega)
    rw [List.length_map, List.length_map] at length
    refine ⟨⟨(uint32OfBytes version).toInt32, true, (0, 1), txins, txouts, some witnesses,
      (witnesses.flatMap WitnessObject.bytes).length, uint32OfBytes lockTime, uint256Zero,
      uint256Zero⟩, ⟨txins_nonempty, txouts_nonempty, txinScripts,
      fun txout present => (txoutScripts txout present).1, rfl, ⟨witnesses, rfl, length, proper⟩,
      fun _ => rfl⟩, fun txout present => (txoutScripts txout present).2, ?_⟩
    simp only [TxObject.bytes, TxObject.bodyBytes, TxObject.witnessBytes, markerBytes,
      version_eq, lockTime_eq, if_true, Option.getD_some, List.flatMap_def, List.append_assoc]

theorem serializeAll_mem {α : Type} {serialize : α → Exec Bytes} {values : List α} {bytes : Bytes}
    (returns : serializeAll serialize values = .ok bytes) :
    ∀ value ∈ values, ∃ part, serialize value = .ok part := by
  induction values generalizing bytes with
  | nil => simp
  | cons head tail inductionHypothesis =>
      rw [serializeAll] at returns
      obtain ⟨first, here, rest⟩ := Exec.bind_eq_ok.1 returns
      obtain ⟨others, there, -⟩ := Exec.bind_eq_ok.1 rest
      rw [List.forall_mem_cons]
      exact ⟨⟨first, here⟩, inductionHypothesis there⟩

theorem ReadItem.isVarstr {item part : Bytes} (readItem : ReadItem item)
    (returns : copyVarstr item = .ok part) : IsVarstr item := by
  rw [copyVarstr] at returns
  obtain ⟨size, announced, -⟩ := Exec.bind_eq_ok.1 returns
  have exact := readItem.size size announced
  exact ⟨exact ▸ announced, readItem.small⟩

/-- A witness that was read and can be written has proper items and a count that fits. -/
theorem ReadWitness.wellFormed {raw part : Bytes} {witness : WitnessObject}
    (readWitness : ReadWitness raw witness) (returns : witnessSerialize witness = .ok part) :
    witness.WellFormed := by
  cases stored : witness.items with
  | none =>
      have empty : witness.items.getD [] = [] := by rw [stored, Option.getD_none]
      have zero : witness.numItems = 0 := by
        by_contra counted
        rw [witnessSerialize, if_neg counted, stored] at returns
        cases returns
      exact ⟨by rw [empty, zero]; rfl, by rw [empty]; simp, by rw [empty]; decide⟩
  | some items =>
      have positive : 0 < witness.numItems := by
        by_contra none
        rw [readWitness.no_items (not_lt.1 none)] at stored
        cases stored
      obtain ⟨counted, same, length⟩ := readWitness.some_items positive
      rw [stored] at same
      cases same
      obtain ⟨count, -, announced, -⟩ := readWitness.count
      have written : ∃ data, serializeAll copyVarstr items = .ok data := by
        rw [witnessSerialize, if_neg positive.ne', stored] at returns
        obtain ⟨data, written, -⟩ := Exec.bind_eq_ok.1 returns
        exact ⟨data, written⟩
      obtain ⟨data, written⟩ := written
      have getD : witness.items.getD [] = items := by rw [stored, Option.getD_some]
      refine ⟨by rw [getD, length], ?_, ?_⟩
      · intro item present
        obtain ⟨part, copied⟩ := serializeAll_mem written item (getD ▸ present)
        exact (readWitness.items item present).isVarstr copied
      · rw [announced] at positive
        obtain ⟨small, exact⟩ := ssizeOf_pos positive (varintGet_lt count)
        rw [announced, exact] at length
        rw [getD]
        omega

theorem witnessesSerialize_eq_ok {tx : TxObject} {bytes : Bytes}
    (returns : witnessesSerialize tx = .ok bytes) :
    ∃ witnesses, tx.witnesses = some witnesses ∧ bytes.length = tx.cbWitnesses ∧
      serializeAll witnessSerialize (witnesses.take tx.txins.length) = .ok bytes := by
  unfold witnessesSerialize at returns
  split at returns
  · cases returns
  next witnesses stored =>
    obtain ⟨-, -, afterCheck⟩ := Exec.bind_eq_ok.1 returns
    obtain ⟨entries, bounded, afterEntries⟩ := Exec.bind_eq_ok.1 afterCheck
    obtain ⟨data, written, done⟩ := Exec.bind_eq_ok.1 afterEntries
    split at bounded
    · cases bounded
    cases bounded
    split at done
    · cases done
    split at done
    · cases done
      exact ⟨witnesses, stored, ‹_›, written⟩
    · cases done

theorem forall_of_forall₂ {α β : Type} {related : α → β → Prop} {left : List α} {right : List β}
    (pairs : List.Forall₂ related left right) : ∀ value ∈ right, ∃ partner, related partner value :=
  ((List.forall₂_and_left (R := fun _ _ => True) right left).1
    (pairs.flip.imp fun _ partner both => ⟨⟨partner, both⟩, trivial⟩)).1

/-- The witnesses of a flagged transaction that was read and can be written. -/
theorem ReadTx.witnesses_wellFormed {tx : TxObject} {inCount outCount bytes : Bytes}
    {raws : List Bytes} (readTx : ReadTx tx inCount outCount raws) (hasFlag : tx.hasFlag = true)
    (returns : witnessesSerialize tx = .ok bytes) :
    (∃ witnesses, tx.witnesses = some witnesses ∧ witnesses.length = tx.txins.length ∧
      ∀ witness ∈ witnesses, witness.WellFormed) ∧
    tx.cbWitnesses = tx.witnessBytes.length := by
  obtain ⟨witnesses, stored, length, written⟩ := witnessesSerialize_eq_ok returns
  rcases readTx.witnesses with ⟨none, -⟩ | ⟨-, same, found, count, related⟩
  · rw [none] at stored
    cases stored
  rw [stored] at found
  cases found
  rw [← count, List.take_length] at written
  have proper : ∀ witness ∈ witnesses, witness.WellFormed := by
    intro witness present
    obtain ⟨raw, read⟩ := forall_of_forall₂ related witness present
    obtain ⟨part, here⟩ := serializeAll_mem written witness present
    exact read.wellFormed here
  refine ⟨⟨witnesses, stored, count, proper⟩, ?_⟩
  rw [serializeAll_of fun witness present => witnessSerialize_of (proper witness present)]
    at written
  cases written
  rw [← length, TxObject.witnessBytes, if_pos hasFlag, stored, Option.getD_some]

/-- A transaction that was read and can be written is well formed. -/
theorem ReadTx.wellFormed {tx : TxObject} {inCount outCount bytes : Bytes} {raws : List Bytes}
    (readTx : ReadTx tx inCount outCount raws) (returns : satoshiTxSerialize tx = .ok bytes) :
    tx.WellFormed := by
  unfold satoshiTxSerialize at returns
  obtain ⟨_, -, afterTxins⟩ := Exec.bind_eq_ok.1 returns
  obtain ⟨_, -, afterTxouts⟩ := Exec.bind_eq_ok.1 afterTxins
  have txinScripts := fun txin present => (readTx.txins txin present).scripts
  have txoutScripts := fun txout present => (readTx.txouts txout present).scripts
  by_cases hasFlag : tx.hasFlag = true
  · rw [if_pos hasFlag] at afterTxouts
    obtain ⟨_, written, -⟩ := Exec.bind_eq_ok.1 afterTxouts
    obtain ⟨witnesses, cbWitnesses⟩ := readTx.witnesses_wellFormed hasFlag written
    exact ⟨readTx.txins_nonempty, readTx.txouts_nonempty, txinScripts, txoutScripts, readTx.flag,
      by rwa [if_pos hasFlag], fun _ => cbWitnesses⟩
  · have none : tx.witnesses = none := by
      rcases readTx.witnesses with ⟨none, -⟩ | ⟨flagged, -⟩
      · exact none
      · exact absurd flagged hasFlag
    exact ⟨readTx.txins_nonempty, readTx.txouts_nonempty, txinScripts, txoutScripts, readTx.flag,
      by rwa [if_neg hasFlag], fun flagged => absurd flagged hasFlag⟩

theorem WitnessObject.WellFormed.reparsed {witness : WitnessObject}
    (wellFormed : witness.WellFormed) : witness.reparsed.WellFormed := by
  refine ⟨?_, ?_, ?_⟩
  · rw [WitnessObject.reparsed_items]
    exact wellFormed.numItems
  · rw [WitnessObject.reparsed_items]
    exact wellFormed.items
  · rw [WitnessObject.reparsed_items]
    exact wellFormed.small

theorem TxObject.reparsed_witnessBytes (crypto : CryptoBackend) (tx : TxObject) :
    (tx.reparsed crypto).witnessBytes = tx.witnessBytes := by
  have same : WitnessObject.bytes ∘ WitnessObject.reparsed = WitnessObject.bytes := by
    funext witness
    simp only [Function.comp_apply, WitnessObject.bytes, WitnessObject.reparsed_items]
  unfold TxObject.witnessBytes TxObject.reparsed
  cases tx.witnesses with
  | none => rfl
  | some witnesses =>
      rw [Option.map_some, Option.getD_some, Option.getD_some, List.flatMap_map]
      show (if tx.hasFlag then witnesses.flatMap (WitnessObject.bytes ∘ WitnessObject.reparsed)
        else []) = _
      rw [same]

/-- What is stored for an image is written as the same image. -/
theorem TxObject.reparsed_bytes (crypto : CryptoBackend) (tx : TxObject) :
    (tx.reparsed crypto).bytes = tx.bytes := by
  unfold TxObject.bytes
  rw [TxObject.reparsed_witnessBytes, TxObject.reparsed_bodyBytes]
  rfl

theorem TxObject.WellFormed.reparsed {tx : TxObject} (wellFormed : tx.WellFormed)
    (crypto : CryptoBackend) : (tx.reparsed crypto).WellFormed where
  txins_nonempty empty := wellFormed.txins_nonempty (List.map_eq_nil_iff.1 empty)
  txouts_nonempty empty := wellFormed.txouts_nonempty (List.map_eq_nil_iff.1 empty)
  txinScripts := List.forall_mem_map.2 wellFormed.txinScripts
  txoutScripts := List.forall_mem_map.2 wellFormed.txoutScripts
  flag := rfl
  witnesses := by
    have witnesses := wellFormed.witnesses
    unfold TxObject.reparsed
    by_cases hasFlag : tx.hasFlag = true
    · rw [if_pos hasFlag] at witnesses ⊢
      obtain ⟨witnesses, stored, length, proper⟩ := witnesses
      refine ⟨witnesses.map WitnessObject.reparsed, by rw [stored, Option.map_some], ?_, ?_⟩
      · rw [List.length_map, List.length_map, length]
      · exact List.forall_mem_map.2 fun witness present => (proper witness present).reparsed
    · rw [if_neg hasFlag] at witnesses ⊢
      rw [witnesses, Option.map_none]
  cbWitnesses _ := by
    rw [TxObject.reparsed_witnessBytes]
    rfl

/-- A canonical string of bytes in front of anything is read as an object that is written as
this string. -/
theorem CanonicalTx.serialize {crypto : CryptoBackend} {raw rest : Bytes} {tx : TxObject}
    {size : Nat} (canonical : CanonicalTx raw)
    (returns : satoshiTxParse crypto (raw ++ rest) = .ok (some (tx, size))) :
    size = raw.length ∧ satoshiTxSerialize tx = .ok raw := by
  have fits := (satoshiTxParse_eq_ok.1 returns).1.2
  rw [List.length_append] at fits
  have bound : maxBlockSerializedSize = 4000000 := rfl
  obtain ⟨original, wellFormed, hasScripts, rfl⟩ := canonical.object (by omega)
  rw [wellFormed.satoshiTxParse crypto hasScripts fits] at returns
  cases returns
  refine ⟨rfl, ?_⟩
  rw [(wellFormed.reparsed crypto).serialize, TxObject.reparsed_bytes]

theorem wellFormed_of_serialize {crypto : CryptoBackend} {payload bytes : Bytes} {tx : TxObject}
    {size : Nat} (returns : satoshiTxParse crypto payload = .ok (some (tx, size)))
    (written : satoshiTxSerialize tx = .ok bytes) : tx.WellFormed := by
  obtain ⟨-, rest, parses, -⟩ := satoshiTxParse_eq_ok.1 returns
  obtain ⟨_, _, _, _, _, _, readTx⟩ := txParser_reads crypto _ _ _ parses
  exact readTx.wellFormed written

/-- The bytes that were read are written again exactly when they are canonical. -/
theorem satoshiTxSerialize_iff {crypto : CryptoBackend} {payload : Bytes} {tx : TxObject}
    {size : Nat} (returns : satoshiTxParse crypto payload = .ok (some (tx, size))) :
    satoshiTxSerialize tx = .ok (payload.take size) ↔ CanonicalTx (payload.take size) := by
  constructor
  · intro written
    have wellFormed := wellFormed_of_serialize returns written
    rw [wellFormed.serialize, Exec.ok.injEq] at written
    rw [← written]
    exact wellFormed.canonicalTx (hasScript_of_parse returns)
  · intro canonical
    have parts := List.take_append_drop size payload
    rw [← parts] at returns
    exact (canonical.serialize returns).2

end BitcoinClib.Tx
