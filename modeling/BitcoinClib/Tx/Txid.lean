import BitcoinClib.Tx.InPlaceRuns

/-!
Contract: which bytes the hashes of a transaction cover.

Owns:
- the parts of a transaction on the wire, as the readers of `satoshi_tx_parse` consume them
  (`Splits`);
- that the txid is the hash of the parts without the marker and the witnesses, and the wtxid
  the hash of all bytes that were read (`txid_of_parse`).

Does not own: collisions of the hash.
-/

namespace BitcoinClib.Tx.Memory

open BitcoinClib.Lib
open BitcoinClib.Lib.Parser
open BitcoinClib.Types
open BitcoinClib.Crypto

/-- The parts of a transaction on the wire; arrays stand with their counts. -/
structure TxParts where
  version : Bytes
  hasFlag : Bool
  inputs : Bytes
  outputs : Bytes
  witnesses : Bytes
  lockTime : Bytes
deriving DecidableEq

namespace TxParts

def bytes (parts : TxParts) : Bytes :=
  parts.version ++ markerBytes parts.hasFlag ++ parts.inputs ++ parts.outputs ++
    parts.witnesses ++ parts.lockTime

/-- The bytes without the marker and the witness section. -/
def stripped (parts : TxParts) : Bytes :=
  parts.version ++ parts.inputs ++ parts.outputs ++ parts.lockTime

end TxParts

/-- Each reader consumes its part, and `rest` is left. -/
def Splits (payload : Bytes) (parts : TxParts) (rest : Bytes) : Prop :=
  ∃ p q r s t txins txouts witnesses,
    Parses (take 4) payload parts.version p ∧
    Parses parseMarker p parts.hasFlag q ∧
    Parses Tx.parseTxins q txins r ∧ q = parts.inputs ++ r ∧
    Parses Tx.parseTxouts r txouts s ∧ r = parts.outputs ++ s ∧
    Parses (Tx.parseWitnesses parts.hasFlag txins.length) s witnesses t ∧
      s = parts.witnesses ++ t ∧
    Parses (take 4) t parts.lockTime rest

variable {payload rest : Bytes} {parts : TxParts}

/-- A payload has one split. -/
theorem Splits.unique {other : TxParts} {otherRest : Bytes} (first : Splits payload parts rest)
    (second : Splits payload other otherRest) : parts = other := by
  obtain ⟨p, q, r, s, t, txins, txouts, witnesses, version, marker, inputs, inputsEq, outputs,
    outputsEq, entries, witnessesEq, lockTime⟩ := first
  obtain ⟨_, _, _, _, _, _, _, _, version', marker', inputs', inputsEq', outputs', outputsEq',
    entries', witnessesEq', lockTime'⟩ := second
  obtain ⟨sameVersion, rfl⟩ := version.unique version'
  obtain ⟨sameFlag, rfl⟩ := marker.unique marker'
  obtain ⟨rfl, rfl⟩ := inputs.unique inputs'
  obtain ⟨rfl, rfl⟩ := outputs.unique outputs'
  rw [sameFlag] at entries
  obtain ⟨rfl, rfl⟩ := entries.unique entries'
  obtain ⟨sameLockTime, rfl⟩ := lockTime.unique lockTime'
  have sameInputs := List.append_cancel_right (inputsEq.symm.trans inputsEq')
  have sameOutputs := List.append_cancel_right (outputsEq.symm.trans outputsEq')
  have sameWitnesses := List.append_cancel_right (witnessesEq.symm.trans witnessesEq')
  cases parts
  cases other
  dsimp only at *
  subst sameVersion sameFlag sameInputs sameOutputs sameWitnesses sameLockTime
  rfl

theorem Splits.bytes (splits : Splits payload parts rest) : payload = parts.bytes ++ rest := by
  obtain ⟨p, q, r, s, t, txins, txouts, witnesses, version, marker, -, rfl, -, rfl, -, rfl,
    lockTime⟩ := splits
  obtain ⟨-, rfl⟩ := parses_take.1 version
  obtain ⟨-, rfl⟩ := parses_take.1 lockTime
  obtain ⟨rfl, -⟩ := parseMarker_iff.1 marker
  simp only [TxParts.bytes, List.append_assoc]

/-- Nothing is stripped from a transaction without the marker. -/
theorem Splits.stripped (splits : Splits payload parts rest) (unflagged : parts.hasFlag = false) :
    parts.stripped = parts.bytes := by
  obtain ⟨p, q, r, s, t, txins, txouts, witnesses, -, -, -, -, -, -, entries, witnessesEq, -⟩ :=
    splits
  have none : parts.witnesses = [] := by
    rw [unflagged, Tx.parseWitnesses, parses_remaining_bind, if_neg (by simp)] at entries
    obtain ⟨-, rfl⟩ := parses_pure.1 entries
    exact List.self_eq_append_left.1 witnessesEq
  rw [TxParts.stripped, TxParts.bytes, unflagged, none, markerBytes, if_neg Bool.false_ne_true,
    List.append_nil, List.append_nil]

/-- The hashes of an accepted transaction. -/
theorem txParser_splits {crypto : CryptoBackend} {tx : TxObject}
    (parses : Parses (txParser crypto) payload tx rest) :
    ∃ parts, Splits payload parts rest ∧ tx.hasFlag = parts.hasFlag ∧
      tx.txid = hash256 crypto parts.stripped ∧
      (tx.hasFlag = true → tx.wtxid = hash256 crypto (consumed payload rest)) := by
  unfold txParser at parses
  rw [parses_remaining_bind] at parses
  obtain ⟨version, p, readVersion, parses⟩ := parses_bind.1 parses
  obtain ⟨hasFlag, q, marker, parses⟩ := parses_bind.1 parses
  rw [parses_remaining_bind] at parses
  obtain ⟨txins, r, inputs, parses⟩ := parses_bind.1 parses
  rw [parses_remaining_bind] at parses
  obtain ⟨txouts, s, outputs, parses⟩ := parses_bind.1 parses
  rw [parses_remaining_bind] at parses
  obtain ⟨witnesses, t, entries, parses⟩ := parses_bind.1 parses
  rw [parses_remaining_bind] at parses
  obtain ⟨lockTime, last, readLockTime, parses⟩ := parses_bind.1 parses
  rw [parses_remaining_bind, parses_pure] at parses
  obtain ⟨rfl, rfl⟩ := parses
  obtain ⟨inCount, -, -, -, rfl⟩ := parseTxins_iff.1 inputs
  obtain ⟨outCount, -, -, -, rfl⟩ := parseTxouts_iff.1 outputs
  obtain ⟨raw, rfl, -⟩ := parseWitnesses_reads _ _ _ _ _ entries
  refine ⟨⟨version, hasFlag, inCount ++ txins.flatMap TxinObject.bytes,
    outCount ++ txouts.flatMap TxoutObject.bytes, raw, lockTime⟩, ⟨p, _, _, _, _, txins, txouts,
    witnesses, readVersion, marker, inputs, rfl, outputs, rfl, entries, rfl, readLockTime⟩, rfl,
    ?_, fun flagged => if_pos flagged⟩
  dsimp only [TxParts.stripped]
  rw [consumed_append, consumed_append]

/-- The hashes that a call stores, in terms of any split of what it accepted. -/
theorem satoshiTxParse_splits {crypto : CryptoBackend} {ledger : Ledger} {size : Nat}
    {after : Workspace TxRecord}
    (returns : satoshiTxParse crypto ⟨txZero, ledger⟩ payload = .ok (after, some size)) :
    ∃ parts rest, Splits payload parts rest ∧ payload.take size = parts.bytes ∧
      after.object.hasFlag = parts.hasFlag ∧
      after.object.txid = hash256 crypto parts.stripped ∧
      (parts.hasFlag = true → after.object.wtxid = hash256 crypto (payload.take size)) := by
  rcases satoshiTxParse_inversion returns with ⟨_, same, accepts, -⟩ | ⟨rejects, -⟩
  · cases same
    rw [Tx.satoshiTxParse, Exec.bind_eq_ok] at accepts
    obtain ⟨_, -, accepts⟩ := accepts
    rw [Exec.bind_eq_ok] at accepts
    obtain ⟨outcome, runs, accepts⟩ := accepts
    simp only [Exec.ok.injEq, Option.map_eq_some_iff] at accepts
    obtain ⟨⟨tx, rest⟩, rfl, pair⟩ := accepts
    simp only [Prod.mk.injEq] at pair
    obtain ⟨rfl, rfl⟩ := pair
    obtain ⟨parts, splits, sameFlag, txid, wtxid⟩ := txParser_splits runs
    have bytes : payload.take (payload.length - rest.length) = parts.bytes := by
      rw [splits.bytes]
      exact consumed_append parts.bytes rest
    exact ⟨parts, rest, splits, bytes, sameFlag, txid, fun flagged =>
      wtxid (sameFlag.trans flagged)⟩
  · cases rejects

/-- The txid is the hash of the bytes that were read without the marker and the witnesses, the
wtxid of a flagged transaction that of all of them; so the txids of two transactions with equal
versions, inputs, outputs and lock times agree. -/
theorem txid_of_parse (crypto : CryptoBackend) :
    (∀ ledger payload after size,
      satoshiTxParse crypto ⟨txZero, ledger⟩ payload = .ok (after, some size) →
      ∃ parts rest, Splits payload parts rest ∧ payload.take size = parts.bytes ∧
        after.object.hasFlag = parts.hasFlag ∧
        after.object.txid = hash256 crypto parts.stripped ∧
        (parts.hasFlag = false → parts.stripped = payload.take size) ∧
        (parts.hasFlag = true → after.object.wtxid = hash256 crypto (payload.take size))) ∧
    ∀ ledger ledger' payload payload' after after' size size' parts parts' rest rest',
      satoshiTxParse crypto ⟨txZero, ledger⟩ payload = .ok (after, some size) →
      satoshiTxParse crypto ⟨txZero, ledger'⟩ payload' = .ok (after', some size') →
      Splits payload parts rest → Splits payload' parts' rest' →
      parts.version = parts'.version → parts.inputs = parts'.inputs →
      parts.outputs = parts'.outputs → parts.lockTime = parts'.lockTime →
      after.object.txid = after'.object.txid := by
  constructor
  · intro ledger payload after size returns
    obtain ⟨parts, rest, splits, bytes, sameFlag, txid, wtxid⟩ := satoshiTxParse_splits returns
    exact ⟨parts, rest, splits, bytes, sameFlag, txid,
      fun unflagged => (splits.stripped unflagged).trans bytes.symm, wtxid⟩
  · intro ledger ledger' payload payload' after after' size size' parts parts' rest rest' returns
      returns' splits splits' version inputs outputs lockTime
    obtain ⟨found, _, isSplit, -, -, txid, -⟩ := satoshiTxParse_splits returns
    obtain ⟨found', _, isSplit', -, -, txid', -⟩ := satoshiTxParse_splits returns'
    rw [txid, txid', isSplit.unique splits, isSplit'.unique splits', TxParts.stripped,
      TxParts.stripped, version, inputs, outputs, lockTime]

/-- The parts of a transaction with one input and one output. -/
def sampleParts (hasFlag : Bool) (witnesses : Bytes) : TxParts where
  version := [1, 0, 0, 0]
  hasFlag
  inputs := [1] ++ List.replicate 36 7 ++ [0, 0xff, 0xff, 0xff, 0xff]
  outputs := [1] ++ List.replicate 8 9 ++ [1, 0x51]
  witnesses
  lockTime := [0, 0, 0, 0]

def sampleTxins : List TxinObject :=
  [⟨outpointOfBytes (List.replicate 36 7), false, [0], 0, 0xffffffff⟩]

def sampleTxouts : List TxoutObject :=
  [⟨(UInt64.ofNat (leValue (List.replicate 8 9))).toInt64, [1, 0x51], txoutTypeLegacy⟩]

theorem sampleParts_splits :
    Splits (sampleParts true [1, 2, 0xaa, 0xbb]).bytes (sampleParts true [1, 2, 0xaa, 0xbb]) [] ∧
      Splits (sampleParts false []).bytes (sampleParts false []) [] := by
  refine ⟨⟨_, _, _, _, [0, 0, 0, 0], sampleTxins, sampleTxouts, some [⟨1, some [[2, 0xaa, 0xbb]]⟩],
    rfl, rfl, ?_, rfl, ?_, rfl, ?_, rfl, rfl⟩, ⟨_, _, _, _, [0, 0, 0, 0], sampleTxins, sampleTxouts,
    none, rfl, rfl, ?_, rfl, ?_, rfl, ?_, rfl, rfl⟩⟩
  all_goals decide +kernel

/-- A flagged transaction with a witness item and the same transaction without the marker have
one txid. -/
theorem txid_of_parse_sampleParts : ∃ flagged plain,
    satoshiTxParse sampleCrypto ⟨txZero, ⟨0, 0⟩⟩ (sampleParts true [1, 2, 0xaa, 0xbb]).bytes =
      .ok (flagged, some 67) ∧
    satoshiTxParse sampleCrypto ⟨txZero, ⟨0, 0⟩⟩ (sampleParts false []).bytes =
      .ok (plain, some 61) ∧
    flagged.object.txid = plain.object.txid := by
  have accepted : ∀ payload size,
      (satoshiTxParse sampleCrypto ⟨txZero, ⟨0, 0⟩⟩ payload >>= fun pair => .ok pair.2) =
        .ok (some size) →
      ∃ after, satoshiTxParse sampleCrypto ⟨txZero, ⟨0, 0⟩⟩ payload = .ok (after, some size) := by
    intro payload size runs
    obtain ⟨⟨after, outcome⟩, returns, same⟩ := Exec.bind_eq_ok.1 runs
    cases same
    exact ⟨after, returns⟩
  obtain ⟨flagged, first⟩ := accepted (sampleParts true [1, 2, 0xaa, 0xbb]).bytes 67
    (by decide +kernel)
  obtain ⟨plain, second⟩ := accepted (sampleParts false []).bytes 61 (by decide +kernel)
  exact ⟨flagged, plain, first, second, (txid_of_parse sampleCrypto).2 _ _ _ _ _ _ _ _ _ _ _ _
    first second sampleParts_splits.1 sampleParts_splits.2 rfl rfl rfl rfl⟩

end BitcoinClib.Tx.Memory
