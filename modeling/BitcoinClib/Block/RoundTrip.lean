import BitcoinClib.Block.Codec
import BitcoinClib.Tx.RoundTrip

/-!
Contract: `satoshi_block_parse` against `satoshi_block_serialize`.

Owns:
- what an accepted block consists of (`BlockRead`);
- encoding undoes decoding exactly on canonical bytes, for transactions and for blocks.
-/

namespace BitcoinClib.Block

open BitcoinClib.Lib
open BitcoinClib.Lib.Parser
open BitcoinClib.Types
open BitcoinClib.Crypto
open BitcoinClib.Chains
open BitcoinClib.Tx

/-! ## Headers -/

theorem uint256OfBytes_val {bytes : Bytes} (length : bytes.length = 32) :
    (uint256OfBytes bytes).val = bytes := by
  rw [uint256OfBytes, dif_pos length]

/-- A header is stored as it was read. -/
theorem headerBytes_headerOfBytes {bytes : Bytes} (length : bytes.length = 80) :
    headerBytes (headerOfBytes bytes) = bytes := by
  have width (start count : Nat) (inside : start + count ≤ 80) :
      ((bytes.drop start).take count).length = count := by
    rw [List.length_take, List.length_drop]
    omega
  have first : (bytes.take 4).length = 4 := by
    rw [List.length_take]
    omega
  have last : (bytes.drop 76).length = 4 := by
    rw [List.length_drop]
    omega
  have part (start count : Nat) :
      bytes.drop start = (bytes.drop start).take count ++ bytes.drop (start + count) := by
    rw [← List.drop_drop, List.take_append_drop]
  have whole : bytes = bytes.take 4 ++ ((bytes.drop 4).take 32 ++ ((bytes.drop 36).take 32 ++
      ((bytes.drop 68).take 4 ++ ((bytes.drop 72).take 4 ++ bytes.drop 76)))) := by
    rw [← part 72 4, ← part 68 4, ← part 36 32, ← part 4 32, List.take_append_drop]
  conv_rhs => rw [whole]
  unfold headerBytes headerOfBytes
  dsimp only
  rw [leBytes_version first, uint256OfBytes_val (width 4 32 (by decide)),
    uint256OfBytes_val (width 36 32 (by decide)), leBytes_uint32OfBytes (width 68 4 (by decide)),
    leBytes_uint32OfBytes (width 72 4 (by decide)), leBytes_uint32OfBytes last]
  simp only [List.append_assoc]

/-! ## Transactions of a block -/

theorem satoshiTxReader_iff {crypto : CryptoBackend} {p rest : Bytes} {tx : TxObject} :
    Parses (satoshiTxReader crypto) p tx rest ↔
      ∃ size, 0 < size ∧ satoshiTxParse crypto p = .ok (some (tx, size)) ∧ rest = p.drop size := by
  unfold Parses satoshiTxReader
  rw [Exec.bind_eq_ok]
  constructor
  · rintro ⟨outcome, returns, done⟩
    cases outcome with
    | none => cases done
    | some read =>
        obtain ⟨found, size⟩ := read
        dsimp only at done
        split at done
        · cases done
          exact ⟨size, ‹_›, returns, rfl⟩
        · cases done
  · rintro ⟨size, positive, returns, rfl⟩
    exact ⟨_, returns, if_pos positive⟩

theorem element_iff {α : Type} {reader : Parser UInt8 α} {p rest : Bytes} {value : α} :
    Parses (element reader) p value rest ↔ p ≠ [] ∧ Parses reader p value rest := by
  rw [element, parses_remaining_bind, parses_require_bind]

/-- Canonical transactions in front of anything are read as objects that are written as the
same bytes. -/
theorem serializeAll_of_canonical {crypto : CryptoBackend} {chunks : List Bytes}
    {txns : List TxObject} {rest last : Bytes}
    (canonical : ∀ chunk ∈ chunks, CanonicalTx chunk)
    (parses : Parses (many (element (satoshiTxReader crypto)) chunks.length)
      (chunks.flatten ++ rest) txns last) :
    serializeAll satoshiTxSerialize txns = .ok chunks.flatten ∧ last = rest := by
  induction chunks generalizing txns with
  | nil =>
      obtain ⟨rfl, rfl⟩ := parses_pure.1 parses
      exact ⟨rfl, rfl⟩
  | cons head tail inductionHypothesis =>
      rw [List.length_cons, many, parses_bind] at parses
      obtain ⟨tx, middle, first, others⟩ := parses
      obtain ⟨txns, final, next, done⟩ := parses_bind.1 others
      obtain ⟨rfl, rfl⟩ := parses_pure.1 done
      obtain ⟨size, -, returns, rfl⟩ := satoshiTxReader_iff.1 (element_iff.1 first).2
      rw [List.flatten_cons, List.append_assoc] at returns next
      rw [List.forall_mem_cons] at canonical
      obtain ⟨rfl, written⟩ := canonical.1.serialize returns
      rw [List.drop_left] at next
      obtain ⟨others, rest_eq⟩ := inductionHypothesis canonical.2 next
      refine ⟨?_, rest_eq⟩
      rw [serializeAll, written, Exec.ok_bind, others, Exec.ok_bind, List.flatten_cons]

/-- Transactions that were read and can be written are written as canonical strings. -/
theorem canonical_of_serializeAll {crypto : CryptoBackend} {count : Nat} {txns : List TxObject}
    {p rest bytes : Bytes}
    (parses : Parses (many (element (satoshiTxReader crypto)) count) p txns rest)
    (written : serializeAll satoshiTxSerialize txns = .ok bytes) :
    (∀ tx ∈ txns, CanonicalTx tx.bytes) ∧ bytes = txns.flatMap TxObject.bytes := by
  have each : ∀ tx ∈ txns, CanonicalTx tx.bytes ∧ satoshiTxSerialize tx = .ok tx.bytes := by
    intro tx present
    obtain ⟨here, there, read⟩ := many_mem parses tx present
    obtain ⟨size, -, returns, -⟩ := satoshiTxReader_iff.1 (element_iff.1 read).2
    obtain ⟨part, serialized⟩ := serializeAll_mem written tx present
    have wellFormed := wellFormed_of_serialize returns serialized
    exact ⟨wellFormed.canonicalTx (hasScript_of_parse returns), wellFormed.serialize⟩
  refine ⟨fun tx present => (each tx present).1, ?_⟩
  rw [serializeAll_of fun tx present => (each tx present).2] at written
  cases written
  rfl

/-! ## Blocks -/

/-- What an accepted block consists of. -/
theorem satoshiBlockParse_eq_ok {crypto : CryptoBackend} {stale : Uint256} {payload : Bytes}
    {block : BlockObject} {size : Nat}
    (returns : satoshiBlockParse crypto stale payload = .ok (some (block, size))) :
    size ≤ maxBlockSerializedSize ∧ ∃ header body, payload = header ++ body ∧
      header.length = 80 ∧ block.hdr = headerOfBytes header ∧
      (body = [] ∧ block.txns = [] ∧ size = 80 ∨
        ∃ rest, Parses (parseTxns crypto) body block.txns rest ∧
          block.hdr.merkleRoot = merkleTreeRecalc crypto (block.txns.map TxObject.txid) ∧
          size = payload.length - rest.length) := by
  unfold satoshiBlockParse at returns
  obtain ⟨-, -, returns⟩ := Exec.bind_eq_ok.1 returns
  obtain ⟨outcome, parses, returns⟩ := Exec.bind_eq_ok.1 returns
  cases outcome with
  | none => cases returns
  | some read =>
      obtain ⟨found, rest⟩ := read
      obtain ⟨_, fits, done⟩ := Exec.bind_eq_ok.1 returns
      cases done
      refine ⟨Exec.assert_eq_ok.1 fits, ?_⟩
      change Parses (blockParser crypto stale) payload block rest at parses
      unfold blockParser at parses
      rw [parses_remaining_bind, parses_take_bind] at parses
      obtain ⟨header, body, length, rfl, parses⟩ := parses
      rw [parses_require_bind] at parses
      obtain ⟨-, parses⟩ := parses
      refine ⟨header, body, rfl, length, ?_⟩
      split at parses
      next headerOnly =>
        obtain ⟨rfl, rfl⟩ := parses_pure.1 parses
        rw [List.length_append, length] at headerOnly
        have empty : rest = [] := List.eq_nil_of_length_eq_zero (by omega)
        refine ⟨rfl, .inl ⟨empty, rfl, ?_⟩⟩
        rw [List.length_append, Nat.add_sub_cancel, length]
      next full =>
        obtain ⟨txns, last, read, parses⟩ := parses_bind.1 parses
        rw [parses_require_bind, parses_pure] at parses
        obtain ⟨root, rfl, rfl⟩ := parses
        exact ⟨rfl, .inr ⟨rest, read, root, rfl⟩⟩

/-- A header alone, or a header and transactions with a minimal count. -/
def CanonicalBlock (raw : Bytes) : Prop :=
  raw.length = 80 ∨ ∃ (header : Bytes) (txns : List Bytes), header.length = 80 ∧ txns ≠ [] ∧
    (∀ tx ∈ txns, CanonicalTx tx) ∧ raw = header ++ counted txns

theorem satoshiTxReader_reads (crypto : CryptoBackend) :
    Reads (element (satoshiTxReader crypto)) fun raw _ => raw ≠ [] := by
  intro p tx rest parses
  obtain ⟨nonempty, parses⟩ := element_iff.1 parses
  obtain ⟨size, positive, -, rfl⟩ := satoshiTxReader_iff.1 parses
  refine ⟨p.take size, (List.take_append_drop size p).symm, fun empty => ?_⟩
  rcases List.take_eq_nil_iff.1 empty with zero | none
  · omega
  · exact nonempty none

theorem satoshiBlockSerialize_eq_ok {block : BlockObject} {bytes raw : Bytes}
    (written : serializeAll satoshiTxSerialize block.txns = .ok bytes)
    (nonempty : block.txns ≠ []) :
    satoshiBlockSerialize block = .ok raw ↔
      raw.length ≤ maxBlockSerializedSize ∧
        raw = headerBytes block.hdr ++ (varintSetData block.txns.length ++ bytes) := by
  unfold satoshiBlockSerialize
  rw [written, Exec.ok_bind, if_pos (List.length_pos_iff.2 nonempty)]
  dsimp only
  rw [Exec.bind_eq_ok]
  simp only [Exec.assert_eq_ok, exists_const, Exec.ok.injEq]
  constructor
  · rintro ⟨fits, rfl⟩
    exact ⟨fits, rfl⟩
  · rintro ⟨fits, rfl⟩
    exact ⟨fits, rfl⟩

/-- A block that was read is written as the same bytes exactly when they are canonical. -/
theorem satoshiBlockSerialize_iff {crypto : CryptoBackend} {stale : Uint256} {payload : Bytes}
    {block : BlockObject} {size : Nat}
    (returns : satoshiBlockParse crypto stale payload = .ok (some (block, size))) :
    satoshiBlockSerialize block = .ok (payload.take size) ↔
      CanonicalBlock (payload.take size) := by
  obtain ⟨fits, header, body, rfl, headerLength, hdr, layout⟩ := satoshiBlockParse_eq_ok returns
  have header_eq : headerBytes block.hdr = header := by
    rw [hdr, headerBytes_headerOfBytes headerLength]
  rcases layout with ⟨rfl, txns, rfl⟩ | ⟨rest, parses, -, rfl⟩
  · have whole : (header ++ []).take 80 = header := by
      rw [List.append_nil, ← headerLength, List.take_length]
    have written : satoshiBlockSerialize block = .ok header := by
      unfold satoshiBlockSerialize
      rw [txns, header_eq]
      simp only [serializeAll, Exec.ok_bind, List.length_nil, lt_irrefl, if_false,
        List.append_nil, headerLength]
      rfl
    rw [whole]
    exact iff_of_true written (.inl headerLength)
  obtain ⟨count, middle, announces, nonempty, rfl, read⟩ := counted_parses.1 parses
  obtain ⟨raws, rfl, -⟩ := many_reads (satoshiTxReader_reads crypto) read
  have parts : header ++ (count ++ (raws.flatten ++ rest)) =
      header ++ (count ++ raws.flatten) ++ rest := by
    simp only [List.append_assoc]
  have consumed : (header ++ (count ++ (raws.flatten ++ rest))).take
      ((header ++ (count ++ (raws.flatten ++ rest))).length - rest.length) =
        header ++ (count ++ raws.flatten) := by
    rw [parts, List.length_append, Nat.add_sub_cancel, List.take_left]
  have fits : (header ++ (count ++ raws.flatten)).length ≤ maxBlockSerializedSize := by
    rwa [parts, List.length_append, Nat.add_sub_cancel] at fits
  rw [consumed]
  constructor
  · intro serialized
    obtain ⟨bytes, written⟩ : ∃ bytes, serializeAll satoshiTxSerialize block.txns = .ok bytes := by
      obtain ⟨bytes, written, -⟩ := Exec.bind_eq_ok.1 serialized
      exact ⟨bytes, written⟩
    obtain ⟨canonical, rfl⟩ := canonical_of_serializeAll read written
    refine .inr ⟨header, block.txns.map TxObject.bytes, headerLength,
      fun empty => nonempty (List.map_eq_nil_iff.1 empty), List.forall_mem_map.2 canonical, ?_⟩
    rw [counted_map, ((satoshiBlockSerialize_eq_ok written nonempty).1 serialized).2, header_eq]
  · rintro (short | ⟨other, chunks, otherLength, -, canonical, same⟩)
    · -- the count of a full block takes at least one byte
      have positive := List.length_pos_iff.2 announces.1.1
      simp only [List.length_append] at short
      omega
    · obtain ⟨rfl, body⟩ := List.append_inj same (headerLength.trans otherLength.symm)
      have entries : chunks.length ≤ (chunks.flatMap id).length :=
        length_le_flatMap fun chunk present => (canonical chunk present).ne_nil
      rw [List.flatMap_id] at entries
      obtain ⟨rfl, flat⟩ := varint_prefix announces.1 (isVarint_varintSetData _) body
      have bound : maxBlockSerializedSize = 4000000 := rfl
      have length : block.txns.length = chunks.length := by
        rw [← announces.2.1]
        apply varintGet_varintSetData _
        simp only [List.length_append, flat] at fits
        omega
      rw [flat, length] at read
      obtain ⟨written, -⟩ := serializeAll_of_canonical canonical read
      rw [satoshiBlockSerialize_eq_ok written nonempty, header_eq, length, flat]
      rw [flat] at fits
      exact ⟨fits, rfl⟩

/-- Encoding undoes decoding, for transactions and for blocks, exactly on canonical bytes. -/
theorem serialize_parsed_iff (crypto : CryptoBackend) :
    (∀ payload tx size, satoshiTxParse crypto payload = .ok (some (tx, size)) →
      (satoshiTxSerialize tx = .ok (payload.take size) ↔ CanonicalTx (payload.take size))) ∧
    ∀ stale payload block size,
      satoshiBlockParse crypto stale payload = .ok (some (block, size)) →
      (satoshiBlockSerialize block = .ok (payload.take size) ↔
        CanonicalBlock (payload.take size)) :=
  ⟨fun _ _ _ returns => satoshiTxSerialize_iff returns,
    fun _ _ _ _ returns => satoshiBlockSerialize_iff returns⟩

/-- A transaction with one input and one output behind the given count of inputs. -/
def countedTxBytes (marker inCount : Bytes) : Bytes :=
  leBytes 4 1 ++ marker ++ inCount ++ (coinbaseOutpoint.bytes ++ [1, 0x51] ++ leBytes 4 0) ++
    [1] ++ (leBytes 8 50 ++ [1, 0x51]) ++ leBytes 4 0

/-- A transaction with a minimal count, and a header without transactions. -/
theorem serialize_parsed_iff_samples :
    (∃ tx, satoshiTxSerialize tx = .ok ((countedTxBytes [] [1]).take 62) ↔
        CanonicalTx ((countedTxBytes [] [1]).take 62)) ∧
      ∃ block, satoshiBlockSerialize block = .ok ((List.replicate 80 0).take 80) ↔
        CanonicalBlock ((List.replicate 80 0).take 80) :=
  ⟨⟨_, (serialize_parsed_iff sampleCrypto).1 (countedTxBytes [] [1]) _ 62 rfl⟩,
    ⟨_, (serialize_parsed_iff sampleCrypto).2 uint256Zero (List.replicate 80 0) _ 80 rfl⟩⟩

/-- A count in three bytes is accepted and written in one; a marker without witnesses is
accepted and cannot be written. -/
theorem serialize_parsed_differs :
    (∃ tx, satoshiTxParse sampleCrypto (countedTxBytes [] [0xfd, 1, 0]) =
        .ok (some (tx, (countedTxBytes [] [0xfd, 1, 0]).length)) ∧
      satoshiTxSerialize tx = .ok (countedTxBytes [] [1])) ∧
    ∃ tx, satoshiTxParse sampleCrypto (countedTxBytes [0, 1] [1]) =
        .ok (some (tx, (countedTxBytes [0, 1] [1]).length)) ∧
      satoshiTxSerialize tx = .fault .assertion :=
  ⟨⟨_, rfl, by decide +kernel⟩, ⟨_, rfl, by decide +kernel⟩⟩

end BitcoinClib.Block
