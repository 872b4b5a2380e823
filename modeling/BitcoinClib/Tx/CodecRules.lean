import BitcoinClib.Tx.Codec

/-!
Contract: what each reader of the wire format consumes and returns.

Owns:
- images of fixed-width fields under reading and writing;
- for every reader a rule for a canonical encoding in front of anything
  (`Accepts`), and one that describes whatever it accepts (`Reads`).

Does not own: the round trips of whole transactions.
-/

namespace BitcoinClib.Tx

open BitcoinClib.Lib
open BitcoinClib.Lib.Parser
open BitcoinClib.Types
open BitcoinClib.Crypto

/-! ## Fixed-width fields -/

theorem leBytes_ofBytes {width : Nat} {bytes : Bytes} (length : bytes.length = width) :
    leBytes width (leValue bytes) = bytes := by
  rw [← length, leBytes_leValue]

theorem uint32OfBytes_toNat {bytes : Bytes} (length : bytes.length = 4) :
    (uint32OfBytes bytes).toNat = leValue bytes := by
  have small := leValue_lt bytes
  rw [length] at small
  exact UInt32.toNat_ofNat_of_lt' small

theorem leBytes_uint32OfBytes {bytes : Bytes} (length : bytes.length = 4) :
    leBytes 4 (uint32OfBytes bytes).toNat = bytes := by
  rw [uint32OfBytes_toNat length, leBytes_ofBytes length]

theorem uint32OfBytes_leBytes (value : UInt32) : uint32OfBytes (leBytes 4 value.toNat) = value := by
  unfold uint32OfBytes
  rw [leValue_leBytes 4 _ value.toNat_lt]
  exact UInt32.ofNat_toNat

theorem leBytes_version {bytes : Bytes} (length : bytes.length = 4) :
    leBytes 4 (uint32OfBytes bytes).toInt32.toUInt32.toNat = bytes := by
  rw [UInt32.toUInt32_toInt32, leBytes_uint32OfBytes length]

theorem version_leBytes (version : Int32) :
    (uint32OfBytes (leBytes 4 version.toUInt32.toNat)).toInt32 = version := by
  rw [uint32OfBytes_leBytes, Int32.toInt32_toUInt32]

theorem leBytes_txoutValue {bytes : Bytes} (length : bytes.length = 8) :
    leBytes 8 (UInt64.ofNat (leValue bytes)).toInt64.toUInt64.toNat = bytes := by
  have small := leValue_lt bytes
  rw [length] at small
  rw [UInt64.toUInt64_toInt64, UInt64.toNat_ofNat_of_lt' small, leBytes_ofBytes length]

theorem txoutValue_leBytes (value : Int64) :
    (UInt64.ofNat (leValue (leBytes 8 value.toUInt64.toNat))).toInt64 = value := by
  rw [leValue_leBytes 8 _ value.toUInt64.toNat_lt, UInt64.ofNat_toNat, Int64.toInt64_toUInt64]

theorem outpoint_bytes_length (outpoint : SatoshiOutpoint) : outpoint.bytes.length = 36 := by
  rw [SatoshiOutpoint.bytes, List.length_append, outpoint.prevHash.2, leBytes_length]

theorem outpointOfBytes_bytes (outpoint : SatoshiOutpoint) :
    outpointOfBytes outpoint.bytes = outpoint := by
  have width := outpoint.prevHash.2
  have hash : outpoint.bytes.take 32 = outpoint.prevHash.val := List.take_left' width
  have index : outpoint.bytes.drop 32 = leBytes 4 outpoint.index.toNat := List.drop_left' width
  unfold outpointOfBytes uint256OfBytes
  rw [hash, index, dif_pos width, uint32OfBytes_leBytes]

theorem bytes_outpointOfBytes {bytes : Bytes} (length : bytes.length = 36) :
    (outpointOfBytes bytes).bytes = bytes := by
  have hash : (bytes.take 32).length = 32 := by
    rw [List.length_take]
    omega
  have index : (bytes.drop 32).length = 4 := by
    rw [List.length_drop]
    omega
  unfold outpointOfBytes uint256OfBytes SatoshiOutpoint.bytes
  rw [dif_pos hash, leBytes_uint32OfBytes index, List.take_append_drop]

/-! ## Length prefixes -/

theorem varintSize_append {vint : Bytes} (nonempty : vint ≠ []) (rest : Bytes) :
    varintSize (vint ++ rest) = varintSize vint := by
  cases vint with
  | nil => exact absurd rfl nonempty
  | cons tag data => rfl

/-- The value depends on the announced bytes only. -/
theorem varintGet_append {vint : Bytes} (width : varintSize vint = vint.length)
    (nonempty : vint ≠ []) (rest : Bytes) : varintGet (vint ++ rest) = varintGet vint := by
  cases vint with
  | nil => exact absurd rfl nonempty
  | cons tag data =>
      simp only [varintSize, List.length_cons] at width
      simp only [List.cons_append, varintGet]
      split
      · rfl
      next wide =>
        rw [if_neg wide] at width
        split
        next two =>
          rw [if_pos two] at width
          rw [List.take_append_of_le_length (by omega)]
        next notTwo =>
          rw [if_neg notTwo] at width
          split
          next four =>
            rw [if_pos four] at width
            rw [List.take_append_of_le_length (by omega)]
          next notFour =>
            rw [if_neg notFour] at width
            rw [List.take_append_of_le_length (by omega)]

/-- A prefix that fits its buffer can be read, whatever follows it. -/
theorem readVarint_append {vint : Bytes} (width : varintSize vint = vint.length)
    (nonempty : vint ≠ []) (rest : Bytes) :
    readVarint (vint ++ rest) = .ok (varintGet vint) := by
  unfold readVarint
  rw [if_neg, varintGet_append width nonempty]
  rw [varintSize_append nonempty, width, List.length_append]
  simp [nonempty]

/-- Reading a prefix shows that it fits. -/
theorem readVarint_eq_ok {p : Bytes} {value : Nat} (reads : readVarint p = .ok value) :
    ∃ vint rest, p = vint ++ rest ∧ vint ≠ [] ∧ varintSize vint = vint.length ∧
      varintGet vint = value := by
  unfold readVarint at reads
  split at reads
  · cases reads
  next fits =>
    cases reads
    simp only [not_or, Nat.not_lt] at fits
    obtain ⟨nonempty, enough⟩ := fits
    have length : (p.take (varintSize p)).length = varintSize p := by
      rw [List.length_take]
      omega
    have taken : p.take (varintSize p) ≠ [] := by
      apply List.ne_nil_of_length_pos
      rw [length]
      exact varintSize_pos nonempty
    have parts := List.take_append_drop (varintSize p) p
    have size : varintSize (p.take (varintSize p)) = varintSize p := by
      conv_rhs => rw [← parts]
      rw [varintSize_append taken]
    refine ⟨p.take (varintSize p), p.drop (varintSize p), parts.symm, taken,
      size.trans length.symm, ?_⟩
    conv_rhs => rw [← parts]
    rw [varintGet_append (size.trans length.symm) taken]

/-- What is accepted as a count. -/
def IsVarint (raw : Bytes) : Prop := raw ≠ [] ∧ varintSize raw = raw.length

theorem parseVarint_iff {p rest : Bytes} {value : Int} :
    Parses parseVarint p value rest ↔
      ∃ raw, IsVarint raw ∧ p = raw ++ rest ∧ value = ssizeOf (varintGet raw) := by
  unfold parseVarint
  simp only [parses_remaining_bind, parses_require_bind, parses_take_bind, parses_pure]
  constructor
  · rintro ⟨nonempty, raw, middle, length, parts, valueEq, restEq⟩
    subst restEq
    have taken : raw ≠ [] := by
      apply List.ne_nil_of_length_pos
      rw [length]
      exact varintSize_pos nonempty
    refine ⟨raw, ⟨taken, ?_⟩, parts, valueEq⟩
    rw [length, parts, varintSize_append taken]
  · rintro ⟨raw, ⟨nonempty, width⟩, parts, valueEq⟩
    refine ⟨?_, raw, rest, ?_, parts, valueEq, rfl⟩
    · rw [parts]
      exact fun empty => nonempty (List.append_eq_nil_iff.1 empty).1
    · rw [parts, varintSize_append nonempty, width]

theorem isVarint_varintSetData (value : Nat) : IsVarint (varintSetData value) :=
  ⟨varintSetData_ne_nil value, by rw [varintSize_varintSetData, varintSetData_length]⟩

theorem varint_prefix {left right : Bytes} (leftVarint : IsVarint left)
    (rightVarint : IsVarint right) {leftRest rightRest : Bytes}
    (same : left ++ leftRest = right ++ rightRest) : left = right ∧ leftRest = rightRest := by
  apply List.append_inj same
  rw [← leftVarint.2, ← varintSize_append leftVarint.1 leftRest, same,
    varintSize_append rightVarint.1, rightVarint.2]

/-- A count that is positive as a signed number is its own value. -/
theorem ssizeOf_pos {value : Nat} (positive : 0 < ssizeOf value) (small : value < 2 ^ 64) :
    value < 2 ^ 63 ∧ ssizeOf value = value := by
  unfold ssizeOf at positive ⊢
  split at positive
  next fits => exact ⟨fits, if_pos fits⟩
  · omega

theorem ssizeOf_of_lt {value : Nat} (small : value < 2 ^ 63) : ssizeOf value = value :=
  if_pos small

/-- A stored string whose prefix announces its own size. -/
def IsVarstr (buffer : Bytes) : Prop :=
  readVarstrSize buffer = .ok buffer.length ∧ buffer.length < 2 ^ 63

instance (buffer : Bytes) : Decidable (IsVarstr buffer) := inferInstanceAs (Decidable (_ ∧ _))

theorem IsVarstr.ne_nil {buffer : Bytes} (isVarstr : IsVarstr buffer) : buffer ≠ [] := by
  rintro rfl
  exact absurd isVarstr.1 (by decide)

/-- The size of a stored string does not depend on what follows it. -/
theorem readVarstrSize_append {buffer : Bytes} {size : Nat}
    (returns : readVarstrSize buffer = .ok size) (rest : Bytes) :
    readVarstrSize (buffer ++ rest) = .ok size := by
  unfold readVarstrSize at returns ⊢
  obtain ⟨length, read, total⟩ := Exec.bind_eq_ok.1 returns
  obtain ⟨vint, data, parts, nonempty, width, value⟩ := readVarint_eq_ok read
  rw [parts, List.append_assoc, readVarint_append width nonempty, Exec.ok_bind, value,
    varintSize_append nonempty]
  rw [parts, varintSize_append nonempty] at total
  exact total

theorem parseVarstr_of {buffer : Bytes} (isVarstr : IsVarstr buffer) (rest : Bytes) :
    Parses parseVarstr (buffer ++ rest) buffer rest := by
  unfold parseVarstr
  simp only [parses_remaining_bind, parses_require_bind, parses_lift_bind]
  have nonempty := isVarstr.ne_nil
  refine ⟨?_, buffer.length, readVarstrSize_append isVarstr.1 rest, (), if_pos isVarstr.2, ?_, (), ?_, ?_⟩
  · exact fun empty => nonempty (List.append_eq_nil_iff.1 empty).1
  · rw [List.length_append]
    omega
  · exact Exec.assert_of (List.length_pos_iff.2 nonempty)
  · exact parses_take.2 ⟨rfl, rfl⟩

/-- An item is copied as it stands. Its prefix need not fit: the sum of the two sizes wraps
around. -/
structure ReadItem (item : Bytes) : Prop where
  nonempty : item ≠ []
  small : item.length < 2 ^ 63
  size : ∀ size, readVarstrSize item = .ok size → size = item.length

theorem parseVarstr_reads : Reads parseVarstr fun raw item => ReadItem item ∧ raw = item := by
  intro p item rest parses
  unfold parseVarstr at parses
  simp only [parses_remaining_bind, parses_require_bind, parses_lift_bind, parses_take,
    Exec.assert_eq_ok] at parses
  obtain ⟨-, size, announced, done, bounded, -, checked, positive, length, parts⟩ := parses
  have small : size < 2 ^ 63 := by
    by_contra large
    rw [if_neg large] at bounded
    cases bounded
  refine ⟨item, parts, ⟨List.ne_nil_of_length_pos (by omega), by omega, fun own returns => ?_⟩,
    rfl⟩
  have extended := readVarstrSize_append returns rest
  rw [← parts, announced] at extended
  cases extended
  exact length.symm

theorem parseScripts_of {buffer : Bytes} (isVarstr : IsVarstr buffer) (rest : Bytes) :
    Parses parseScripts (buffer ++ rest) buffer rest := by
  unfold parseScripts
  simp only [parses_remaining_bind, parses_require_bind, parses_lift_bind, parses_take_bind,
    parses_pure]
  refine ⟨buffer.length, readVarstrSize_append isVarstr.1 rest, (), Exec.assert_of isVarstr.2, ?_, (),
    Exec.assert_of (List.length_pos_iff.2 isVarstr.ne_nil), buffer, rest, rfl, rfl,
    buffer.length, isVarstr.1, (), Exec.assert_of rfl, rfl, rfl⟩
  rw [List.length_append]
  omega

theorem parseScripts_reads :
    Reads parseScripts fun raw scripts => raw = scripts ∧ IsVarstr scripts := by
  intro p scripts rest parses
  unfold parseScripts at parses
  simp only [parses_remaining_bind, parses_require_bind, parses_lift_bind, parses_take_bind,
    parses_pure, Exec.assert_eq_ok] at parses
  obtain ⟨size, -, first, small, -, second, -, bytes, middle, length, parts, cloned, copied,
    third, same, scriptsEq, restEq⟩ := parses
  subst scriptsEq restEq same
  exact ⟨scripts, parts, rfl, length ▸ copied, length ▸ small⟩

theorem parseScripts_codes : Codes parseScripts id IsVarstr := by
  intro p scripts rest
  constructor
  · intro parses
    obtain ⟨raw, parts, rfl, isVarstr⟩ := parseScripts_reads p scripts rest parses
    exact ⟨isVarstr, parts⟩
  · rintro ⟨isVarstr, rfl⟩
    exact parseScripts_of isVarstr rest

/-! ## Inputs and outputs -/

/-- An input on the wire. -/
def TxinObject.bytes (txin : TxinObject) : Bytes :=
  txin.outpoint.bytes ++ txin.scripts ++ leBytes 4 txin.sequence.toNat

/-- The fields that are not on the wire follow from the others. -/
structure TxinObject.Parsed (txin : TxinObject) : Prop where
  scripts : IsVarstr txin.scripts
  isCoinbase : txin.isCoinbase = decide (txin.outpoint = coinbaseOutpoint)
  cbScripts : txin.cbScripts = varintGet txin.scripts

theorem satoshiTxinParse_codes : Codes satoshiTxinParse TxinObject.bytes TxinObject.Parsed := by
  intro p txin rest
  unfold satoshiTxinParse
  simp only [parses_take_bind, parseScripts_codes.bind, parses_pure]
  constructor
  · rintro ⟨outpoint, afterOutpoint, outpointLength, rfl, scripts, afterScripts,
      isVarstr, rfl, sequence, middle, sequenceLength, rfl, rfl, rfl⟩
    refine ⟨⟨isVarstr, rfl, rfl⟩, ?_⟩
    rw [TxinObject.bytes, bytes_outpointOfBytes outpointLength, leBytes_uint32OfBytes sequenceLength]
    simp only [id_eq, List.append_assoc]
  · rintro ⟨⟨isVarstr, isCoinbase, cbScripts⟩, rfl⟩
    refine ⟨txin.outpoint.bytes, txin.scripts ++ leBytes 4 txin.sequence.toNat ++ rest,
      outpoint_bytes_length _, ?_, txin.scripts, leBytes 4 txin.sequence.toNat ++ rest,
      isVarstr, ?_, leBytes 4 txin.sequence.toNat, rest, leBytes_length _ _, rfl, ?_, rfl⟩
    · simp only [TxinObject.bytes, List.append_assoc]
    · simp only [id_eq, List.append_assoc]
    · rw [outpointOfBytes_bytes, uint32OfBytes_leBytes, ← isCoinbase, ← cbScripts]

/-- The script of an output holds at least one byte. -/
def HasScript (scripts : Bytes) : Prop := varintSize scripts < scripts.length

instance (scripts : Bytes) : Decidable (HasScript scripts) :=
  inferInstanceAs (Decidable (_ < _))

theorem firstScriptByte_eq_ok {scripts : Bytes} :
    (∃ byte, firstScriptByte scripts = .ok byte) ↔ HasScript scripts := by
  unfold firstScriptByte HasScript
  rw [← Nat.sub_pos_iff_lt, ← List.length_drop]
  cases scripts.drop (varintSize scripts) with
  | nil => simp
  | cons byte others => simp

/-- An output on the wire. -/
def TxoutObject.bytes (txout : TxoutObject) : Bytes :=
  leBytes 8 txout.value.toUInt64.toNat ++ txout.scripts

/-- The type of an output is read off its first script byte. -/
structure TxoutObject.Parsed (txout : TxoutObject) : Prop where
  scripts : IsVarstr txout.scripts
  flags : ∃ byte, firstScriptByte txout.scripts = .ok byte ∧
    txout.flags = if byte ≤ 16 then txoutTypeSegwit else txoutTypeLegacy

theorem satoshiTxoutParse_codes : Codes satoshiTxoutParse TxoutObject.bytes TxoutObject.Parsed := by
  intro p txout rest
  unfold satoshiTxoutParse
  simp only [parses_take_bind, parses_remaining_bind, parses_require_bind, parses_lift_bind,
    parseScripts_codes.bind, parses_pure]
  constructor
  · rintro ⟨value, afterValue, valueLength, rfl, -, scripts, afterScripts, isVarstr, rfl,
      byte, first, rfl, rfl⟩
    refine ⟨⟨isVarstr, byte, first, rfl⟩, ?_⟩
    rw [TxoutObject.bytes, leBytes_txoutValue valueLength]
    simp only [id_eq, List.append_assoc]
  · rintro ⟨⟨isVarstr, byte, first, flags⟩, rfl⟩
    refine ⟨leBytes 8 txout.value.toUInt64.toNat, txout.scripts ++ rest, leBytes_length _ _, ?_,
      ?_, txout.scripts, rest, isVarstr, rfl, byte, first, ?_, rfl⟩
    · simp only [TxoutObject.bytes, List.append_assoc]
    · exact fun empty => isVarstr.ne_nil (List.append_eq_nil_iff.1 empty).1
    · rw [txoutValue_leBytes, ← flags]

/-! ## Counted arrays -/

/-- `count` announces this many entries. -/
def Announces (count : Bytes) (entries : Nat) : Prop :=
  IsVarint count ∧ varintGet count = entries ∧ entries < 2 ^ 63

theorem announces_varintSetData {entries : Nat} (small : entries < 2 ^ 63) :
    Announces (varintSetData entries) entries :=
  ⟨isVarint_varintSetData entries, varintGet_varintSetData entries (by omega), small⟩

theorem codes_element {α : Type} {reader : Parser UInt8 α} {encode : α → Bytes}
    {Valid : α → Prop} (codes : Codes reader encode Valid)
    (nonempty : ∀ value, Valid value → encode value ≠ []) :
    Codes (Tx.element reader) encode Valid := by
  intro p value rest
  unfold Tx.element
  rw [parses_remaining_bind, parses_require_bind, codes p value rest]
  apply and_iff_right_of_imp
  rintro ⟨valid, rfl⟩ empty
  exact nonempty value valid (List.append_eq_nil_iff.1 empty).1

/-- A count that must be positive and its array. -/
theorem counted_parses {α : Type} {reader : Parser UInt8 α} {p rest : Bytes} {values : List α} :
    Parses (do
        let count ← parseVarint
        require (0 < count)
        many reader count.toNat) p values rest ↔
      ∃ count middle, Announces count values.length ∧ values ≠ [] ∧ p = count ++ middle ∧
        Parses (many reader values.length) middle values rest := by
  simp only [parses_bind, parseVarint_iff, parses_require]
  constructor
  · rintro ⟨value, middle, ⟨count, isVarint, rfl, rfl⟩, done, last, ⟨positive, rfl⟩, parses⟩
    obtain ⟨small, exact⟩ := ssizeOf_pos positive (varintGet_lt count)
    rw [exact, Int.toNat_natCast] at parses
    have length := many_length parses
    refine ⟨count, last, ⟨isVarint, length.symm, length ▸ small⟩, ?_, rfl, length ▸ parses⟩
    rintro rfl
    rw [exact, ← length] at positive
    exact absurd positive (lt_irrefl _)
  · rintro ⟨count, middle, ⟨isVarint, value, small⟩, nonempty, rfl, parses⟩
    have exact : ssizeOf (varintGet count) = values.length := by
      rw [value, ssizeOf_of_lt small]
    refine ⟨ssizeOf (varintGet count), middle, ⟨count, isVarint, rfl, rfl⟩, (), middle,
      ⟨?_, rfl⟩, ?_⟩
    · rw [exact]
      exact_mod_cast List.length_pos_iff.2 nonempty
    · rw [exact, Int.toNat_natCast]
      exact parses

theorem counted_iff {α : Type} {reader : Parser UInt8 α} {encode : α → Bytes}
    {Valid : α → Prop} (codes : Codes reader encode Valid) {p rest : Bytes} {values : List α} :
    Parses (do
        let count ← parseVarint
        require (0 < count)
        many reader count.toNat) p values rest ↔
      ∃ count, Announces count values.length ∧ values ≠ [] ∧
        (∀ value ∈ values, Valid value) ∧ p = count ++ values.flatMap encode ++ rest := by
  rw [counted_parses]
  constructor
  · rintro ⟨count, middle, announces, nonempty, rfl, parses⟩
    obtain ⟨-, valid, rfl⟩ := codes.many.1 parses
    exact ⟨count, announces, nonempty, valid, (List.append_assoc _ _ _).symm⟩
  · rintro ⟨count, announces, nonempty, valid, rfl⟩
    exact ⟨count, values.flatMap encode ++ rest, announces, nonempty, List.append_assoc _ _ _,
      codes.many.2 ⟨rfl, valid, rfl⟩⟩

theorem TxinObject.bytes_ne_nil (txin : TxinObject) : txin.bytes ≠ [] := by
  apply List.ne_nil_of_length_pos
  rw [TxinObject.bytes, List.length_append, List.length_append, outpoint_bytes_length]
  omega

theorem TxoutObject.bytes_ne_nil (txout : TxoutObject) : txout.bytes ≠ [] := by
  apply List.ne_nil_of_length_pos
  rw [TxoutObject.bytes, List.length_append, leBytes_length]
  omega

theorem parseTxins_iff {p rest : Bytes} {txins : List TxinObject} :
    Parses parseTxins p txins rest ↔
      ∃ count, Announces count txins.length ∧ txins ≠ [] ∧
        (∀ txin ∈ txins, txin.Parsed) ∧ p = count ++ txins.flatMap TxinObject.bytes ++ rest := by
  unfold parseTxins
  rw [parses_remaining_bind, parses_require_bind,
    counted_iff (codes_element satoshiTxinParse_codes fun txin _ => txin.bytes_ne_nil)]
  apply and_iff_right_of_imp
  rintro ⟨count, ⟨⟨nonempty, -⟩, -⟩, -, -, rfl⟩
  simp [nonempty]

theorem parseTxouts_iff {p rest : Bytes} {txouts : List TxoutObject} :
    Parses parseTxouts p txouts rest ↔
      ∃ count, Announces count txouts.length ∧ txouts ≠ [] ∧
        (∀ txout ∈ txouts, txout.Parsed) ∧
          p = count ++ txouts.flatMap TxoutObject.bytes ++ rest := by
  unfold parseTxouts
  exact counted_iff (codes_element satoshiTxoutParse_codes fun txout _ => txout.bytes_ne_nil)

/-! ## Witnesses -/

/-- What `parseWitness` returns for the bytes it consumes. -/
structure ReadWitness (raw : Bytes) (witness : WitnessObject) : Prop where
  count : ∃ count, IsVarint count ∧ witness.numItems = ssizeOf (varintGet count) ∧
    raw = count ++ (witness.items.getD []).flatten
  items : ∀ item ∈ witness.items.getD [], ReadItem item
  some_items : 0 < witness.numItems →
    ∃ items, witness.items = some items ∧ (items.length : Int) = witness.numItems
  no_items : witness.numItems ≤ 0 → witness.items = none

theorem parseWitness_reads : Reads parseWitness ReadWitness := by
  intro p witness rest parses
  unfold parseWitness at parses
  obtain ⟨numItems, middle, first, second⟩ := parses_bind.1 parses
  obtain ⟨count, isVarint, rfl, rfl⟩ := parseVarint_iff.1 first
  split at second
  next positive =>
    obtain ⟨items, last, read, done⟩ := parses_bind.1 second
    obtain ⟨rfl, rfl⟩ := parses_pure.1 done
    have length := many_length read
    obtain ⟨raws, rfl, related⟩ := many_reads parseVarstr_reads read
    obtain ⟨proper, same⟩ := (List.forall₂_and_left _ _).1 related.flip
    have copied : items = raws := by
      rw [← List.forall₂_eq_eq_eq]
      exact same.imp fun _ _ equal => equal.symm
    subst copied
    refine ⟨count ++ items.flatten, by rw [List.append_assoc], ⟨count, isVarint, rfl, rfl⟩,
      proper, fun _ => ⟨items, rfl, ?_⟩, fun negative => absurd positive (not_lt.2 negative)⟩
    rw [length, Int.toNat_of_nonneg positive.le]
  next negative =>
    obtain ⟨rfl, rfl⟩ := parses_pure.1 second
    refine ⟨count, rfl, ⟨count, isVarint, rfl, ?_⟩, ?_, fun positive => absurd positive negative,
      fun _ => rfl⟩
    · simp
    · simp

end BitcoinClib.Tx
