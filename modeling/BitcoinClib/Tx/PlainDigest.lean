import BitcoinClib.Lib.Buffer
import BitcoinClib.Lib.Patch
import BitcoinClib.Tx.Layout
import BitcoinClib.Tx.LegacyDigest

/-!
Contract: the digest that edits the transaction in place and serializes it.

Owns:
- `satoshi_tx_get_digest`, with `segwit_v0_tx_get_digest` and `varint_set`, on inputs that hold
  what `scripts_parse` has stored in them;
- the message a legacy digest is defined over, and that every edit is undone;
- when the script of that message belongs to the input that is signed;
- the message is the one that the digests of an attached transaction are defined over.

Does not own: the digests of an attached transaction.
-/

namespace BitcoinClib.Tx

open BitcoinClib.Lib
open BitcoinClib.Types
open BitcoinClib.Crypto

/-! ## Transactions in memory -/

/-- `satoshi_txin_t` with what `scripts_parse` stores in it. Both scripts are whole `varstr_t`
buffers; `redeemScripts` may be NULL. -/
structure TxinEntry extends TxinObject where
  isP2sh : Bool
  redeemScripts : Option Bytes
deriving DecidableEq

/-- `satoshi_tx_t` with such inputs. -/
structure TxEntry where
  version : Int32
  hasFlag : Bool
  flag : UInt8 × UInt8
  txins : List TxinEntry
  txouts : List TxoutObject
  witnesses : Option (List WitnessObject)
  cbWitnesses : Nat
  lockTime : UInt32
  txid : Uint256
  wtxid : Uint256
deriving DecidableEq

/-- The fields the serializer reads. -/
def TxEntry.object (tx : TxEntry) : TxObject where
  version := tx.version
  hasFlag := tx.hasFlag
  flag := tx.flag
  txins := tx.txins.map TxinEntry.toTxinObject
  txouts := tx.txouts
  witnesses := tx.witnesses
  cbWitnesses := tx.cbWitnesses
  lockTime := tx.lockTime
  txid := tx.txid
  wtxid := tx.wtxid

/-- `txin->scripts = scripts` -/
def TxinEntry.setScripts (scripts : Bytes) (txin : TxinEntry) : TxinEntry := { txin with scripts }

/-- `varint_set` on the prefix of a stored string. -/
def varintSet (vint : Bytes) (value : Nat) : Exec Bytes := overwrite vint (varintSetData value)

/-- `varint_set((varint_t *)txin->scripts, length)` -/
def TxinEntry.setLength (length : TxinEntry → Nat) (txin : TxinEntry) : Exec TxinEntry := do
  let scripts ← varintSet txin.scripts (length txin)
  .ok (txin.setScripts scripts)

/-! ## Digests -/

/-- `segwit_v0_generate_preimage` -/
def segwitV0GeneratePreimage (crypto : CryptoBackend) (tx : TxEntry) (curIndex : Nat)
    (hashType : UInt32) (utxo : TxoutObject) : Exec Bytes := do
  let curTxin ← Exec.readAt tx.txins curIndex
  let redeemScripts ← Exec.deref curTxin.redeemScripts
  let scriptCode ← copyVarstr redeemScripts
  let txouts ← serializeAll satoshiTxoutSerialize tx.txouts
  Exec.assert (1 ≤ hashType &&& 0x7f ∧ hashType &&& 0x7f ≤ 3)
  .ok (leBytes 4 tx.version.toUInt32.toNat ++
    (hash256 crypto (tx.txins.flatMap fun txin => txin.outpoint.bytes)).val ++
    (hash256 crypto (tx.txins.flatMap fun txin => leBytes 4 txin.sequence.toNat)).val ++
    curTxin.outpoint.bytes ++ scriptCode ++ leBytes 8 utxo.value.toUInt64.toNat ++
    leBytes 4 curTxin.sequence.toNat ++ (hash256 crypto txouts).val ++
    leBytes 4 tx.lockTime.toNat ++ leBytes 4 hashType.toNat)

/-- `segwit_v0_tx_get_digest` -/
def segwitV0TxGetDigest (crypto : CryptoBackend) (tx : TxEntry) (curIndex : Nat)
    (hashType : UInt32) (utxo : TxoutObject) : Exec Uint256 := do
  let preimage ← segwitV0GeneratePreimage crypto tx curIndex hashType utxo
  .ok (hash256 crypto preimage)

/-- The pointer that replaces the script of the current input. `txins->redeem_scripts` is a field
of the first input. -/
def replacingScripts (txins : List TxinEntry) (curTxin : TxinEntry) (utxo : TxoutObject) :
    Exec (Option Bytes) :=
  if curTxin.isP2sh then do
    let first ← Exec.readAt txins 0
    .ok first.redeemScripts
  else .ok (some utxo.scripts)

/-- `satoshi_tx_get_digest`: the digest and the transaction afterwards. -/
def satoshiTxGetDigest (crypto : CryptoBackend) (tx : TxEntry) (txinIndex : Nat)
    (hashType : UInt32) (utxo : TxoutObject) : Exec (Uint256 × TxEntry) :=
  if tx.hasFlag ∧ tx.flag = (0, 1) then do
    let digest ← segwitV0TxGetDigest crypto tx txinIndex hashType utxo
    .ok (digest, tx)
  else do
    let curTxin ← Exec.readAt tx.txins txinIndex
    let scripts ← replacingScripts tx.txins curTxin utxo
    match scripts with
    | none => .fault .assertion
    | some scripts => do
      let scriptsBackup := curTxin.scripts
      let txins := tx.txins.modify txinIndex (TxinEntry.setScripts scripts)
      let txins ← editOthers txinIndex (TxinEntry.setLength fun _ => 0) 0 txins
      let preimage ← satoshiTxSerialize { tx with txins }.object
      let hash := hash256 crypto (preimage ++ leBytes 4 hashType.toNat)
      let txins := txins.modify txinIndex (TxinEntry.setScripts scriptsBackup)
      let txins ← editOthers txinIndex (TxinEntry.setLength fun txin => txin.cbScripts) 0 txins
      .ok (hash, { tx with txins })

/-! ## The message -/

/-- Every script is emptied except that of one input. -/
def TxEntry.onlyScript (tx : TxEntry) (index : Nat) (script : Bytes) : TxObject :=
  { tx.object with
    txins := tx.txins.mapIdx fun i txin =>
      (txin.setScripts (if i = index then script else varstrEmpty)).toTxinObject }

/-- The transaction on the wire with one script, followed by the hash type. -/
def plainMessage (tx : TxEntry) (index : Nat) (script : Bytes) (hashType : UInt32) : Bytes :=
  (tx.onlyScript index script).bytes ++ leBytes 4 hashType.toNat

/-- A stored string with the prefix that `varint_set_data` writes. -/
def IsCanonical (buffer : Bytes) : Prop :=
  buffer = varstrNew (buffer.drop (varintSize buffer)) ∧ buffer.length < 2 ^ 63

instance (buffer : Bytes) : Decidable (IsCanonical buffer) := inferInstanceAs (Decidable (_ ∧ _))

/-- A legacy transaction with canonical prefixes; `cb_scripts` is set by the parser. -/
structure TxEntry.Canonical (tx : TxEntry) : Prop where
  legacy : tx.hasFlag = false
  scripts : ∀ txin ∈ tx.txins, IsCanonical txin.scripts
  cbScripts : ∀ txin ∈ tx.txins, txin.cbScripts = varintGet txin.scripts
  redeemScripts : ∀ txin ∈ tx.txins, ∀ redeem ∈ txin.redeemScripts, IsCanonical redeem
  txouts : ∀ txout ∈ tx.txouts, IsCanonical txout.scripts

/-- The prefix and the data of a canonical string. -/
theorem IsCanonical.parts {buffer : Bytes} (canonical : IsCanonical buffer) :
    ∃ data, buffer = varintSetData data.length ++ data ∧ varintGet buffer = data.length ∧
      varintSize buffer = (varintSetData data.length).length := by
  obtain ⟨form, small⟩ := canonical
  generalize buffer.drop (varintSize buffer) = data at form
  subst form
  rw [varstrNew, List.length_append] at small
  have width := varintSize_varintSetData data.length
  rw [← varintSetData_length] at width
  have nonempty := varintSetData_ne_nil data.length
  refine ⟨data, rfl, ?_, ?_⟩
  · rw [varstrNew, varintGet_append width nonempty]
    exact varintGet_varintSetData _ (by omega)
  · rw [varstrNew, varintSize_append nonempty, width]

theorem IsCanonical.isVarstr {buffer : Bytes} (canonical : IsCanonical buffer) :
    IsVarstr buffer := by
  obtain ⟨data, form, value, width⟩ := canonical.parts
  have small := canonical.2
  have nonempty := varintSetData_ne_nil data.length
  have length : buffer.length = varintSize buffer + data.length := by
    rw [width, ← List.length_append, ← form]
  refine ⟨?_, small⟩
  unfold readVarstrSize readVarint
  have fits : ¬ (buffer = [] ∨ buffer.length < varintSize buffer) := by
    rintro (empty | short)
    · rw [empty] at form
      exact nonempty (List.append_eq_nil_iff.1 form.symm).1
    · omega
  rw [if_neg fits, Exec.ok_bind, value, ← length, Nat.mod_eq_of_lt (by omega)]

/-! ## Length prefixes in place -/

/-- An input whose script announces no data; the data is still there. -/
def TxinEntry.blanked (txin : TxinEntry) : TxinEntry := txin.setScripts (0 :: txin.scripts.drop 1)

theorem TxinEntry.setLength_zero {txin : TxinEntry} (canonical : IsCanonical txin.scripts) :
    txin.setLength (fun _ => 0) = .ok txin.blanked := by
  have positive := List.length_pos_iff.2 canonical.isVarstr.ne_nil
  have written : overwrite txin.scripts [0] = .ok ([0] ++ txin.scripts.drop 1) :=
    overwrite_of_le positive
  show (overwrite txin.scripts [0] >>= fun scripts => Exec.ok (txin.setScripts scripts)) = _
  rw [written, Exec.ok_bind]
  rfl

/-- Writing the old length over the prefix of a blanked input restores it. -/
theorem TxinEntry.setLength_blanked {txin : TxinEntry} (canonical : IsCanonical txin.scripts)
    (cbScripts : txin.cbScripts = varintGet txin.scripts) :
    txin.blanked.setLength (fun txin => txin.cbScripts) = .ok txin := by
  obtain ⟨data, form, value, -⟩ := canonical.parts
  have wide : [(0 : UInt8)].length ≤ (varintSetData data.length).length :=
    List.length_pos_iff.2 (varintSetData_ne_nil data.length)
  have written := overwrite_undo wide data
  rw [← form] at written
  show (overwrite (0 :: txin.scripts.drop 1) (varintSetData txin.cbScripts) >>= fun scripts =>
    Exec.ok (txin.blanked.setScripts scripts)) = _
  rw [cbScripts, value]
  show (overwrite ([0] ++ txin.scripts.drop [(0 : UInt8)].length) (varintSetData data.length) >>=
    fun scripts => Exec.ok (txin.blanked.setScripts scripts)) = _
  rw [written, Exec.ok_bind]
  rfl

/-- A blanked input is written with an empty script. -/
theorem satoshiTxinSerialize_blanked (txin : TxinEntry) :
    satoshiTxinSerialize txin.blanked.toTxinObject =
      .ok (txin.setScripts varstrEmpty).bytes := by
  have size : readVarstrSize (0 :: txin.scripts.drop 1) = .ok 1 := by
    unfold readVarstrSize readVarint
    rw [if_neg]
    · rfl
    · rintro (empty | short)
      · cases empty
      · exact absurd short (Nat.not_lt.2 (Nat.succ_le_succ (Nat.zero_le _)))
  have copied : copyVarstr (0 :: txin.scripts.drop 1) = .ok [0] := by
    have present : 1 ≤ (0 :: txin.scripts.drop 1).length := Nat.succ_le_succ (Nat.zero_le _)
    rw [copyVarstr, size, Exec.ok_bind, if_pos present]
    rfl
  unfold satoshiTxinSerialize
  show (readVarstrSize (0 :: txin.scripts.drop 1) >>= fun size =>
    Exec.assert (0 < size ∧ size < 2 ^ 63) >>= fun _ =>
    copyVarstr (0 :: txin.scripts.drop 1) >>= fun scripts =>
      Exec.ok (txin.outpoint.bytes ++ scripts ++ leBytes 4 txin.sequence.toNat)) = _
  rw [size, Exec.ok_bind, Exec.assert_of (by decide), Exec.ok_bind, copied, Exec.ok_bind]
  rfl

/-! ## The serialized transaction -/

/-- What the serializers of an array return, entry by entry. -/
theorem serializeAll_of_map {α : Type} {serialize : α → Exec Bytes} {values : List α}
    {images : List Bytes} (returns : values.map serialize = images.map Exec.ok) :
    serializeAll serialize values = .ok images.flatten := by
  induction values generalizing images with
  | nil =>
      cases images with
      | nil => rfl
      | cons image images => cases returns
  | cons value values inductionHypothesis =>
      cases images with
      | nil => cases returns
      | cons image images =>
          obtain ⟨first, others⟩ := List.cons.inj returns
          rw [serializeAll, first, Exec.ok_bind, inductionHypothesis others, Exec.ok_bind]
          rfl

/-- A legacy transaction is written field by field. -/
theorem satoshiTxSerialize_legacy {tx : TxObject} {txins : Bytes} (legacy : tx.hasFlag = false)
    (written : serializeAll satoshiTxinSerialize tx.txins = .ok txins)
    (txouts : ∀ txout ∈ tx.txouts, IsVarstr txout.scripts) :
    satoshiTxSerialize tx = .ok (leBytes 4 tx.version.toUInt32.toNat ++
      varintSetData tx.txins.length ++ txins ++ varintSetData tx.txouts.length ++
      tx.txouts.flatMap TxoutObject.bytes ++ leBytes 4 tx.lockTime.toNat) := by
  have outputs : serializeAll satoshiTxoutSerialize tx.txouts =
      .ok (tx.txouts.flatMap TxoutObject.bytes) :=
    serializeAll_of fun txout present => satoshiTxoutSerialize_of (txouts txout present)
  rw [satoshiTxSerialize, written, Exec.ok_bind, outputs, Exec.ok_bind]
  simp only [legacy, Bool.false_eq_true, ↓reduceIte, Exec.ok_bind, List.append_nil]

/-- The image of a transaction with one script. -/
theorem onlyScript_bytes {tx : TxEntry} (legacy : tx.hasFlag = false) (index : Nat)
    (script : Bytes) :
    (tx.onlyScript index script).bytes = leBytes 4 tx.version.toUInt32.toNat ++
      varintSetData tx.txins.length ++
      (tx.onlyScript index script).txins.flatMap TxinObject.bytes ++
      varintSetData tx.txouts.length ++ tx.txouts.flatMap TxoutObject.bytes ++
      leBytes 4 tx.lockTime.toNat := by
  have marker : markerBytes (tx.onlyScript index script).hasFlag = [] := if_neg (by
    show ¬ tx.hasFlag = true
    rw [legacy]
    decide)
  have witness : (tx.onlyScript index script).witnessBytes = [] := if_neg (by
    show ¬ tx.hasFlag = true
    rw [legacy]
    decide)
  have count : (tx.onlyScript index script).txins.length = tx.txins.length := List.length_mapIdx
  rw [TxObject.bytes, marker, witness, TxObject.bodyBytes, count]
  simp only [List.append_assoc, List.append_nil]
  rfl

/-- The transaction while it is serialized. -/
def TxEntry.blankedOthers (tx : TxEntry) (index : Nat) (script : Bytes) : TxEntry :=
  { tx with
    txins := mapOthers index TxinEntry.blanked 0
      (tx.txins.modify index (TxinEntry.setScripts script)) }

/-- Blanked inputs are written as if their scripts were empty. -/
theorem TxEntry.Canonical.serialize_blankedOthers {tx : TxEntry} (canonical : tx.Canonical)
    (index : Nat) {script : Bytes} (isVarstr : IsVarstr script) :
    satoshiTxSerialize (tx.blankedOthers index script).object =
      .ok (tx.onlyScript index script).bytes := by
  have each : (tx.blankedOthers index script).object.txins.map satoshiTxinSerialize =
      ((tx.onlyScript index script).txins.map TxinObject.bytes).map Exec.ok := by
    apply List.ext_getElem?
    intro i
    simp only [TxEntry.blankedOthers, TxEntry.object, TxEntry.onlyScript, List.getElem?_map,
      getElem?_mapOthers, List.getElem?_mapIdx, List.getElem?_modify]
    cases tx.txins[i]? with
    | none => rfl
    | some txin =>
        by_cases same : i = index
        · simp only [same, ↓reduceIte, Option.map_some, Option.map_eq_map]
          exact congrArg some (satoshiTxinSerialize_of isVarstr)
        · simp only [same, Ne.symm same, ↓reduceIte, Option.map_some, Option.map_eq_map]
          exact congrArg some (satoshiTxinSerialize_blanked txin)
  have count : (tx.blankedOthers index script).object.txins.length = tx.txins.length := by
    simp only [TxEntry.blankedOthers, TxEntry.object, mapOthers, List.length_map,
      List.length_mapIdx, List.length_modify]
  have txouts : ∀ txout ∈ (tx.blankedOthers index script).object.txouts, IsVarstr txout.scripts :=
    fun txout present => (canonical.txouts txout present).isVarstr
  have legacy : (tx.blankedOthers index script).object.hasFlag = false := canonical.legacy
  rw [satoshiTxSerialize_legacy legacy (serializeAll_of_map each) txouts,
    onlyScript_bytes canonical.legacy, count]
  rfl

/-! ## The digest -/

section

variable {crypto : CryptoBackend} {tx : TxEntry} {index : Nat} {curTxin : TxinEntry}
  {hashType : UInt32} {utxo : TxoutObject} {script : Bytes}

/-- The inputs stay canonical with another canonical script in one of them. -/
theorem TxEntry.Canonical.modify_scripts (canonical : tx.Canonical) (index : Nat)
    (other : IsCanonical script) :
    ∀ txin ∈ tx.txins.modify index (TxinEntry.setScripts script), IsCanonical txin.scripts := by
  intro txin present
  obtain ⟨i, found⟩ := List.mem_iff_getElem?.1 present
  rw [List.getElem?_modify] at found
  obtain ⟨original, here, changed⟩ := Option.map_eq_some_iff.1 found
  have old := canonical.scripts original (List.mem_of_getElem? here)
  rw [← changed]
  split
  · exact other
  · exact old

/-- The digest is taken of the message with the replacing script, and every edit is undone. -/
theorem TxEntry.Canonical.getDigest (canonical : tx.Canonical)
    (current : tx.txins[index]? = some curTxin)
    (replaced : replacingScripts tx.txins curTxin utxo = .ok (some script))
    (other : IsCanonical script) :
    satoshiTxGetDigest crypto tx index hashType utxo =
      .ok (hash256 crypto (plainMessage tx index script hashType), tx) := by
  have unflagged : ¬ (tx.hasFlag = true ∧ tx.flag = (0, 1)) := by
    rw [canonical.legacy]
    exact fun both => nomatch both.1
  have blanked : editOthers index (TxinEntry.setLength fun _ => 0) 0
      (tx.txins.modify index (TxinEntry.setScripts script)) =
        .ok (tx.blankedOthers index script).txins :=
    editOthers_of (fun txin present =>
      TxinEntry.setLength_zero (canonical.modify_scripts index other txin present)) 0
  have exchanged : (tx.blankedOthers index script).txins.modify index
      (TxinEntry.setScripts curTxin.scripts) = mapOthers index TxinEntry.blanked 0 tx.txins :=
    mapOthers_modify_undo current rfl
  have undone : editOthers index (TxinEntry.setLength fun txin => txin.cbScripts) 0
      (mapOthers index TxinEntry.blanked 0 tx.txins) = .ok tx.txins :=
    editOthers_undo (fun txin present =>
      TxinEntry.setLength_blanked (canonical.scripts txin present)
        (canonical.cbScripts txin present)) 0
  have serialized := canonical.serialize_blankedOthers index other.isVarstr
  unfold satoshiTxGetDigest
  rw [if_neg unflagged, Exec.readAt_eq_ok.2 current, Exec.ok_bind, replaced, Exec.ok_bind]
  dsimp only
  rw [blanked, Exec.ok_bind, exchanged, undone]
  show (satoshiTxSerialize (tx.blankedOthers index script).object >>= _) = _
  rw [serialized, Exec.ok_bind, Exec.ok_bind]
  rfl

/-- Without a replacing script the call aborts. -/
theorem TxEntry.Canonical.getDigest_none (canonical : tx.Canonical)
    (current : tx.txins[index]? = some curTxin)
    (replaced : replacingScripts tx.txins curTxin utxo = .ok none) :
    satoshiTxGetDigest crypto tx index hashType utxo = .fault .assertion := by
  have unflagged : ¬ (tx.hasFlag = true ∧ tx.flag = (0, 1)) := by
    rw [canonical.legacy]
    exact fun both => nomatch both.1
  unfold satoshiTxGetDigest
  rw [if_neg unflagged, Exec.readAt_eq_ok.2 current, Exec.ok_bind, replaced]
  rfl

/-! ## Messages told apart -/

/-- The script of the message stands between bytes that do not depend on it. -/
theorem plainMessage_parts (legacy : tx.hasFlag = false)
    (current : tx.txins[index]? = some curTxin) (hashType : UInt32) :
    ∃ front back, 32 < front.length ∧
      ∀ script, plainMessage tx index script hashType = front ++ script ++ back := by
  obtain ⟨inside, -⟩ := List.getElem?_eq_some_iff.1 current
  let emptied := tx.txins.map fun txin => (txin.setScripts varstrEmpty).toTxinObject
  have txins : ∀ script, (tx.onlyScript index script).txins =
      emptied.take index ++ (curTxin.setScripts script).toTxinObject ::
        emptied.drop (index + 1) := by
    intro script
    have present : index < emptied.length := by rwa [List.length_map]
    have exchanged : (tx.onlyScript index script).txins =
        emptied.set index (curTxin.setScripts script).toTxinObject := by
      apply List.ext_getElem?
      intro i
      rw [List.getElem?_set, TxEntry.onlyScript, List.getElem?_mapIdx]
      by_cases same : index = i
      · subst same
        rw [if_pos rfl, if_pos present, current, Option.map_some, if_pos rfl]
      · rw [if_neg same, List.getElem?_map]
        simp only [Ne.symm same, ↓reduceIte]
    rw [exchanged, List.set_eq_take_append_cons_drop, if_pos present]
  refine ⟨leBytes 4 tx.version.toUInt32.toNat ++ varintSetData tx.txins.length ++
      (emptied.take index).flatMap TxinObject.bytes ++ curTxin.outpoint.bytes,
    leBytes 4 curTxin.sequence.toNat ++ (emptied.drop (index + 1)).flatMap TxinObject.bytes ++
      varintSetData tx.txouts.length ++ tx.txouts.flatMap TxoutObject.bytes ++
      leBytes 4 tx.lockTime.toNat ++ leBytes 4 hashType.toNat, ?_, ?_⟩
  · rw [List.length_append, outpoint_bytes_length]
    omega
  · intro script
    have current : (curTxin.setScripts script).toTxinObject.bytes =
        curTxin.outpoint.bytes ++ script ++ leBytes 4 curTxin.sequence.toNat := rfl
    rw [plainMessage, onlyScript_bytes legacy, txins, List.flatMap_append, List.flatMap_cons,
      current]
    simp only [List.append_assoc]

/-- A hash function that tells two messages apart; they are longer than a digest. -/
theorem exists_hash256_ne {left right : Bytes} (different : left ≠ right)
    (leftLong : 32 < left.length) (rightLong : 32 < right.length) :
    ∃ crypto, hash256 crypto left ≠ hash256 crypto right := by
  let zero : Uint256 := uint256Zero
  let ones : Uint256 := ⟨List.replicate 32 1, rfl⟩
  have distinct : ones ≠ zero := by decide
  let sha256 : Bytes → Uint256 := fun data => if data = left ∨ data = zero.val then zero else ones
  have leftHash : sha256 (sha256 left).val = zero := by
    have first : sha256 left = zero := if_pos (Or.inl rfl)
    rw [first]
    exact if_pos (Or.inr rfl)
  have rightHash : sha256 (sha256 right).val = ones := by
    have first : sha256 right = ones := by
      apply if_neg
      rintro (same | short)
      · exact different same.symm
      · rw [short, zero.2] at rightLong
        exact absurd rightLong (lt_irrefl _)
    rw [first]
    apply if_neg
    rintro (short | same)
    · rw [← short, ones.2] at leftLong
      exact absurd leftLong (lt_irrefl _)
    · exact distinct (Subtype.ext same)
  refine ⟨{ sampleCrypto with sha256 }, ?_⟩
  show sha256 (sha256 left).val ≠ sha256 (sha256 right).val
  rw [leftHash, rightHash]
  exact distinct.symm

/-! ## Whose script is signed -/

/-- The script of the message: the redeem script of the input under P2SH, else the script of the
spent output. -/
def signedScript (curTxin : TxinEntry) (utxo : TxoutObject) : Option Bytes :=
  if curTxin.isP2sh then curTxin.redeemScripts else some utxo.scripts

/-- For every hash function the call returns the hash of the message with the script of the input,
and leaves the transaction as it was. -/
def PlainDigest (tx : TxEntry) (index : Nat) (utxo : TxoutObject) : Prop :=
  ∃ curTxin script, tx.txins[index]? = some curTxin ∧ signedScript curTxin utxo = some script ∧
    ∀ crypto, satoshiTxGetDigest crypto tx index sighashAll utxo =
      .ok (hash256 crypto (plainMessage tx index script sighashAll), tx)

/-- The input is not P2SH, or its redeem script is also that of the first input. -/
def SharesRedeem (txins : List TxinEntry) (curTxin : TxinEntry) : Prop :=
  curTxin.isP2sh = false ∨ ∃ redeem, curTxin.redeemScripts = some redeem ∧
    txins.head?.bind TxinEntry.redeemScripts = some redeem

theorem replacingScripts_eq (current : tx.txins[index]? = some curTxin) :
    replacingScripts tx.txins curTxin utxo = .ok (if curTxin.isP2sh then
      tx.txins.head?.bind TxinEntry.redeemScripts else some utxo.scripts) := by
  unfold replacingScripts
  split
  · cases txins : tx.txins with
    | nil =>
        rw [txins] at current
        cases current
    | cons first others => rfl
  · rfl

/-- Messages with different scripts are told apart by some hash function. -/
theorem eq_of_hash256_eq {other : Bytes} (legacy : tx.hasFlag = false)
    (current : tx.txins[index]? = some curTxin)
    (same : ∀ crypto, hash256 crypto (plainMessage tx index other hashType) =
      hash256 crypto (plainMessage tx index script hashType)) : other = script := by
  obtain ⟨front, back, long, parts⟩ := plainMessage_parts legacy current hashType
  by_contra different
  have messages : plainMessage tx index other hashType ≠ plainMessage tx index script hashType := by
    rw [parts, parts]
    intro equal
    exact different (List.append_cancel_left (List.append_cancel_right equal))
  have longer : ∀ script, 32 < (plainMessage tx index script hashType).length := by
    intro script
    rw [parts, List.length_append, List.length_append]
    omega
  obtain ⟨crypto, apart⟩ := exists_hash256_ne messages (longer other) (longer script)
  exact apart (same crypto)

/-- The redeem script of the first input is canonical like all others. -/
theorem TxEntry.Canonical.first (canonical : tx.Canonical)
    (first : tx.txins.head?.bind TxinEntry.redeemScripts = some script) : IsCanonical script := by
  obtain ⟨txin, head, redeem⟩ := Option.bind_eq_some_iff.1 first
  exact canonical.redeemScripts txin (List.mem_of_head? head) script redeem

/-- A legacy digest signs the script of its own input, and undoes its edits, exactly for inputs
that are not P2SH or whose redeem script is that of the first input. -/
theorem plainDigest_iff (canonical : tx.Canonical) (current : tx.txins[index]? = some curTxin)
    (spent : IsCanonical utxo.scripts) :
    PlainDigest tx index utxo ↔ SharesRedeem tx.txins curTxin := by
  have replaced : replacingScripts tx.txins curTxin utxo = _ := replacingScripts_eq current
  by_cases p2sh : curTxin.isP2sh = true
  · rw [if_pos p2sh] at replaced
    constructor
    · rintro ⟨same, script, found, signed, returns⟩
      rw [current] at found
      obtain rfl := Option.some.inj found
      rw [signedScript, if_pos p2sh] at signed
      refine Or.inr ⟨script, signed, ?_⟩
      cases first : tx.txins.head?.bind TxinEntry.redeemScripts with
      | none =>
          rw [first] at replaced
          have returned := returns sampleCrypto
          rw [canonical.getDigest_none current replaced] at returned
          cases returned
      | some other =>
          rw [first] at replaced
          congr 1
          apply eq_of_hash256_eq canonical.legacy current
          intro crypto
          have returned := returns crypto
          rw [canonical.getDigest current replaced (canonical.first first)] at returned
          exact congrArg Prod.fst (Exec.ok.inj returned)
    · rintro (other | ⟨redeem, own, first⟩)
      · rw [p2sh] at other
        cases other
      · rw [first] at replaced
        refine ⟨curTxin, redeem, current, (if_pos p2sh).trans own, fun crypto => ?_⟩
        exact canonical.getDigest current replaced (canonical.first first)
  · rw [if_neg p2sh] at replaced
    constructor
    · exact fun _ => Or.inl (Bool.eq_false_iff.2 p2sh)
    · intro _
      refine ⟨curTxin, utxo.scripts, current, if_neg p2sh, fun crypto => ?_⟩
      exact canonical.getDigest current replaced spent

end

/-! ## The message of an attached transaction -/

/-- A legacy transaction in memory, with what `scripts_parse` has stored in each input. -/
def legacyEntry (tx : SatoshiTx) (noted : Nat → TxinState) (txid : Uint256) : TxEntry where
  version := tx.version
  hasFlag := false
  flag := (0, 0)
  txins := tx.txins.mapIdx fun i txin =>
    { outpoint := txin.outpoint
      isCoinbase := txin.outpoint = coinbaseOutpoint
      scripts := txin.scripts.vch
      cbScripts := varintGet txin.scripts.vch
      sequence := txin.sequence
      isP2sh := (noted i).isP2sh
      redeemScripts := (noted i).redeemScripts.map varstrNew }
  txouts := tx.txouts.map fun txout => ⟨txout.value, txout.scripts.vch, txout.flags⟩
  witnesses := none
  cbWitnesses := 0
  lockTime := tx.lockTime
  txid := txid
  wtxid := uint256Zero

/-- Serializing the edited transaction gives the bytes that the running hash is defined over. -/
theorem plainMessage_legacyEntry (tx : SatoshiTx) (noted : Nat → TxinState) (txid : Uint256)
    (index : Nat) (script : Bytes) :
    plainMessage (legacyEntry tx noted txid) index (varstrNew script) sighashAll =
      legacyPreimage tx index script := by
  have txins : ((legacyEntry tx noted txid).onlyScript index (varstrNew script)).txins.flatMap
      TxinObject.bytes = legacyTxinsBytes tx index script := by
    unfold TxEntry.onlyScript legacyEntry legacyTxinsBytes
    dsimp only
    rw [List.mapIdx_mapIdx, List.mapIdx_eq_zipIdx_map, List.flatMap_map]
    rfl
  have txouts : (legacyEntry tx noted txid).txouts.flatMap TxoutObject.bytes =
      tx.txouts.flatMap txoutBytes := by
    unfold legacyEntry
    rw [List.flatMap_map]
    rfl
  have txinCount : (legacyEntry tx noted txid).txins.length = tx.txins.length := List.length_mapIdx
  have txoutCount : (legacyEntry tx noted txid).txouts.length = tx.txouts.length :=
    List.length_map _
  rw [plainMessage, onlyScript_bytes rfl, txins, txouts, txinCount, txoutCount]
  unfold legacyPreimage legacyHeaderBytes legacyTrailerBytes
  simp only [List.append_assoc]
  rfl

/-- A P2SH input with a redeem script of one word. -/
def p2shEntry (index : UInt32) (redeem : UInt8) : TxinEntry where
  outpoint := ⟨uint256Zero, index⟩
  isCoinbase := false
  scripts := varstrNew [0, 1, redeem]
  cbScripts := 3
  sequence := 0xffffffff
  isP2sh := true
  redeemScripts := some (varstrNew [redeem])

/-- Two P2SH inputs with different redeem scripts. -/
def p2shTx : TxEntry where
  version := 1
  hasFlag := false
  flag := (0, 0)
  txins := [p2shEntry 0 0x51, p2shEntry 1 0x52]
  txouts := [⟨1, varstrNew [0x51], txoutTypeLegacy⟩]
  witnesses := none
  cbWitnesses := 0
  lockTime := 0
  txid := uint256Zero
  wtxid := uint256Zero

theorem p2shTx_canonical : p2shTx.Canonical where
  legacy := rfl
  scripts := by decide
  cbScripts := by decide
  redeemScripts := by decide
  txouts := by decide

def p2shUtxo : TxoutObject := ⟨1, varstrNew [0x51], txoutTypeLegacy⟩

theorem plainDigest_iff_p2shTx :
    PlainDigest p2shTx 1 p2shUtxo ↔ SharesRedeem p2shTx.txins (p2shEntry 1 0x52) :=
  plainDigest_iff p2shTx_canonical rfl (by decide)

/-- The second input is signed with the redeem script of the first. -/
theorem secondP2sh_not_plainDigest : ¬ PlainDigest p2shTx 1 p2shUtxo := by
  rintro ⟨curTxin, script, found, signed, returns⟩
  obtain rfl : p2shEntry 1 0x52 = curTxin := Option.some.inj found
  obtain rfl : varstrNew [0x52] = script := Option.some.inj signed
  have used : ∀ crypto, satoshiTxGetDigest crypto p2shTx 1 sighashAll p2shUtxo =
      .ok (hash256 crypto (plainMessage p2shTx 1 (varstrNew [0x51]) sighashAll), p2shTx) :=
    fun crypto => p2shTx_canonical.getDigest rfl rfl (by decide)
  have same : varstrNew [0x51] = varstrNew [0x52] := by
    apply eq_of_hash256_eq p2shTx_canonical.legacy found
    intro crypto
    have both := (used crypto).symm.trans (returns crypto)
    exact congrArg Prod.fst (Exec.ok.inj both)
  exact absurd same (by decide)

end BitcoinClib.Tx
