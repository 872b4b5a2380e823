import BitcoinClib.Net.Handlers
import Mathlib.Data.List.Forall2

/-!
Contract: outgoing messages, `bitcoin_message_serialize` and its callers.

Owns:
- `bitcoin_message_t` before it is sent, with the encoding that the first call leaves in it;
- `bitcoin_message_new`, `bitcoin_message_attach`, `bitcoin_message_serialize` and the part
  of `spv_node_send_message` behind it;
- sequences of calls on one message (`bitcoinMessageSerialize_stable_iff`).

The serialisers of the payloads are a parameter; they are pure, and `none` stands for a
negative size.
-/

namespace BitcoinClib.Net

open BitcoinClib.Lib
open BitcoinClib.Types
open BitcoinClib.Crypto

/-- `bitcoin_message_t` on its way out. -/
structure OutMessage (Object : Type) where
  msgData : Option Bytes
  msgType : BitcoinMessageType
  /-- the 24 bytes of `hdr[1]` -/
  hdr : Bytes
  msgObject : Option Object

/-- The serialisers of the payloads, by type. -/
abbrev PayloadSerializers (Object : Type) := BitcoinMessageType → Object → Option Bytes

/-- The argument `p_data`, and what is behind it after the call. -/
inductive PData where
  | null
  /-- a pointer that is NULL -/
  | toNull
  | buffer (cells : Bytes)
deriving DecidableEq, Repr

/-- `bitcoin_message_type_to_string` for the types that can be sent. -/
def bitcoinMessageTypeToString (type : BitcoinMessageType) : Option String :=
  (szMessageTypes.find? fun entry => entry.1 = type).map Prod.snd

/-- `strncpy(hdr->command, sz_type, 12)` -/
def setCommand (hdr : Bytes) (szType : String) : Bytes :=
  hdr.take 4 ++ (szType.toUTF8.toList ++ List.replicate 12 0).take 12 ++ hdr.drop 16

/-- `message_object_serialize` -/
def messageObjectSerialize {Object : Type} (serializers : PayloadSerializers Object)
    (type : BitcoinMessageType) (msgObject : Object) : Option Bytes :=
  match type with
  | .version | .addr | .inv | .getdata | .notfound | .getblocks | .getheaders | .tx | .block
  | .headers => serializers type msgObject
  | _ => some []

/-- What the first call writes to `msg->msg_data`. -/
def encodedMessage (crypto : CryptoBackend) (hdr payload : Bytes) : Bytes :=
  let checksum := if 0 < payload.length then (hash256 crypto payload).val.take 4
    else emptyPayloadChecksum
  hdr.take 16 ++ leBytes 4 payload.length ++ checksum ++ payload

/-- The end of `bitcoin_message_serialize`: `total_size` bytes of the cache are copied. -/
def copyMessage (msgData : Bytes) (totalSize : Nat) : PData → Exec PData
  | .null => .ok .null
  | .toNull =>
      if totalSize ≤ msgData.length then .ok (.buffer (msgData.take totalSize))
      else .fault .bounds
  | .buffer cells =>
      if totalSize ≤ msgData.length ∧ totalSize ≤ cells.length then
        .ok (.buffer (msgData.take totalSize ++ cells.drop totalSize))
      else .fault .bounds

variable {Object : Type} (crypto : CryptoBackend) (serializers : PayloadSerializers Object)

/-- The part of `bitcoin_message_serialize` behind its checks: the cache and the size of the
payload, which stays 0 when there is a cache already. -/
def cachedMessage (msg : OutMessage Object) (msgObject : Object) : Option (Bytes × Nat) :=
  match msg.msgData with
  | some msgData => some (msgData, 0)
  | none =>
      (messageObjectSerialize serializers msg.msgType msgObject).map fun payload =>
        (encodedMessage crypto msg.hdr payload, payload.length)

/-- `bitcoin_message_serialize` -/
def bitcoinMessageSerialize (msg : OutMessage Object) (pData : PData) :
    Exec (Int × PData × OutMessage Object) :=
  match msg.msgObject, bitcoinMessageTypeToString msg.msgType with
  | some msgObject, some szType => do
      let hdr := if msg.hdr[4]? = some 0 then setCommand msg.hdr szType else msg.hdr
      -- `strcmp(hdr->command, sz_type)` may run into the fields behind the command
      Exec.assert ((hdr.drop 4).takeWhile (· ≠ 0) = szType.toUTF8.toList)
      let msg := { msg with hdr }
      match cachedMessage crypto serializers msg msgObject with
      | none => .ok (-1, pData, msg)
      | some (msgData, cbPayload) => do
          let totalSize := messageHeaderSize + cbPayload
          let pData ← copyMessage msgData totalSize pData
          .ok (totalSize, pData, { msg with msgData := some msgData })
  | _, _ => .ok (-1, pData, msg)

/-- Consecutive calls on one message. -/
def serializeCalls : OutMessage Object → List PData →
    Exec (List (Int × PData) × OutMessage Object)
  | msg, [] => .ok ([], msg)
  | msg, pData :: calls => do
      let (size, pData, msg) ← bitcoinMessageSerialize crypto serializers msg pData
      let (results, msg) ← serializeCalls msg calls
      .ok ((size, pData) :: results, msg)

/-- `bitcoin_message_new`; the object is that the caller fills in. -/
def bitcoinMessageNew (magic : UInt32) (type : BitcoinMessageType) (msgObject : Object) :
    OutMessage Object where
  msgData := none
  msgType := type
  hdr := match bitcoinMessageTypeToString type with
    | some szType => setCommand (leBytes 4 magic.toNat ++ List.replicate 20 0) szType
    | none => List.replicate 24 0
  msgObject := some msgObject

/-- `bitcoin_message_attach` up to its own call of `bitcoin_message_serialize`. -/
def attachObject (magic : UInt32) (type : BitcoinMessageType) (msgObject : Object) :
    OutMessage Object where
  msgData := none
  msgType := type
  hdr := leBytes 4 magic.toNat ++ List.replicate 20 0
  msgObject := some msgObject

/-- `bitcoin_message_attach`: its code and the message. -/
def bitcoinMessageAttach (magic : UInt32) (type : BitcoinMessageType) (msgObject : Object) :
    Exec (Int × OutMessage Object) := do
  let (cbPayload, _, msg) ←
    bitcoinMessageSerialize crypto serializers (attachObject magic type msgObject) .null
  .ok (if cbPayload ≤ 0 then -1 else 0, msg)

/-- `spv_node_send_message`: its code, the bytes pushed to the output buffer and the
message. -/
def sendMessage (msg : OutMessage Object) : Exec (Int × Bytes × OutMessage Object) := do
  let (cbPayload, _, msg) ← bitcoinMessageSerialize crypto serializers msg .null
  if cbPayload ≤ 0 then .ok (-1, [], msg)
  else .ok (0, (msg.msgData.getD []).take cbPayload.toNat, msg)

/-! ## Stable calls -/

/-- A message that can be sent and was not encoded before. -/
structure Sendable (msg : OutMessage Object) (magic : UInt32) (szType : String)
    (msgObject : Object) (payload : Bytes) : Prop where
  fresh : msg.msgData = none
  type : bitcoinMessageTypeToString msg.msgType = some szType
  object : msg.msgObject = some msgObject
  payload : messageObjectSerialize serializers msg.msgType msgObject = some payload
  /-- the command of the header is still empty, or it is that of the type -/
  hdr : msg.hdr = leBytes 4 magic.toNat ++ List.replicate 20 0 ∨
    msg.hdr = setCommand (leBytes 4 magic.toNat ++ List.replicate 20 0) szType

/-- The bytes are the header of the payload and the payload, and `bitcoin_message_parse`
accepts them. -/
structure Framed (Object : Type) (crypto : CryptoBackend) (type : BitcoinMessageType) (magic : UInt32) (szType : String)
    (payload bytes : Bytes) : Prop where
  magic : hdrMagic bytes = magic.toNat
  command : hdrCommand bytes = (szType.toUTF8.toList ++ List.replicate 12 0).take 12
  length : hdrLength bytes = payload.length
  checksum : hdrChecksum bytes = (hash256 crypto payload).val.take 4
  payload : bytes.drop messageHeaderSize = payload
  accepted : ∀ parsers : PayloadParsers Object, ∃ message,
    bitcoinMessageParse crypto parsers bytes = some message ∧ message.msgData = bytes ∧
      message.msgType = type

/-- What a call leaves behind `p_data`. -/
def PData.filled (bytes : Bytes) : PData → PData
  | .null => .null
  | .toNull => .buffer bytes
  | .buffer cells => .buffer (bytes ++ cells.drop bytes.length)

/-- Every call returns the size of the message and fills its buffer with the same bytes. -/
def Stable (msg : OutMessage Object) (magic : UInt32) (szType : String) (payload : Bytes)
    (calls : List PData) : Prop :=
  ∃ results after bytes,
    serializeCalls crypto serializers msg calls = .ok (results, after) ∧
      List.Forall₂ (fun pData result =>
        Framed Object crypto msg.msgType magic szType payload bytes ∧
          result = (((messageHeaderSize + payload.length : Nat) : Int), pData.filled bytes))
        calls results

/-! ## The header -/

/-- The name of a type in the 12 bytes of `command`. -/
def paddedCommand (szType : String) : Bytes :=
  (szType.toUTF8.toList ++ List.replicate 12 0).take 12

/-- The header before the length and the checksum of a payload are known. -/
def readyHdr (magic : UInt32) (szType : String) : Bytes :=
  setCommand (leBytes 4 magic.toNat ++ List.replicate 20 0) szType

/-- The names of the table fit the command, do not hold a NUL and are recognised again. -/
theorem szMessageTypes_names : ∀ entry ∈ szMessageTypes,
    (paddedCommand entry.2 ++ List.replicate 8 0).takeWhile (· ≠ 0) =
        entry.2.toUTF8.toList ∧
      (paddedCommand entry.2)[0]? ≠ some 0 ∧
      bitcoinMessageTypeFromString (paddedCommand entry.2) = entry.1 ∧ entry.1 ≠ .unknown := by
  decide +kernel

theorem mem_szMessageTypes {type : BitcoinMessageType} {szType : String}
    (named : bitcoinMessageTypeToString type = some szType) : (type, szType) ∈ szMessageTypes := by
  unfold bitcoinMessageTypeToString at named
  obtain ⟨entry, found, same⟩ := Option.map_eq_some_iff.1 named
  have type_eq := List.find?_some found
  have member := List.mem_of_find?_eq_some found
  rw [decide_eq_true_eq] at type_eq
  rwa [← type_eq, ← same]

@[simp] theorem paddedCommand_length (szType : String) : (paddedCommand szType).length = 12 := by
  rw [paddedCommand, List.length_take, List.length_append, List.length_replicate]
  omega

theorem readyHdr_eq (magic : UInt32) (szType : String) :
    readyHdr magic szType =
      leBytes 4 magic.toNat ++ (paddedCommand szType ++ List.replicate 8 0) := by
  rw [readyHdr, setCommand, List.take_left' (leBytes_length _ _), List.append_assoc]
  congr 2

variable {crypto serializers}

/-- A header is completed by the first call and kept by the later ones. -/
theorem readyHdr_command {type : BitcoinMessageType} {szType : String}
    (named : bitcoinMessageTypeToString type = some szType) (magic : UInt32) :
    (readyHdr magic szType)[4]? ≠ some 0 ∧
      ((readyHdr magic szType).drop 4).takeWhile (· ≠ 0) = szType.toUTF8.toList := by
  obtain ⟨string, filled, -, -⟩ := szMessageTypes_names _ (mem_szMessageTypes named)
  rw [readyHdr_eq]
  constructor
  · have inside : 0 < (paddedCommand szType).length := by
      rw [paddedCommand_length]
      omega
    rw [List.getElem?_append_right (by rw [leBytes_length]), leBytes_length,
      List.getElem?_append_left inside]
    exact filled
  · rw [List.drop_left' (leBytes_length _ _)]
    exact string

/-! ## The encoding -/

theorem encodedMessage_readyHdr (crypto : CryptoBackend) (magic : UInt32) (szType : String)
    (payload : Bytes) (emptyChecksum : (hash256 crypto []).val.take 4 = emptyPayloadChecksum) :
    encodedMessage crypto (readyHdr magic szType) payload =
      leBytes 4 magic.toNat ++ (paddedCommand szType ++ (leBytes 4 payload.length ++
        ((hash256 crypto payload).val.take 4 ++ payload))) := by
  have fields : (readyHdr magic szType).take 16 =
      leBytes 4 magic.toNat ++ paddedCommand szType := by
    rw [readyHdr_eq, ← List.append_assoc]
    apply List.take_left'
    rw [List.length_append, leBytes_length, paddedCommand_length]
  have checksum : (if 0 < payload.length then (hash256 crypto payload).val.take 4
      else emptyPayloadChecksum) = (hash256 crypto payload).val.take 4 := by
    split
    · rfl
    · have empty : payload = [] := List.length_eq_zero_iff.1 (by omega)
      rw [empty, emptyChecksum]
  rw [encodedMessage, fields]
  simp only [checksum, List.append_assoc]

theorem hash256_take_length (crypto : CryptoBackend) (payload : Bytes) :
    ((hash256 crypto payload).val.take 4).length = 4 := by
  rw [List.length_take, (hash256 crypto payload).property]
  rfl

theorem encodedMessage_length (magic : UInt32) (szType : String) (payload : Bytes)
    (emptyChecksum : (hash256 crypto []).val.take 4 = emptyPayloadChecksum) :
    (encodedMessage crypto (readyHdr magic szType) payload).length =
      messageHeaderSize + payload.length := by
  rw [encodedMessage_readyHdr crypto magic szType payload emptyChecksum]
  simp only [List.length_append, leBytes_length, paddedCommand_length, hash256_take_length,
    messageHeaderSize]
  omega

/-- The encoding of a payload whose size fits the header is a message that is accepted. -/
theorem encodedMessage_framed (Object : Type) {type : BitcoinMessageType} (magic : UInt32)
    {szType : String} {payload : Bytes} (emptyChecksum : (hash256 crypto []).val.take 4 = emptyPayloadChecksum)
    (named : bitcoinMessageTypeToString type = some szType) (fits : payload.length < 2 ^ 32) :
    Framed Object crypto type magic szType payload
      (encodedMessage crypto (readyHdr magic szType) payload) := by
  have size := encodedMessage_length magic szType payload emptyChecksum
  obtain ⟨-, -, recognised, known⟩ := szMessageTypes_names _ (mem_szMessageTypes named)
  have bytes := encodedMessage_readyHdr crypto magic szType payload emptyChecksum
  have hash := hash256_take_length crypto payload
  generalize encodedMessage crypto (readyHdr magic szType) payload = message at *
  have atCommand : message.drop 4 = paddedCommand szType ++ (leBytes 4 payload.length ++
      ((hash256 crypto payload).val.take 4 ++ payload)) := by
    rw [bytes, List.drop_left' (leBytes_length _ _)]
  have atLength : message.drop 16 = leBytes 4 payload.length ++
      ((hash256 crypto payload).val.take 4 ++ payload) := by
    rw [show (16 : Nat) = 4 + 12 from rfl, ← List.drop_drop, atCommand,
      List.drop_left' (paddedCommand_length _)]
  have atChecksum : message.drop 20 = (hash256 crypto payload).val.take 4 ++ payload := by
    rw [show (20 : Nat) = 16 + 4 from rfl, ← List.drop_drop, atLength,
      List.drop_left' (leBytes_length _ _)]
  have atPayload : message.drop messageHeaderSize = payload := by
    rw [show messageHeaderSize = 20 + 4 from rfl, ← List.drop_drop, atChecksum,
      List.drop_left' hash]
  have isMagic : hdrMagic message = magic.toNat := by
    rw [hdrMagic, bytes, List.take_left' (leBytes_length _ _)]
    exact leValue_leBytes 4 _ magic.toNat_lt
  have isCommand : hdrCommand message = paddedCommand szType := by
    rw [hdrCommand, atCommand, List.take_left' (paddedCommand_length _)]
  have isLength : hdrLength message = payload.length := by
    rw [hdrLength, atLength, List.take_left' (leBytes_length _ _)]
    exact leValue_leBytes 4 _ fits
  have isChecksum : hdrChecksum message = (hash256 crypto payload).val.take 4 := by
    rw [hdrChecksum, atChecksum, List.take_left' hash]
  refine ⟨isMagic, isCommand, isLength, isChecksum, atPayload, fun parsers => ?_⟩
  have known' : type ≠ .unknown := known
  have taken : payload.take payload.length = payload := List.take_length
  have whole : message.take (messageHeaderSize + payload.length) = message :=
    List.take_of_length_le (by rw [size])
  simp only [bitcoinMessageParse, isLength, isCommand, recognised, isChecksum, atPayload, taken,
    whole, if_neg known', ne_eq, not_true, if_false]
  exact ⟨_, rfl, rfl, rfl⟩

/-- The header holds a size below 2^32. -/
theorem Framed.fits {type : BitcoinMessageType} {magic : UInt32} {szType : String}
    {payload bytes : Bytes} (framed : Framed Object crypto type magic szType payload
      bytes) : payload.length < 2 ^ 32 := by
  rw [← framed.length, hdrLength]
  have four : ((bytes.drop 16).take 4).length ≤ 4 := List.length_take_le _ _
  calc leValue ((bytes.drop 16).take 4)
      < 256 ^ ((bytes.drop 16).take 4).length := leValue_lt _
    _ ≤ 256 ^ 4 := Nat.pow_le_pow_right (by decide) four
    _ = 2 ^ 32 := by decide

/-! ## Calls -/

/-- The first call encodes the message. -/
theorem bitcoinMessageSerialize_first {msg : OutMessage Object} {magic : UInt32}
    {szType : String} {msgObject : Object} {payload : Bytes}
    (sendable : Sendable serializers msg magic szType msgObject payload) (pData : PData) :
    bitcoinMessageSerialize crypto serializers msg pData = (do
      let msgData := encodedMessage crypto (readyHdr magic szType) payload
      let pData ← copyMessage msgData (messageHeaderSize + payload.length) pData
      .ok (((messageHeaderSize + payload.length : Nat) : Int), pData,
        { msg with hdr := readyHdr magic szType, msgData := some msgData })) := by
  obtain ⟨filled, string⟩ := readyHdr_command sendable.type magic
  have ready : (if msg.hdr[4]? = some 0 then setCommand msg.hdr szType else msg.hdr) =
      readyHdr magic szType := by
    rcases sendable.hdr with empty | set
    · have noCommand : msg.hdr[4]? = some 0 := by
        rw [empty, List.getElem?_append_right (by rw [leBytes_length]), leBytes_length]
        rfl
      rw [if_pos noCommand, empty, readyHdr]
    · rw [← readyHdr] at set
      rw [set, if_neg filled]
  simp only [bitcoinMessageSerialize, sendable.object, sendable.type, ready, string,
    Exec.assert_of, Exec.ok_bind, cachedMessage, sendable.fresh, sendable.payload,
    Option.map_some]

/-- A later call copies the header of the cache. -/
theorem bitcoinMessageSerialize_later {msg : OutMessage Object} {magic : UInt32}
    {szType : String} {msgObject : Object} {msgData : Bytes}
    (type : bitcoinMessageTypeToString msg.msgType = some szType)
    (object : msg.msgObject = some msgObject) (hdr : msg.hdr = readyHdr magic szType)
    (cached : msg.msgData = some msgData) (pData : PData) :
    bitcoinMessageSerialize crypto serializers msg pData = (do
      let pData ← copyMessage msgData messageHeaderSize pData
      .ok ((messageHeaderSize : Int), pData, msg)) := by
  obtain ⟨filled, string⟩ := readyHdr_command type magic
  have same : { msg with hdr := readyHdr magic szType, msgData := some msgData } = msg := by
    rw [← hdr, ← cached]
  simp only [bitcoinMessageSerialize, object, type, hdr, if_neg filled, string,
    Exec.assert_of, Exec.ok_bind, cachedMessage, cached, Nat.add_zero]
  rw [← object, same]

/-- A copy into a buffer with room for it. -/
theorem copyMessage_eq {msgData : Bytes} {totalSize : Nat} (held : totalSize ≤ msgData.length)
    {pData : PData} (room : ∀ cells, pData = .buffer cells → totalSize ≤ cells.length) :
    copyMessage msgData totalSize pData = .ok (pData.filled (msgData.take totalSize)) := by
  cases pData with
  | null => rfl
  | toNull => exact if_pos held
  | buffer cells =>
      rw [copyMessage, if_pos ⟨held, room cells rfl⟩, PData.filled, List.length_take,
        Nat.min_eq_left held]

/-- After the first call every call returns the size of the header alone. -/
theorem serializeCalls_later {msg : OutMessage Object} {magic : UInt32} {szType : String}
    {msgObject : Object} {msgData : Bytes}
    (type : bitcoinMessageTypeToString msg.msgType = some szType)
    (object : msg.msgObject = some msgObject) (hdr : msg.hdr = readyHdr magic szType)
    (cached : msg.msgData = some msgData) (held : messageHeaderSize ≤ msgData.length) :
    ∀ calls : List PData,
      (∀ cells, .buffer cells ∈ calls → messageHeaderSize ≤ cells.length) →
      serializeCalls crypto serializers msg calls =
        .ok (calls.map fun pData => ((messageHeaderSize : Int),
          pData.filled (msgData.take messageHeaderSize)), msg)
  | [], _ => rfl
  | pData :: calls, room => by
      have roomHere : ∀ cells, pData = .buffer cells → messageHeaderSize ≤ cells.length := by
        intro cells same
        exact room cells (same ▸ List.mem_cons_self)
      have roomThere : ∀ cells, .buffer cells ∈ calls → messageHeaderSize ≤ cells.length :=
        fun cells member => room cells (List.mem_cons_of_mem _ member)
      rw [serializeCalls, bitcoinMessageSerialize_later type object hdr cached,
        copyMessage_eq held roomHere]
      simp only [Exec.ok_bind, serializeCalls_later type object hdr cached held calls roomThere,
        List.map_cons]

/-- The results of consecutive calls on a message that was not encoded before. -/
theorem serializeCalls_cons {msg : OutMessage Object} {magic : UInt32} {szType : String}
    {msgObject : Object} {payload : Bytes}
    (emptyChecksum : (hash256 crypto []).val.take 4 = emptyPayloadChecksum)
    (sendable : Sendable serializers msg magic szType msgObject payload)
    {pData : PData} {calls : List PData}
    (room : ∀ cells, .buffer cells ∈ pData :: calls →
      messageHeaderSize + payload.length ≤ cells.length) :
    ∃ after, serializeCalls crypto serializers msg (pData :: calls) =
      .ok ((((messageHeaderSize + payload.length : Nat) : Int),
          pData.filled (encodedMessage crypto (readyHdr magic szType) payload)) ::
        calls.map fun pData => ((messageHeaderSize : Int), pData.filled
          ((encodedMessage crypto (readyHdr magic szType) payload).take messageHeaderSize)),
        after) := by
  have size := encodedMessage_length magic szType payload emptyChecksum
  have roomHere : ∀ cells, pData = .buffer cells →
      messageHeaderSize + payload.length ≤ cells.length := by
    intro cells same
    exact room cells (same ▸ List.mem_cons_self)
  have roomThere : ∀ cells, .buffer cells ∈ calls → messageHeaderSize ≤ cells.length := by
    intro cells member
    have whole := room cells (List.mem_cons_of_mem _ member)
    omega
  rw [serializeCalls, bitcoinMessageSerialize_first sendable]
  simp only [copyMessage_eq (by rw [size]) roomHere, Exec.ok_bind]
  obtain ⟨cached, same⟩ : ∃ cached : OutMessage Object, cached =
      { msg with
        hdr := readyHdr magic szType
        msgData := some (encodedMessage crypto (readyHdr magic szType) payload) } := ⟨_, rfl⟩
  have type : bitcoinMessageTypeToString cached.msgType = some szType := by
    rw [same]
    exact sendable.type
  have object : cached.msgObject = some msgObject := by
    rw [same]
    exact sendable.object
  have hdr : cached.hdr = readyHdr magic szType := by rw [same]
  have stored : cached.msgData =
      some (encodedMessage crypto (readyHdr magic szType) payload) := by rw [same]
  have held : messageHeaderSize ≤
      (encodedMessage crypto (readyHdr magic szType) payload).length := by
    rw [size]
    omega
  have whole : (encodedMessage crypto (readyHdr magic szType) payload).take
      (messageHeaderSize + payload.length) =
        encodedMessage crypto (readyHdr magic szType) payload :=
    List.take_of_length_le (by rw [size])
  rw [← same, serializeCalls_later type object hdr stored held calls roomThere, whole]
  exact ⟨_, rfl⟩

/-- Consecutive calls agree exactly where there is at most one of them, or nothing behind the
header. -/
theorem bitcoinMessageSerialize_stable_iff (crypto : CryptoBackend)
    (serializers : PayloadSerializers Object) (msg : OutMessage Object) (magic : UInt32)
    (szType : String) (msgObject : Object) (payload : Bytes) (calls : List PData)
    (emptyChecksum : (hash256 crypto []).val.take 4 = emptyPayloadChecksum)
    (sendable : Sendable serializers msg magic szType msgObject payload)
    (room : ∀ cells, .buffer cells ∈ calls →
      messageHeaderSize + payload.length ≤ cells.length) :
    Stable crypto serializers msg magic szType payload calls ↔
      calls = [] ∨ (payload.length < 2 ^ 32 ∧ (payload = [] ∨ calls.length = 1)) := by
  cases calls with
  | nil =>
      constructor
      · intro _
        exact Or.inl rfl
      · intro _
        exact ⟨[], msg, [], rfl, .nil⟩
  | cons pData calls =>
      obtain ⟨after, run⟩ := serializeCalls_cons emptyChecksum sendable room
      constructor
      · intro stable
        obtain ⟨results, after', bytes, run', same⟩ := stable
        rw [run] at run'
        injection run' with run'
        injection run' with results_eq _
        subst results_eq
        obtain ⟨⟨framed, -⟩, later⟩ := List.forall₂_cons.1 same
        refine Or.inr ⟨framed.fits, ?_⟩
        cases calls with
        | nil => exact Or.inr rfl
        | cons second calls =>
            obtain ⟨⟨-, sizes⟩, -⟩ := List.forall₂_cons.1 later
            injection sizes with sizes _
            exact Or.inl (List.length_eq_zero_iff.1 (by omega))
      · intro condition
        rcases condition with none | ⟨fits, few⟩
        · cases none
        · have framed := encodedMessage_framed Object magic emptyChecksum sendable.type fits
          refine ⟨_, after, _, run, List.Forall₂.cons ⟨framed, rfl⟩ ?_⟩
          rcases few with empty | single
          · have size := encodedMessage_length magic szType payload emptyChecksum
            rw [List.forall₂_map_right_iff, List.forall₂_same]
            intro later _
            have whole : messageHeaderSize = messageHeaderSize + payload.length := by
              rw [empty]
              rfl
            rw [← whole] at size ⊢
            rw [List.take_of_length_le (by rw [size])]
            exact ⟨framed, rfl⟩
          · have none : calls = [] := List.length_eq_zero_iff.1 (Nat.succ.inj single)
            rw [none]
            exact .nil

/-- A backend with the SHA-256 digest of the empty payload, and that of the digest. -/
def digestCrypto : CryptoBackend :=
  let digest : Uint256 := ⟨[0xe3, 0xb0, 0xc4, 0x42, 0x98, 0xfc, 0x1c, 0x14, 0x9a, 0xfb, 0xf4,
    0xc8, 0x99, 0x6f, 0xb9, 0x24, 0x27, 0xae, 0x41, 0xe4, 0x64, 0x9b, 0x93, 0x4c, 0xa4, 0x95,
    0x99, 0x1b, 0x78, 0x52, 0xb8, 0x55], rfl⟩
  let digestOfDigest : Uint256 := ⟨[0x5d, 0xf6, 0xe0, 0xe2, 0x76, 0x13, 0x59, 0xd3, 0x0a, 0x82,
    0x75, 0x05, 0x8e, 0x29, 0x9f, 0xcc, 0x03, 0x81, 0x53, 0x45, 0x45, 0xf5, 0x5c, 0xf4, 0x3e,
    0x41, 0x98, 0x3f, 0x5d, 0x4c, 0x94, 0x56], rfl⟩
  { sampleCrypto with
    sha256 := fun data =>
      if data = [] then digest
      else if data = digest.val then digestOfDigest
      else sampleCrypto.sha256 data }

/-- An object that is its own payload. -/
def rawSerializers : PayloadSerializers Bytes := fun _ payload => some payload

/-- A single call on an `inv` message. -/
theorem bitcoinMessageSerialize_stable_single :
    Stable digestCrypto rawSerializers (bitcoinMessageNew 0xd9b4bef9 .inv [7]) 0xd9b4bef9 "inv"
      [7] [.toNull] := by
  have sendable : Sendable rawSerializers (bitcoinMessageNew 0xd9b4bef9 .inv [7]) 0xd9b4bef9 "inv"
      [7] [7] := ⟨rfl, rfl, rfl, rfl, Or.inr rfl⟩
  have emptyChecksum : (hash256 digestCrypto []).val.take 4 = emptyPayloadChecksum := by
    decide +kernel
  have room : ∀ cells, .buffer cells ∈ [PData.toNull] →
      messageHeaderSize + [(7 : UInt8)].length ≤ cells.length := by
    intro cells member
    cases List.mem_singleton.1 member
  exact (bitcoinMessageSerialize_stable_iff digestCrypto rawSerializers
    (bitcoinMessageNew 0xd9b4bef9 .inv [7]) 0xd9b4bef9 "inv" [7] [7] [.toNull] emptyChecksum
    sendable room).2 (Or.inr ⟨by decide, Or.inr rfl⟩)

/-- A query for the size and a call that fills a buffer: 25 bytes, then 24. -/
theorem bitcoinMessageSerialize_query_fill :
    (do
      let (results, _) ← serializeCalls digestCrypto rawSerializers
        (bitcoinMessageNew 0xd9b4bef9 .inv [7]) [.null, .toNull]
      Exec.ok (results.map Prod.fst)) = .ok [25, 24] ∧
    ¬ Stable digestCrypto rawSerializers (bitcoinMessageNew 0xd9b4bef9 .inv [7]) 0xd9b4bef9 "inv"
      [7] [.null, .toNull] := by
  have sizes : (do
      let (results, _) ← serializeCalls digestCrypto rawSerializers
        (bitcoinMessageNew 0xd9b4bef9 .inv [7]) [.null, .toNull]
      Exec.ok (results.map Prod.fst)) = .ok [25, 24] := by
    decide +kernel
  refine ⟨sizes, ?_⟩
  intro stable
  obtain ⟨results, after, bytes, run, same⟩ := stable
  rw [run] at sizes
  injection sizes with sizes
  obtain ⟨first, others, -, later, rfl⟩ := List.forall₂_cons_left_iff.1 same
  obtain ⟨second, others, ⟨-, fill⟩, -, rfl⟩ := List.forall₂_cons_left_iff.1 later
  subst fill
  simp [messageHeaderSize] at sizes

/-! ## The callers -/

/-- A new message whose object is filled in can be sent. -/
theorem bitcoinMessageNew_sendable {magic : UInt32} {type : BitcoinMessageType}
    {szType : String} {msgObject : Object} {payload : Bytes}
    (named : bitcoinMessageTypeToString type = some szType)
    (serialized : messageObjectSerialize serializers type msgObject = some payload) :
    Sendable serializers (bitcoinMessageNew magic type msgObject) magic szType msgObject
      payload := by
  refine ⟨rfl, named, rfl, serialized, Or.inr ?_⟩
  simp only [bitcoinMessageNew, named]

/-- So can a message that an object was attached to, before it is encoded. -/
theorem attachObject_sendable {magic : UInt32} {type : BitcoinMessageType} {szType : String}
    {msgObject : Object} {payload : Bytes}
    (named : bitcoinMessageTypeToString type = some szType)
    (serialized : messageObjectSerialize serializers type msgObject = some payload) :
    Sendable serializers (attachObject magic type msgObject) magic szType msgObject payload :=
  ⟨rfl, named, rfl, serialized, Or.inl rfl⟩

/-- A message that was not encoded before is sent as a whole. -/
theorem sendMessage_fresh {msg : OutMessage Object} {magic : UInt32} {szType : String}
    {msgObject : Object} {payload : Bytes}
    (emptyChecksum : (hash256 crypto []).val.take 4 = emptyPayloadChecksum)
    (sendable : Sendable serializers msg magic szType msgObject payload) :
    ∃ after, sendMessage crypto serializers msg =
      .ok (0, encodedMessage crypto (readyHdr magic szType) payload, after) := by
  have size := encodedMessage_length magic szType payload emptyChecksum
  have positive : ¬ ((messageHeaderSize + payload.length : Nat) : Int) ≤ 0 := by
    rw [messageHeaderSize]
    omega
  rw [sendMessage, bitcoinMessageSerialize_first sendable]
  simp only [copyMessage, Exec.ok_bind, if_neg positive, Option.getD_some, Int.toNat_natCast]
  rw [List.take_of_length_le (by rw [size])]
  exact ⟨_, rfl⟩

/-- Of an attached message only the header is sent. -/
theorem sendMessage_attached {magic : UInt32} {type : BitcoinMessageType} {szType : String}
    {msgObject : Object} {payload : Bytes}
    (named : bitcoinMessageTypeToString type = some szType)
    (serialized : messageObjectSerialize serializers type msgObject = some payload) :
    ∃ msg, bitcoinMessageAttach crypto serializers magic type msgObject = .ok (0, msg) ∧
      sendMessage crypto serializers msg =
        .ok (0, (encodedMessage crypto (readyHdr magic szType) payload).take messageHeaderSize,
          msg) := by
  have sendable : Sendable serializers (attachObject magic type msgObject) magic szType msgObject
      payload := attachObject_sendable named serialized
  have positive : ¬ ((messageHeaderSize + payload.length : Nat) : Int) ≤ 0 := by
    rw [messageHeaderSize]
    omega
  rw [bitcoinMessageAttach, bitcoinMessageSerialize_first sendable]
  simp only [copyMessage, Exec.ok_bind, if_neg positive]
  refine ⟨_, rfl, ?_⟩
  rw [sendMessage, bitcoinMessageSerialize_later named rfl rfl rfl]
  rfl

end BitcoinClib.Net
