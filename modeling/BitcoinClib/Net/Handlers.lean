import BitcoinClib.Chains.Types
import BitcoinClib.Net.Message

/-!
Contract: the callbacks of a node for the messages of a peer.

Owns:
- the parsed payloads and `s_payload_parsers`, over the functions of the messages;
- the default callbacks of `spv_node_message_handlers.c`;
- the callbacks of `spv_node_app.c` that replace some of them, with the block locator;
- `on_message_handler`.

Does not own: `chain->add`, and the functions of the single messages, whose sources are not
part of the repository: parsers, serialisers and the functions that print an object.
-/

namespace BitcoinClib.Net

open BitcoinClib.Lib
open BitcoinClib.Types
open BitcoinClib.Crypto
open BitcoinClib.Chains

/-! ## Parsed payloads -/

/-- `struct bitcoin_message_version`, as far as it is read. -/
structure MessageVersion where
  version : Int32
  startHeight : Int32
deriving DecidableEq, Repr

/-- `struct bitcoin_network_address` -/
structure NetworkAddress where
  time : UInt32
  services : UInt64
  ip : Bytes
  port : UInt16
deriving DecidableEq, Repr

/-- `struct bitcoin_inventory` -/
structure Inventory where
  type : UInt32
  hash : Bytes
deriving DecidableEq, Repr

/-- `struct bitcoin_message_getblocks` and `struct bitcoin_message_getheaders` -/
structure BlockLocator where
  version : UInt32
  hashes : List Uint256
  hashStop : Uint256
deriving DecidableEq

/-- What `msg_object` points to, for each type of message with a payload parser. -/
inductive MessageObject (Tx Block : Type) where
  | version (msg : MessageVersion)
  | addr (addrs : List NetworkAddress)
  | inv (invs : List Inventory)
  | getdata (invs : List Inventory)
  | notfound (invs : List Inventory)
  | getblocks (locator : BlockLocator)
  | getheaders (locator : BlockLocator)
  | tx (tx : Tx)
  | block (block : Block)
  | headers (hdrs : List (SatoshiBlockHeader Uint256))

/-- The functions of the single messages: the parsers, which return NULL for malformed bytes,
the serialisers, and what a function that prints an object does with NULL. -/
structure MessageFunctions (Tx Block : Type) where
  versionParse : Bytes → Option MessageVersion
  addrParse : Bytes → Option (List NetworkAddress)
  invParse : Bytes → Option (List Inventory)
  getdataParse : Bytes → Option (List Inventory)
  notfoundParse : Bytes → Option (List Inventory)
  getblocksParse : Bytes → Option BlockLocator
  getheadersParse : Bytes → Option BlockLocator
  txParse : Bytes → Option Tx
  blockParse : Bytes → Option Block
  blockHeadersParse : Bytes → Option (List (SatoshiBlockHeader Uint256))
  serialize : MessageObject Tx Block → Option Bytes
  dumpNull : BitcoinMessageType → Exec Unit

/-- `s_payload_parsers` -/
def sPayloadParsers {Tx Block : Type} (functions : MessageFunctions Tx Block) :
    PayloadParsers (MessageObject Tx Block)
  | .version => some fun payload => (functions.versionParse payload).map .version
  | .addr => some fun payload => (functions.addrParse payload).map .addr
  | .inv => some fun payload => (functions.invParse payload).map .inv
  | .getdata => some fun payload => (functions.getdataParse payload).map .getdata
  | .notfound => some fun payload => (functions.notfoundParse payload).map .notfound
  | .getblocks => some fun payload => (functions.getblocksParse payload).map .getblocks
  | .getheaders => some fun payload => (functions.getheadersParse payload).map .getheaders
  | .tx => some fun payload => (functions.txParse payload).map .tx
  | .block => some fun payload => (functions.blockParse payload).map .block
  | .headers => some fun payload => (functions.blockHeadersParse payload).map .headers
  | _ => none

/-! ## The node -/

/-- What the callbacks use of the rest of the program. -/
structure NodeEnv where
  crypto : CryptoBackend
  Tx : Type
  Block : Type
  messages : MessageFunctions Tx Block
  Chain : Type
  /-- `chain->height`, an `ssize_t` -/
  chainHeight : Chain → Nat
  chainHeight_lt : ∀ chain, chainHeight chain < 2 ^ 63
  /-- `chain->heirs[height].hash` -/
  heirHash : Chain → Nat → Uint256
  chainAdd : Chain → SatoshiBlockHeader Uint256 → Exec (Int × Chain)

/-- `spv_node_context_t`, as far as the callbacks use it. -/
structure SpvNodeContext (env : NodeEnv) where
  chain : env.Chain
  outBuf : Bytes
  sendHeadersFlag : Bool
  addrsList : List NetworkAddress
  protocolVersion : UInt32
  peerVersion : UInt32
  peerHeight : Int32

variable {env : NodeEnv}

/-- A message as a callback receives it. -/
abbrev InMessage (env : NodeEnv) := BitcoinMessage (MessageObject env.Tx env.Block)

/-- `spv_node_message_callback_fn` -/
abbrev MessageCallback (env : NodeEnv) :=
  SpvNodeContext env → InMessage env → Exec (Int × SpvNodeContext env)

/-- A `bitcoin_message_*_dump` function, which may be passed NULL. -/
def dumpObject (inMsg : InMessage env) : Exec Unit :=
  match inMsg.msgObject with
  | some _ => .ok ()
  | none => env.messages.dumpNull inMsg.msgType

/-- The header of an outgoing message. -/
def messageHeader (magic : Bytes) (command : String) (length : Nat) (checksum : Bytes) : Bytes :=
  magic ++ (command.toUTF8.toList ++ List.replicate 12 0).take 12 ++ leBytes 4 length ++ checksum

/-- `EMPTY_PAYLOAD_CHECKSUM` -/
def emptyPayloadChecksum : Bytes := leBytes 4 0xe2e0f65d

/-- `auto_buffer_push(spv->out_buf, …)` -/
def SpvNodeContext.pushOut (spv : SpvNodeContext env) (data : Bytes) : SpvNodeContext env :=
  { spv with outBuf := spv.outBuf ++ data }

/-- `spv_node_send_message`; nothing is sent when the object cannot be serialised. -/
def spvNodeSendMessage (spv : SpvNodeContext env) (magic : Bytes) (command : String)
    (object : MessageObject env.Tx env.Block) : SpvNodeContext env :=
  match env.messages.serialize object with
  | none => spv
  | some payload =>
      let checksum := if payload = [] then emptyPayloadChecksum
        else (hash256 env.crypto payload).val.take 4
      spv.pushOut (messageHeader magic command payload.length checksum ++ payload)

/-! ## `spv_node_message_handlers.c` -/

/-- `send_message_verack` -/
def sendMessageVerack (spv : SpvNodeContext env) (inMsg : InMessage env) :
    Int × SpvNodeContext env :=
  (0, spv.pushOut (messageHeader (inMsg.msgData.take 4) "verack" 0 emptyPayloadChecksum))

/-- `send_message_pong` -/
def sendMessagePong (spv : SpvNodeContext env) (inMsg : InMessage env) :
    Exec (Int × SpvNodeContext env) := do
  Exec.assert (hdrLength inMsg.msgData = 8)
  let hdr := messageHeader (inMsg.msgData.take 4) "pong" 8 (hdrChecksum inMsg.msgData)
  return (0, spv.pushOut (hdr ++ (inMsg.msgData.drop messageHeaderSize).take 8))

/-- The callbacks that print their name and return. -/
def onMessagePrinted (rc : Int) : MessageCallback env := fun spv _ => .ok (rc, spv)

/-- `on_message_unknown` -/
def onMessageUnknown : MessageCallback env := onMessagePrinted (-1)

/-- `on_message_version` -/
def onMessageVersion : MessageCallback env := fun spv inMsg => do
  dumpObject inMsg
  match inMsg.msgObject with
  | none => Exec.fault .assertion
  | some (.version msgVer) =>
      return sendMessageVerack
        { spv with peerVersion := msgVer.version.toUInt32, peerHeight := msgVer.startHeight } inMsg
  | some _ => Exec.fault .pointer

/-- `avl_tree_add` with `network_address_compare`, and the update of an existing item. -/
def addrsListAdd (addrsList : List NetworkAddress) (addr : NetworkAddress) :
    List NetworkAddress :=
  if addrsList.any fun item => item.ip = addr.ip ∧ item.port = addr.port then
    addrsList.map fun item =>
      if item.ip = addr.ip ∧ item.port = addr.port then
        { item with time := addr.time, services := addr.services }
      else item
  else addrsList ++ [addr]

/-- `on_message_addr` -/
def onMessageAddr : MessageCallback env := fun spv inMsg =>
  match inMsg.msgObject with
  | none => .fault .assertion
  | some (.addr addrs) => .ok (0, { spv with addrsList := addrs.foldl addrsListAdd spv.addrsList })
  | some _ => .fault .pointer

/-- `on_message_ping` -/
def onMessagePing : MessageCallback env := sendMessagePong

/-- `on_message_sendheaders` -/
def onMessageSendheaders : MessageCallback env := fun spv _ =>
  .ok (0, { spv with sendHeadersFlag := true })

/-- The callbacks for `inv` and `getheaders` that print the object. -/
def onMessageDumped : MessageCallback env := fun spv inMsg => do
  dumpObject inMsg
  return (0, spv)

/-- `s_spv_node_callbacks` -/
def sSpvNodeCallbacks : BitcoinMessageType → MessageCallback env
  | .unknown => onMessageUnknown
  | .version => onMessageVersion
  | .addr => onMessageAddr
  | .inv | .getheaders => onMessageDumped
  | .ping => onMessagePing
  | .sendheaders => onMessageSendheaders
  | .verack | .getdata | .notfound | .getblocks | .tx | .block | .headers | .getaddr | .mempool
  | .checkorder | .submitorder | .reply | .pong | .reject | .filterload | .filteradd
  | .filterclear | .merkleblock | .alert | .feefilter | .sendcmpct | .cmpctblock | .getblocktxn
  | .blocktxn => onMessagePrinted 0

/-! ## Block locators -/

/-- The loop of `blockchain_get_known_hashes` from the index `i` on: the count, and the hashes
written. -/
def knownHashesLoop (heirHash : Nat → Uint256) : Nat → Nat → Nat → Nat → Nat × List Uint256
  | 0, i, _, _ => (i + 1, [])
  | slots + 1, i, step, height =>
      if height = 0 then (i + 1, [heirHash 0])
      else
        let step := if 10 ≤ i then step * 2 else step
        let (count, hashes) := knownHashesLoop heirHash slots (i + 1) step (height - step)
        (count, heirHash height :: hashes)

/-- `blockchain_get_known_hashes` -/
def blockchainGetKnownHashes (env : NodeEnv) (chain : env.Chain) (maxHashes : Nat) :
    Nat × List Uint256 :=
  let maxHashes := if maxHashes = 0 ∨ 2000 < maxHashes then 2000 else maxHashes
  knownHashesLoop (env.heirHash chain) maxHashes 0 1 (env.chainHeight chain)

/-- `bitcoin_message_getheaders_set` on a new message; `none` for `-1`. -/
def bitcoinMessageGetheadersSet (version : UInt32) (hashCount : Nat) (knownHashes : List Uint256) :
    Exec (Option BlockLocator) :=
  if hashCount = 0 ∨ 2000 < hashCount then .ok none
  else if knownHashes.length < hashCount then .fault .bounds
  else .ok (some ⟨version, knownHashes.take hashCount, uint256Zero⟩)

/-- The part of `on_message_verack` and `on_message_headers` that asks for more headers: the
return code of `bitcoin_message_getheaders_set`. -/
def pullHeaders (spv : SpvNodeContext env) (magic : Bytes) (maxHashes : Nat) :
    Exec (Int × SpvNodeContext env) := do
  let version := if spv.peerVersion = 0 ∨ spv.protocolVersion < spv.peerVersion
    then spv.protocolVersion else spv.peerVersion
  let (count, hashes) := blockchainGetKnownHashes env spv.chain maxHashes
  Exec.assert (0 < count)
  match ← bitcoinMessageGetheadersSet version count hashes with
  | none => return (-1, spv)
  | some getheaders => return (0, spvNodeSendMessage spv magic "getheaders" (.getheaders getheaders))

/-! ## `spv_node_app.c` -/

namespace App

/-- `on_message_verack` -/
def onMessageVerack : MessageCallback env := fun spv inMsg =>
  pullHeaders spv (inMsg.msgData.take 4) 0

/-- `on_message_inv` -/
def onMessageInv : MessageCallback env := fun spv inMsg => do
  dumpObject inMsg
  match inMsg.msgObject with
  | some (.inv invs) =>
      return (0, spvNodeSendMessage spv (inMsg.msgData.take 4) "getdata" (.getdata invs))
  | _ => Exec.fault .pointer

/-- The `for` loop of `on_message_headers`; the first code other than 0 ends it. -/
def addHeaders (env : NodeEnv) : List (SatoshiBlockHeader Uint256) → env.Chain → Exec env.Chain
  | [], chain => .ok chain
  | hdr :: hdrs, chain => do
      let (rc, chain) ← env.chainAdd chain hdr
      if rc ≠ 0 then return chain else addHeaders env hdrs chain

/-- `on_message_headers` -/
def onMessageHeaders : MessageCallback env := fun spv inMsg =>
  match inMsg.msgObject with
  | none => .ok (0, spv)
  | some (.headers []) => .ok (0, spv)
  | some (.headers hdrs) => do
      let chain ← addHeaders env hdrs spv.chain
      let (rc, spv) ← pullHeaders { spv with chain } (inMsg.msgData.take 4) 100
      Exec.assert (rc = 0)
      return (rc, spv)
  | some _ => .fault .pointer

end App

/-- The callbacks after `custom_init`. The replaced ones for `getdata`, `notfound`,
`getblocks`, `getheaders`, `tx` and `block` print the object. -/
def customInit (callbacks : BitcoinMessageType → MessageCallback env) :
    BitcoinMessageType → MessageCallback env
  | .verack => App.onMessageVerack
  | .inv => App.onMessageInv
  | .getdata | .notfound | .getblocks | .getheaders | .tx | .block => onMessageDumped
  | .headers => App.onMessageHeaders
  | type => callbacks type

/-- `on_message_handler`, with the callbacks of the application. -/
def onMessageHandler (spv : SpvNodeContext env) (inMsg : InMessage env) :
    Exec (Int × SpvNodeContext env) :=
  customInit sSpvNodeCallbacks inMsg.msgType spv inMsg

end BitcoinClib.Net
