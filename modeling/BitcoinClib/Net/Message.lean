import BitcoinClib.Crypto.Context

/-!
Contract: messages of the peer protocol, as `bitcoin-message.c` recognises them.

Owns:
- the 24-byte message header and the table of commands;
- `bitcoin_message_parse`, with the payload parsers as a parameter.

Does not own: the buffer the bytes arrive in.
-/

namespace BitcoinClib.Net

open BitcoinClib.Types
open BitcoinClib.Crypto

/-- `enum bitcoin_message_type` -/
inductive BitcoinMessageType where
  | unknown | version | verack | addr | inv | getdata | notfound | getblocks | getheaders | tx
  | block | headers | getaddr | mempool | checkorder | submitorder | reply | ping | pong | reject
  | filterload | filteradd | filterclear | merkleblock | alert | sendheaders | feefilter
  | sendcmpct | cmpctblock | getblocktxn | blocktxn
deriving DecidableEq, Repr

/-- `s_sz_message_types` behind its first entry. -/
def szMessageTypes : List (BitcoinMessageType × String) :=
  [(.version, "version"), (.verack, "verack"), (.addr, "addr"), (.inv, "inv"),
    (.getdata, "getdata"), (.notfound, "notefound"), (.getblocks, "getblocks"),
    (.getheaders, "getheaders"), (.tx, "tx"), (.block, "block"), (.headers, "headers"),
    (.getaddr, "getaddr"), (.mempool, "mempool"), (.checkorder, "checkorder"),
    (.submitorder, "submitorder"), (.reply, "reply"), (.ping, "ping"), (.pong, "pong"),
    (.reject, "reject"), (.filterload, "filterload"), (.filteradd, "filteradd"),
    (.filterclear, "filterclear"), (.merkleblock, "merkle_block"), (.alert, "alert"),
    (.sendheaders, "sendheaders"), (.feefilter, "feefilter"), (.sendcmpct, "sendcmpct"),
    (.cmpctblock, "cmpctblock"), (.getblocktxn, "getblocktxn"), (.blocktxn, "blocktxn")]

/-- `strncmp(command, name, 12) == 0` -/
def commandIs (command : Bytes) (name : String) : Bool :=
  (command.take 12).takeWhile (fun char => char ≠ 0) = name.toUTF8.toList.take 12

/-- `bitcoin_message_type_from_string` -/
def bitcoinMessageTypeFromString (command : Bytes) : BitcoinMessageType :=
  match szMessageTypes.find? fun entry => commandIs command entry.2 with
  | some (messageType, _) => messageType
  | none => .unknown

/-- `sizeof(struct bitcoin_message_header)` -/
def messageHeaderSize : Nat := 24

/-- The fields of the header in front of a buffer. -/
def hdrMagic (p : Bytes) : Nat := leValue (p.take 4)

def hdrCommand (p : Bytes) : Bytes := (p.drop 4).take 12

def hdrLength (p : Bytes) : Nat := leValue ((p.drop 16).take 4)

def hdrChecksum (p : Bytes) : Bytes := (p.drop 20).take 4

/-- A prefix that holds the header announces the same length. -/
theorem hdrLength_take {p : Bytes} {n : Nat} (enough : 20 ≤ n) :
    hdrLength (p.take n) = hdrLength p := by
  have inside : min 4 (n - 16) = 4 := by omega
  rw [hdrLength, hdrLength, List.drop_take, List.take_take, inside]

/-- `bitcoin_message_t`: the header with its payload, the type and the parsed payload. -/
structure BitcoinMessage (Object : Type) where
  msgData : Bytes
  msgType : BitcoinMessageType
  msgObject : Option Object
deriving DecidableEq

/-- `s_payload_parsers`; a type may have no parser, and a parser may return NULL. -/
abbrev PayloadParsers (Object : Type) := BitcoinMessageType → Option (Bytes → Option Object)

/-- `bitcoin_message_parse` on a header and the payload behind it: the message, `none` for
`-1`. -/
def bitcoinMessageParse {Object : Type} (crypto : CryptoBackend) (parsers : PayloadParsers Object)
    (msgHdr : Bytes) : Option (BitcoinMessage Object) :=
  let length := hdrLength msgHdr
  let payload := (msgHdr.drop messageHeaderSize).take length
  let messageType := bitcoinMessageTypeFromString (hdrCommand msgHdr)
  if messageType = .unknown then none
  else if (hash256 crypto payload).val.take 4 ≠ hdrChecksum msgHdr then none
  else
    some {
      msgData := msgHdr.take (messageHeaderSize + length)
      msgType := messageType
      msgObject := if 0 < length then (parsers messageType).bind fun parser => parser payload
        else none }

end BitcoinClib.Net
