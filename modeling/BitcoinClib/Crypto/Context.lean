import BitcoinClib.Lib.Exec
import BitcoinClib.Types.Bytes

/-!
Contract: `crypto.c` over the two libraries it calls.

Owns:
- `CryptoBackend`, the part of libsecp256k1 and of the SHA / RIPEMD library
  that the node calls, as parameters;
- the checks `crypto.c` adds around those calls;
- `hash256`, `hash160` and the streaming SHA context.

A streaming SHA-256 context is represented by the bytes it has absorbed:
`sha256_init` is the empty string, `sha256_update` appends, and
`sha256_final` hashes what was absorbed.
-/

namespace BitcoinClib.Crypto

open BitcoinClib.Lib
open BitcoinClib.Types

/-- The external functions. -/
structure CryptoBackend where
  PubKey : Type
  Signature : Type
  /-- `secp256k1_ec_pubkey_parse` -/
  pubkeyParse : Bytes → Option PubKey
  /-- `secp256k1_ecdsa_signature_parse_der` -/
  signatureParseDer : Bytes → Option Signature
  /-- `secp256k1_ecdsa_signature_serialize_der` into a buffer of 100 bytes -/
  signatureSerializeDer : Signature → Option Bytes
  /-- `secp256k1_ecdsa_verify` -/
  ecdsaVerify : Signature → Uint256 → PubKey → Bool
  sha256 : Bytes → Uint256
  ripemd160 : Bytes → Uint160

/-- `hash256`: double SHA-256. -/
def hash256 (crypto : CryptoBackend) (data : Bytes) : Uint256 :=
  crypto.sha256 (crypto.sha256 data).val

/-- `hash160`: RIPEMD-160 of SHA-256. -/
def hash160 (crypto : CryptoBackend) (data : Bytes) : Uint160 :=
  crypto.ripemd160 (crypto.sha256 data).val

/-- `MAX_PUBKEY_DATA_LENGTH` -/
def maxPubkeyDataLength : Nat := 65

/-- `crypto_pubkey_import`; the data pointer may be NULL. -/
def cryptoPubkeyImport (crypto : CryptoBackend) (pubkeyData : Option Bytes) (length : Nat) :
    Exec (Option crypto.PubKey) :=
  match pubkeyData with
  | none => .fault .assertion
  | some data => do
      Exec.assert (length ≤ maxPubkeyDataLength)
      return crypto.pubkeyParse (data.take length)

/-- `crypto_signature_import`; the data pointer may be NULL. -/
def cryptoSignatureImport (crypto : CryptoBackend) (sigDer : Option Bytes) (length : Nat) :
    Exec (Option crypto.Signature) :=
  match sigDer with
  | none => .fault .assertion
  | some data => do
      Exec.assert (0 < length)
      return crypto.signatureParseDer (data.take length)

/-- `crypto_signature_export`: the DER bytes, NULL on failure. A length of zero
would fail the assertion on `sig->cb_sig_der`. -/
def cryptoSignatureExport (crypto : CryptoBackend) (sig : crypto.Signature) :
    Exec (Option Bytes) :=
  match crypto.signatureSerializeDer sig with
  | none => .ok none
  | some der => do
      Exec.assert (0 < der.length)
      return some der

/-- `crypto_verify`, installed as `crypto->verify`: `0` when the signature parses
and verifies, `-1` otherwise. -/
def cryptoVerify (crypto : CryptoBackend) (msg : Uint256) (pubkey : crypto.PubKey)
    (sigDer : Bytes) : Int :=
  match crypto.signatureParseDer sigDer with
  | none => -1
  | some sig => if crypto.ecdsaVerify sig msg pubkey then 0 else -1

/-! ## Backend for runs on fixed inputs -/

/-- A checksum of the whole input, in `width` bytes. -/
def checksum (width : Nat) (data : Bytes) : Bytes :=
  leBytes width (data.foldl (fun total byte => total * 257 + byte.toNat + 1) 1)

/-- Keys and signatures carry the tag and length bytes of the real encodings; a
signature by a key repeats the key after its header. -/
def sampleCrypto : CryptoBackend where
  PubKey := Bytes
  Signature := Bytes
  pubkeyParse data := if data.length = 33 ∧ data.headD 0 = 2 then some data else none
  signatureParseDer data :=
    if data.headD 0 = 0x30 ∧ (data.getD 1 0).toNat + 2 = data.length then some data else none
  signatureSerializeDer sig := some sig
  ecdsaVerify sig _ pubkey := sig.drop 2 = pubkey
  sha256 data := ⟨checksum 32 data, leBytes_length _ _⟩
  ripemd160 data := ⟨checksum 20 data, leBytes_length _ _⟩

/-- A compressed key. -/
def sampleKey (fill : UInt8) : Bytes := 2 :: List.replicate 32 fill

end BitcoinClib.Crypto
