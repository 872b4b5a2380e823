import BitcoinClib.Encoding.Base58

/-!
Contract: the functions of `base64.c`.

Owns:
- the alphabets and digit tables, and one encoder and decoder for both of them;
- `base64_encode`, `base64_decode`, `base64_urlencode` and `base64_urldecode`.

The functions for the two alphabets are copies of one another. `int` arithmetic on bytes is
that of natural numbers; a result stored in a byte keeps its low bits.
-/

namespace BitcoinClib.Encoding.Base64

open BitcoinClib.Lib
open BitcoinClib.Types

/-- `_b64` -/
def b64 : Bytes :=
  "ABCDEFGHIJKLMNOPQRSTUVWXYZabcdefghijklmnopqrstuvwxyz0123456789+/".toUTF8.toList

/-- `_b64_url` -/
def b64Url : Bytes :=
  "ABCDEFGHIJKLMNOPQRSTUVWXYZabcdefghijklmnopqrstuvwxyz0123456789-_".toUTF8.toList

/-- `_b64_digits` -/
def b64Digits : List Nat := [
  0xFF, 0xFF, 0xFF, 0xFF, 0xFF, 0xFF, 0xFF, 0xFF, 0xFF, 0xFF, 0xFF, 0xFF, 0xFF, 0xFF, 0xFF, 0xFF,
  0xFF, 0xFF, 0xFF, 0xFF, 0xFF, 0xFF, 0xFF, 0xFF, 0xFF, 0xFF, 0xFF, 0xFF, 0xFF, 0xFF, 0xFF, 0xFF,
  0xFF, 0xFF, 0xFF, 0xFF, 0xFF, 0xFF, 0xFF, 0xFF, 0xFF, 0xFF, 0xFF, 62, 0xFF, 0xFF, 0xFF, 63,
  52, 53, 54, 55, 56, 57, 58, 59, 60, 61, 0xFF, 0xFF, 0xFF, 0xFF, 0xFF, 0xFF,
  0xFF, 0, 1, 2, 3, 4, 5, 6, 7, 8, 9, 10, 11, 12, 13, 14,
  15, 16, 17, 18, 19, 20, 21, 22, 23, 24, 25, 0xFF, 0xFF, 0xFF, 0xFF, 0xFF,
  0xFF, 26, 27, 28, 29, 30, 31, 32, 33, 34, 35, 36, 37, 38, 39, 40,
  41, 42, 43, 44, 45, 46, 47, 48, 49, 50, 51, 0xFF, 0xFF, 0xFF, 0xFF, 0xFF,
  0xFF, 0xFF, 0xFF, 0xFF, 0xFF, 0xFF, 0xFF, 0xFF, 0xFF, 0xFF, 0xFF, 0xFF, 0xFF, 0xFF, 0xFF, 0xFF,
  0xFF, 0xFF, 0xFF, 0xFF, 0xFF, 0xFF, 0xFF, 0xFF, 0xFF, 0xFF, 0xFF, 0xFF, 0xFF, 0xFF, 0xFF, 0xFF,
  0xFF, 0xFF, 0xFF, 0xFF, 0xFF, 0xFF, 0xFF, 0xFF, 0xFF, 0xFF, 0xFF, 0xFF, 0xFF, 0xFF, 0xFF, 0xFF,
  0xFF, 0xFF, 0xFF, 0xFF, 0xFF, 0xFF, 0xFF, 0xFF, 0xFF, 0xFF, 0xFF, 0xFF, 0xFF, 0xFF, 0xFF, 0xFF,
  0xFF, 0xFF, 0xFF, 0xFF, 0xFF, 0xFF, 0xFF, 0xFF, 0xFF, 0xFF, 0xFF, 0xFF, 0xFF, 0xFF, 0xFF, 0xFF,
  0xFF, 0xFF, 0xFF, 0xFF, 0xFF, 0xFF, 0xFF, 0xFF, 0xFF, 0xFF, 0xFF, 0xFF, 0xFF, 0xFF, 0xFF, 0xFF,
  0xFF, 0xFF, 0xFF, 0xFF, 0xFF, 0xFF, 0xFF, 0xFF, 0xFF, 0xFF, 0xFF, 0xFF, 0xFF, 0xFF, 0xFF, 0xFF,
  0xFF, 0xFF, 0xFF, 0xFF, 0xFF, 0xFF, 0xFF, 0xFF, 0xFF, 0xFF, 0xFF, 0xFF, 0xFF, 0xFF, 0xFF, 0xFF]

/-- `_b64_url_digits` -/
def b64UrlDigits : List Nat := [
  0xFF, 0xFF, 0xFF, 0xFF, 0xFF, 0xFF, 0xFF, 0xFF, 0xFF, 0xFF, 0xFF, 0xFF, 0xFF, 0xFF, 0xFF, 0xFF,
  0xFF, 0xFF, 0xFF, 0xFF, 0xFF, 0xFF, 0xFF, 0xFF, 0xFF, 0xFF, 0xFF, 0xFF, 0xFF, 0xFF, 0xFF, 0xFF,
  0xFF, 0xFF, 0xFF, 0xFF, 0xFF, 0xFF, 0xFF, 0xFF, 0xFF, 0xFF, 0xFF, 0xFF, 0xFF, 62, 0xFF, 0xFF,
  52, 53, 54, 55, 56, 57, 58, 59, 60, 61, 0xFF, 0xFF, 0xFF, 0xFF, 0xFF, 0xFF,
  0xFF, 0, 1, 2, 3, 4, 5, 6, 7, 8, 9, 10, 11, 12, 13, 14,
  15, 16, 17, 18, 19, 20, 21, 22, 23, 24, 25, 0xFF, 0xFF, 0xFF, 0xFF, 63,
  0xFF, 26, 27, 28, 29, 30, 31, 32, 33, 34, 35, 36, 37, 38, 39, 40,
  41, 42, 43, 44, 45, 46, 47, 48, 49, 50, 51, 0xFF, 0xFF, 0xFF, 0xFF, 0xFF,
  0xFF, 0xFF, 0xFF, 0xFF, 0xFF, 0xFF, 0xFF, 0xFF, 0xFF, 0xFF, 0xFF, 0xFF, 0xFF, 0xFF, 0xFF, 0xFF,
  0xFF, 0xFF, 0xFF, 0xFF, 0xFF, 0xFF, 0xFF, 0xFF, 0xFF, 0xFF, 0xFF, 0xFF, 0xFF, 0xFF, 0xFF, 0xFF,
  0xFF, 0xFF, 0xFF, 0xFF, 0xFF, 0xFF, 0xFF, 0xFF, 0xFF, 0xFF, 0xFF, 0xFF, 0xFF, 0xFF, 0xFF, 0xFF,
  0xFF, 0xFF, 0xFF, 0xFF, 0xFF, 0xFF, 0xFF, 0xFF, 0xFF, 0xFF, 0xFF, 0xFF, 0xFF, 0xFF, 0xFF, 0xFF,
  0xFF, 0xFF, 0xFF, 0xFF, 0xFF, 0xFF, 0xFF, 0xFF, 0xFF, 0xFF, 0xFF, 0xFF, 0xFF, 0xFF, 0xFF, 0xFF,
  0xFF, 0xFF, 0xFF, 0xFF, 0xFF, 0xFF, 0xFF, 0xFF, 0xFF, 0xFF, 0xFF, 0xFF, 0xFF, 0xFF, 0xFF, 0xFF,
  0xFF, 0xFF, 0xFF, 0xFF, 0xFF, 0xFF, 0xFF, 0xFF, 0xFF, 0xFF, 0xFF, 0xFF, 0xFF, 0xFF, 0xFF, 0xFF,
  0xFF, 0xFF, 0xFF, 0xFF, 0xFF, 0xFF, 0xFF, 0xFF, 0xFF, 0xFF, 0xFF, 0xFF, 0xFF, 0xFF, 0xFF, 0xFF]

/-- The character `'='`. -/
def padding : UInt8 := 0x3D

/-! ## The encoders -/

/-- The loop over groups of three bytes, and the last group. -/
def encodeGroups (table : Bytes) : Bytes → Exec Bytes
  | [] => .ok []
  | [p0] => do
      let c0 ← Exec.readAt table ((p0.toNat >>> 2) &&& 0x3F)
      let c1 ← Exec.readAt table (((p0.toNat &&& 0x03) <<< 4) ||| 0)
      .ok [c0, c1, padding, padding]
  | [p0, p1] => do
      let c0 ← Exec.readAt table ((p0.toNat >>> 2) &&& 0x3F)
      let c1 ← Exec.readAt table (((p0.toNat &&& 0x03) <<< 4) ||| ((p1.toNat >>> 4) &&& 0x0F))
      let c2 ← Exec.readAt table (((p1.toNat &&& 0x0F) <<< 2) ||| 0)
      .ok [c0, c1, c2, padding]
  | p0 :: p1 :: p2 :: rest => do
      let c0 ← Exec.readAt table ((p0.toNat >>> 2) &&& 0x3F)
      let c1 ← Exec.readAt table (((p0.toNat &&& 0x03) <<< 4) ||| ((p1.toNat >>> 4) &&& 0x0F))
      let c2 ← Exec.readAt table (((p1.toNat &&& 0x0F) <<< 2) ||| ((p2.toNat >>> 6) &&& 0x03))
      let c3 ← Exec.readAt table (p2.toNat &&& 0x3F)
      let chars ← encodeGroups table rest
      .ok (c0 :: c1 :: c2 :: c3 :: chars)

/-- Bytes are written to the start of an array of the caller, or to a new one of the size; what
lies behind them in a new array is indeterminate and left out. -/
def storeCells (size : Nat) (cells : Option Bytes) (bytes : Bytes) : Exec Bytes :=
  match cells with
  | none => if bytes.length ≤ size then .ok bytes else .fault .bounds
  | some cells =>
      if bytes.length ≤ cells.length then .ok (bytes ++ cells.drop bytes.length)
      else .fault .bounds

/-- The encoder over an alphabet: its value and what `*p_dst` points to. `p_dst` is NULL
(`none`), or `*p_dst` is NULL (`some none`) or an array. No bytes stand for NULL, too. -/
def encodeWith (table data : Bytes) (pDst : Option (Option Bytes)) :
    Exec (Nat × Option (Option Bytes)) :=
  if data = [] then .ok (0, pDst)
  else
    -- `data_len * 4` is a `size_t`
    let cb := data.length * 4 % 2 ^ 64 / 3 + 3
    match pDst with
    | none => .ok (cb + 1, none)
    | some cells => do
        let text ← encodeGroups table data
        let stored ← storeCells (cb + 1) cells (text ++ [0])
        .ok (text.length, some (some stored))

/-- `base64_encode` -/
def base64Encode (data : Bytes) (pDst : Option (Option Bytes)) :
    Exec (Nat × Option (Option Bytes)) :=
  encodeWith b64 data pDst

/-- `base64_urlencode` -/
def base64Urlencode (data : Bytes) (pDst : Option (Option Bytes)) :
    Exec (Nat × Option (Option Bytes)) :=
  encodeWith b64Url data pDst

/-! ## The decoders -/

/-- The bytes of four digits, or nothing when one of them is no digit. -/
def quartet (d0 d1 d2 d3 : Nat) : Option Bytes :=
  if d0 = 0xFF ∨ d1 = 0xFF ∨ d2 = 0xFF ∨ d3 = 0xFF then none
  else some [
    UInt8.ofNat ((d0 <<< 2) ||| ((d1 >>> 4) &&& 0x3)),
    UInt8.ofNat (((d1 &&& 0x0F) <<< 4) ||| ((d2 >>> 2) &&& 0x0F)),
    UInt8.ofNat (((d2 &&& 0x03) <<< 6) ||| (d3 &&& 0x3F))]

/-- `while(count--)`: whether all groups were decoded, the bytes written, and the rest of the
characters. -/
def decodeLoop (digits : List Nat) : Nat → Bytes → Exec (Bool × Bytes × Bytes)
  | 0, text => .ok (true, [], text)
  | count + 1, c0 :: c1 :: c2 :: c3 :: text => do
      let d0 ← Exec.readAt digits c0.toNat
      let d1 ← Exec.readAt digits c1.toNat
      let d2 ← Exec.readAt digits c2.toNat
      let d3 ← Exec.readAt digits c3.toNat
      match quartet d0 d1 d2 d3 with
      | none => .ok (false, [], c0 :: c1 :: c2 :: c3 :: text)
      | some bytes => do
          let (all, written, rest) ← decodeLoop digits count text
          .ok (all, bytes ++ written, rest)
  | _ + 1, _ => .fault .bounds

/-- The group with the padding. -/
def lastGroup (digits : List Nat) (twice : Bool) (text : Bytes) : Exec (Option Bytes) := do
  let c0 ← Exec.readAt text 0
  let d0 ← Exec.readAt digits c0.toNat
  let c1 ← Exec.readAt text 1
  let d1 ← Exec.readAt digits c1.toNat
  if twice then .ok (quartet d0 d1 0 0)
  else do
    let c2 ← Exec.readAt text 2
    let d2 ← Exec.readAt digits c2.toNat
    .ok (quartet d0 d1 d2 0)

/-- The decoder behind its size checks: whether it accepts the characters, and the bytes it has
written by then. -/
def decodeText (digits : List Nat) (text : Bytes) (cbFrom : Nat) : Exec (Bool × Bytes) := do
  let last ← Exec.readAt text (cbFrom - 1)
  if last = padding then do
    let (all, written, rest) ← decodeLoop digits (cbFrom / 4 - 1) text
    if all then do
      let before ← Exec.readAt text (cbFrom - 2)
      let group ← lastGroup digits (before = padding) rest
      match group with
      | none => .ok (false, written)
      | some bytes => .ok (true, written ++ bytes)
    else .ok (false, written)
  else do
    let (all, written, _) ← decodeLoop digits (cbFrom / 4) text
    .ok (all, written)

/-- `if(-1 == cb_from) cb_from = strlen(from)`; `none` is -1. -/
def fromLength (text : Bytes) (cbFrom : Option Nat) : Exec Nat :=
  match cbFrom with
  | none => strlen text
  | some cbFrom => .ok cbFrom

/-- The decoder over an alphabet on the memory behind `from`: its value and what `*p_dst` points
to; `none` is NULL for `from`. -/
def decodeWith (digits : List Nat) (text : Option Bytes) (cbFrom : Option Nat)
    (pDst : Option (Option Bytes)) : Exec (Int × Option (Option Bytes)) :=
  match text with
  | none => .ok (0, pDst)
  | some text => do
      let cbFrom ← fromLength text cbFrom
      if cbFrom = 0 then .ok (0, pDst)
      else if cbFrom % 4 ≠ 0 then .ok (-1, pDst)
      else
        let dstSize := (cbFrom + 3) / 4 * 3
        match pDst with
        | none => .ok (dstSize, none)
        | some cells => do
            let (accepted, written) ← decodeText digits text cbFrom
            let stored ← storeCells dstSize cells written
            .ok (if accepted then written.length else -1, some (some stored))

/-- `base64_decode` -/
def base64Decode (text : Option Bytes) (cbFrom : Option Nat) (pDst : Option (Option Bytes)) :
    Exec (Int × Option (Option Bytes)) :=
  decodeWith b64Digits text cbFrom pDst

/-- `base64_urldecode` -/
def base64Urldecode (text : Option Bytes) (cbFrom : Option Nat) (pDst : Option (Option Bytes)) :
    Exec (Int × Option (Option Bytes)) :=
  decodeWith b64UrlDigits text cbFrom pDst

end BitcoinClib.Encoding.Base64
