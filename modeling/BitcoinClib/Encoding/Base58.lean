import BitcoinClib.Lib.Buffer
import BitcoinClib.Types.Bytes

/-!
Contract: `base58.c`, the encoder, the decoder and the fixed-width encoder for comparison.

Owns:
- the alphabet and the table of its characters;
- the two inner loops of both directions, over the digits in use and over the carry left;
- `base58_encode`, `base58_decode` and `base58_encode_legacy` on arrays whose cells are
  checked at every access.

An `int` that leaves its range is a fault. The cells of a work array are natural numbers;
what is written to them is a remainder below 256.
-/

namespace BitcoinClib.Encoding

open BitcoinClib.Lib
open BitcoinClib.Types

/-- `s_b58_digits` -/
def sB58Digits : Bytes :=
  "123456789ABCDEFGHJKLMNPQRSTUVWXYZabcdefghijkmnopqrstuvwxyz".toUTF8.toList

/-- `s_b58_table` -/
def sB58Table : List Nat := [
  0xFF, 0xFF, 0xFF, 0xFF, 0xFF, 0xFF, 0xFF, 0xFF, 0xFF, 0xFF, 0xFF, 0xFF, 0xFF, 0xFF, 0xFF, 0xFF,
  0xFF, 0xFF, 0xFF, 0xFF, 0xFF, 0xFF, 0xFF, 0xFF, 0xFF, 0xFF, 0xFF, 0xFF, 0xFF, 0xFF, 0xFF, 0xFF,
  0xFF, 0xFF, 0xFF, 0xFF, 0xFF, 0xFF, 0xFF, 0xFF, 0xFF, 0xFF, 0xFF, 0xFF, 0xFF, 0xFF, 0xFF, 0xFF,
  0xFF, 0, 1, 2, 3, 4, 5, 6, 7, 8, 0xFF, 0xFF, 0xFF, 0xFF, 0xFF, 0xFF,
  0xFF, 9, 10, 11, 12, 13, 14, 15, 16, 0xFF, 17, 18, 19, 20, 21, 0xFF,
  22, 23, 24, 25, 26, 27, 28, 29, 30, 31, 32, 0xFF, 0xFF, 0xFF, 0xFF, 0xFF,
  0xFF, 33, 34, 35, 36, 37, 38, 39, 40, 41, 42, 43, 0xFF, 44, 45, 46,
  47, 48, 49, 50, 51, 52, 53, 54, 55, 56, 57, 0xFF, 0xFF, 0xFF, 0xFF, 0xFF,
  0xFF, 0xFF, 0xFF, 0xFF, 0xFF, 0xFF, 0xFF, 0xFF, 0xFF, 0xFF, 0xFF, 0xFF, 0xFF, 0xFF, 0xFF, 0xFF,
  0xFF, 0xFF, 0xFF, 0xFF, 0xFF, 0xFF, 0xFF, 0xFF, 0xFF, 0xFF, 0xFF, 0xFF, 0xFF, 0xFF, 0xFF, 0xFF,
  0xFF, 0xFF, 0xFF, 0xFF, 0xFF, 0xFF, 0xFF, 0xFF, 0xFF, 0xFF, 0xFF, 0xFF, 0xFF, 0xFF, 0xFF, 0xFF,
  0xFF, 0xFF, 0xFF, 0xFF, 0xFF, 0xFF, 0xFF, 0xFF, 0xFF, 0xFF, 0xFF, 0xFF, 0xFF, 0xFF, 0xFF, 0xFF,
  0xFF, 0xFF, 0xFF, 0xFF, 0xFF, 0xFF, 0xFF, 0xFF, 0xFF, 0xFF, 0xFF, 0xFF, 0xFF, 0xFF, 0xFF, 0xFF,
  0xFF, 0xFF, 0xFF, 0xFF, 0xFF, 0xFF, 0xFF, 0xFF, 0xFF, 0xFF, 0xFF, 0xFF, 0xFF, 0xFF, 0xFF, 0xFF,
  0xFF, 0xFF, 0xFF, 0xFF, 0xFF, 0xFF, 0xFF, 0xFF, 0xFF, 0xFF, 0xFF, 0xFF, 0xFF, 0xFF, 0xFF, 0xFF,
  0xFF, 0xFF, 0xFF, 0xFF, 0xFF, 0xFF, 0xFF, 0xFF, 0xFF, 0xFF, 0xFF, 0xFF, 0xFF, 0xFF, 0xFF, 0xFF]

/-- The character `'1'`. -/
def charOne : UInt8 := 0x31

/-! ## The inner loops -/

/-- The body of the inner loops: the digit at `i` is multiplied, the carry is added, and what
exceeds the digit is the next carry. -/
def digitRound (factor base i : Nat) (dst : List Nat) (carry : Nat) : Exec (List Nat × Nat) := do
  let digit ← Exec.readAt dst i
  let carry ← Exec.checkedInt (carry + digit * factor)
  let dst ← Exec.writeAt dst i (carry % base)
  .ok (dst, carry / base)

/-- `do … while(++dst_index < cb_dst)` from `dst_index = i` on. -/
def digitsLoop (factor base cbDst : Nat) :
    Nat → Nat → List Nat → Nat → Exec (List Nat × Nat)
  | 0, _, _, _ => .timeout
  | fuel + 1, i, dst, carry => do
      let (dst, carry) ← digitRound factor base i dst carry
      let i ← Exec.checkedInt (i + 1)
      if i < cbDst then digitsLoop factor base cbDst fuel i dst carry else .ok (dst, carry)

/-- `while(carry)`; `check` is the assertion at the start of its body. -/
def carryLoop (factor base : Nat) (check : Nat → Exec Unit) :
    Nat → List Nat → Nat → Nat → Exec (List Nat × Nat)
  | 0, _, _, _ => .timeout
  | fuel + 1, dst, cbDst, carry =>
      if carry = 0 then .ok (dst, cbDst)
      else do
        check cbDst
        let (dst, carry) ← digitRound factor base cbDst dst carry
        carryLoop factor base check fuel dst (cbDst + 1) carry

/-- One byte or character is added to the number in `dst`. -/
def addDigit (factor base : Nat) (check : Nat → Exec Unit) (dst : List Nat) (cbDst carry : Nat) :
    Exec (List Nat × Nat) := do
  let (dst, carry) ← digitsLoop factor base cbDst (cbDst + 1) 0 dst carry
  carryLoop factor base check (dst.length + 1) dst cbDst carry

/-! ## `base58_encode` -/

/-- The loop over the bytes. -/
def encodeLoop : Bytes → List Nat → Nat → Exec (List Nat × Nat)
  | [], dst, cbDst => .ok (dst, cbDst)
  | byte :: src, dst, cbDst => do
      let (dst, cbDst) ← addDigit 256 58 (fun _ => .ok ()) dst cbDst byte.toNat
      encodeLoop src dst cbDst

/-- The loop over the digits, the last one first, from the index `i` on. -/
def emitDigits (dst : List Nat) (cbDst : Nat) : Nat → Nat → Exec Bytes
  | 0, _ => .ok []
  | remaining + 1, i => do
      let digit ← Exec.readAt dst (cbDst - i - 1)
      let char ← Exec.readAt sB58Digits digit
      let rest ← emitDigits dst cbDst remaining (i + 1)
      .ok (char :: rest)

/-- A string with its NUL goes to an array of the caller or to a new one. -/
def storeString (cells : Option Bytes) (text : Bytes) : Exec Bytes :=
  match cells with
  | none => .ok (text ++ [0])
  | some cells =>
      if text.length < cells.length then .ok (text ++ 0 :: cells.drop (text.length + 1))
      else .fault .bounds

/-- `while((cb_leading_zeros < length) && (0 == src[cb_leading_zeros])) ++cb_leading_zeros` -/
def leadingZeros (src : Bytes) : Nat := (src.takeWhile (· = 0)).length

/-- `base58_encode`: its value and what `*p_b58` points to; `none` is NULL. -/
def base58Encode (data : Bytes) (pB58 : Option Bytes) : Exec (Nat × Option Bytes) :=
  if data = [] then .ok (0, pB58)
  -- `length * 138` is an `ssize_t`
  else if 2 ^ 63 ≤ data.length * 138 then .fault .overflow
  else do
    let dstSize := data.length * 138 / 100 + 1
    let cbLeadingZeros := leadingZeros data
    let (dst, cbDst) ← encodeLoop (data.drop cbLeadingZeros) (List.replicate dstSize 0) 1
    let digits ← emitDigits dst cbDst cbDst 0
    let b58 ← storeString pB58 (List.replicate cbLeadingZeros charOne ++ digits)
    .ok (cbDst + cbLeadingZeros, some b58)

/-! ## `base58_decode` -/

/-- `strlen` -/
def strlen : Bytes → Exec Nat
  | [] => .fault .bounds
  | char :: rest =>
      if char = 0 then .ok 0
      else do
        let length ← strlen rest
        .ok (length + 1)

theorem strlen_eq : ∀ {text : Bytes} (rest : Bytes), 0 ∉ text →
    strlen (text ++ 0 :: rest) = .ok text.length
  | [], rest, _ => by
      rw [List.nil_append, strlen, if_pos rfl]
      rfl
  | char :: text, rest, absent => by
      have nonzero : char ≠ 0 := fun zero => absent (zero ▸ List.mem_cons_self)
      rw [List.cons_append, strlen, if_neg nonzero,
        strlen_eq rest fun member => absent (List.mem_cons_of_mem _ member), Exec.ok_bind,
        List.length_cons]

/-- `if(cb_b58 <= 0) cb_b58 = strlen(b58)` -/
def textLength (b58 : Bytes) (cbB58 : Int) : Exec Nat :=
  if cbB58 ≤ 0 then strlen b58 else .ok cbB58.toNat

/-- `while(b58[offset] == '1') ++offset` -/
def skipOnes : Bytes → Exec Nat
  | [] => .fault .bounds
  | char :: rest =>
      if char = charOne then do
        let offset ← skipOnes rest
        .ok (offset + 1)
      else .ok 0

/-- `s_b58_table[(int)b58[i]]`; `char` is signed, and a negative index lies in front of the
table. -/
def tableAt (char : UInt8) : Exec Nat :=
  if char < 0x80 then Exec.readAt sB58Table char.toNat else .fault .bounds

/-- The loop over the characters, `remaining` of them from the index `i` on; `none` for a
character that is not in the alphabet. -/
def decodeLoop (b58 : Bytes) (cbB58 : Nat) :
    Nat → Nat → List Nat → Nat → Exec (Option (List Nat × Nat))
  | 0, _, dst, cbDst => .ok (some (dst, cbDst))
  | remaining + 1, i, dst, cbDst => do
      let char ← Exec.readAt b58 i
      let carry ← tableAt char
      if carry = 0xFF then .ok none
      else do
        let (dst, cbDst) ←
          addDigit 58 256 (fun cbDst => Exec.assert (cbDst ≤ cbB58)) dst cbDst carry
        let i ← Exec.checkedInt (i + 1)
        decodeLoop b58 cbB58 remaining i dst cbDst

/-- The loop that swaps the first bytes with the last ones, from the index `i` on. -/
def reverseLoop (cbDst : Nat) : Nat → Nat → List Nat → Exec (List Nat)
  | 0, _, dst => .ok dst
  | remaining + 1, i, dst => do
      let first ← Exec.readAt dst i
      let last ← Exec.readAt dst (cbDst - i - 1)
      let dst ← Exec.writeAt dst i last
      let dst ← Exec.writeAt dst (cbDst - i - 1) first
      reverseLoop cbDst remaining (i + 1) dst

/-- `memcpy(*p_dst, dst_buf, cb_dst)`, or `dst_buf` itself where `*p_dst` is NULL. -/
def storeBytes (cells : Option Bytes) (dstBuf : Bytes) (cbDst : Nat) : Exec Bytes :=
  match cells with
  | none => .ok dstBuf
  | some cells =>
      if cbDst ≤ dstBuf.length ∧ cbDst ≤ cells.length then
        .ok (dstBuf.take cbDst ++ cells.drop cbDst)
      else .fault .bounds

/-- The part of `base58_decode` behind its loop, where `dst` is `dst_buf` from the offset
on. -/
def finishDecode (cbB58 offset : Nat) (pDst : Option Bytes) :
    Option (List Nat × Nat) → Exec (Int × Option Bytes)
  | none => .ok (-1, pDst)
  | some (dst, cbDst) => do
      let dst ← reverseLoop cbDst (cbDst / 2) 0 dst
      let dstBuf := (List.replicate offset 0 ++ dst.map UInt8.ofNat).take (cbB58 + 1)
      let stored ← storeBytes pDst dstBuf (cbDst + offset)
      .ok ((cbDst + offset : Nat), some stored)

/-- `base58_decode` on the memory behind `b58`: its value and what `*p_dst` points to. -/
def base58Decode (b58 : Bytes) (cbB58 : Int) (pDst : Option Bytes) :
    Exec (Int × Option Bytes) := do
  let cbB58 ← textLength b58 cbB58
  if cbB58 = 0 then .ok (0, pDst)
  else do
    let offset ← skipOnes b58
    let decoded ← decodeLoop (b58.drop offset) (cbB58 - offset) (cbB58 - offset) 0
      (List.replicate (cbB58 + 1 - offset) 0) 1
    finishDecode cbB58 offset pDst decoded

/-! ## `base58_encode_legacy` -/

/-- `for(i = count - 1; i >= 0; --i)` -/
def legacyLoop : Nat → List Nat → Nat → Exec (List Nat × Nat)
  | 0, dst, carry => .ok (dst, carry)
  | i + 1, dst, carry => do
      let (dst, carry) ← digitRound 256 58 i dst carry
      legacyLoop i dst carry

/-- The loop over the bytes; every one of them runs through `count` digits. -/
def legacyBytes (count : Nat) : Bytes → List Nat → Exec (List Nat)
  | [], dst => .ok dst
  | byte :: src, dst => do
      let (dst, carry) ← legacyLoop count dst byte.toNat
      Exec.assert (carry = 0)
      legacyBytes count src dst

/-- The loop over the digits behind the leading zeros. -/
def legacyDigits : List Nat → Exec Bytes
  | [] => .ok []
  | digit :: digits => do
      let char ← Exec.readAt sB58Digits digit
      let rest ← legacyDigits digits
      .ok (char :: rest)

/-- `base58_encode_legacy`: its value and what `to` points to (`to` is a word of
Lean). -/
def base58EncodeLegacy (src : Bytes) (to' : Option Bytes) (bufferSize : Nat) :
    Exec (Nat × Option Bytes) :=
  let cbDst := src.length * 138 % 2 ^ 64 / 100 + 1
  match to' with
  | none => .ok (cbDst, none)
  | some cells =>
      if bufferSize < cbDst then .ok (0, some cells)
      else do
        let zeros ← Exec.checkedInt (leadingZeros src)
        let dst ← legacyBytes (intOfSize (cbDst - 1) + 1).toNat (src.drop zeros)
          (List.replicate cbDst 0)
        let digits := dst.dropWhile (· = 0)
        -- the index of the last loop is an `int`
        let cbDst ← Exec.checkedInt digits.length
        let text ← legacyDigits digits
        let stored ← storeString (some cells) (List.replicate zeros charOne ++ text)
        .ok (cbDst + zeros, some stored)

end BitcoinClib.Encoding
