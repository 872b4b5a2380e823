import BitcoinClib.Encoding.Base64RoundTrip
import BitcoinClib.Encoding.JsonWebToken
import BitcoinClib.Lib.Json

/-!
Contract: what a segment of `json-web-token.c` says.

Owns:
- `utf8`, the bytes of a text, and `Claims`, a map of names to texts as an object of json-c;
- the bytes that are packed (`packJsonObjectBase64_packs`);
- `packJsonObjectBase64_claims_iff`, the maps that come back.
-/

namespace BitcoinClib.Encoding.JsonWebToken

open BitcoinClib.Lib
open BitcoinClib.Lib.Json
open BitcoinClib.Types
open BitcoinClib.Encoding.Base64

/-! ## Texts as bytes -/

def utf8 (text : Text) : Bytes := text.flatMap String.utf8EncodeChar

theorem utf8_append (text more : Text) : utf8 (text ++ more) = utf8 text ++ utf8 more :=
  List.flatMap_append

theorem utf8_cons (char : Char) (text : Text) :
    utf8 (char :: text) = String.utf8EncodeChar char ++ utf8 text := List.flatMap_cons

theorem utf8_inj {text other : Text} (same : utf8 text = utf8 other) : text = other := by
  apply String.ofList_injective
  apply String.toByteArray_inj.1
  exact congrArg List.toByteArray same

theorem utf8_ne_nil {text : Text} (nonempty : text ≠ []) : utf8 text ≠ [] := by
  cases text with
  | nil => exact absurd rfl nonempty
  | cons char text =>
      rw [utf8_cons]
      exact List.append_ne_nil_of_left_ne_nil String.utf8EncodeChar_ne_nil _

/-- Only NUL is written with a NUL. -/
theorem eq_nul_of_mem {char : Char} (inside : 0 ∈ String.utf8EncodeChar char) :
    char = Char.ofNat 0 := by
  have positive {value low : Nat} (small : value < low) (fits : low ≤ 128) (high : Nat)
      (between : 128 ≤ high ∧ high + low ≤ 256) : (0 : UInt8) ≠ UInt8.ofNat (value + high) := by
    intro same
    have zero := congrArg UInt8.toNat same
    rw [UInt8.toNat_ofNat', Nat.mod_eq_of_lt (by omega)] at zero
    have none : (0 : UInt8).toNat = 0 := rfl
    omega
  unfold String.utf8EncodeChar at inside
  dsimp only at inside
  split at inside
  next small =>
    rw [List.mem_singleton] at inside
    have zero := congrArg UInt8.toNat inside
    rw [UInt8.toNat_ofNat', Nat.mod_eq_of_lt (by omega)] at zero
    apply Char.ext
    apply UInt32.toNat_inj.1
    exact zero.symm
  next =>
    have second (value : Nat) : (0 : UInt8) ≠ UInt8.ofNat (value % 0x40 + 0x80) :=
      positive (Nat.mod_lt value (by decide)) (by decide) 0x80 (by decide)
    split at inside
    next =>
      have first := positive (Nat.mod_lt (char.val.toNat / 64) (show 0x20 > 0 by decide))
        (by decide) 0xc0 (by decide)
      simp only [List.mem_cons, List.not_mem_nil, or_false] at inside
      rcases inside with same | same
      · exact absurd same first
      · exact absurd same (second _)
    next =>
      split at inside
      next =>
        have first := positive (Nat.mod_lt (char.val.toNat / 4096) (show 0x10 > 0 by decide))
          (by decide) 0xe0 (by decide)
        simp only [List.mem_cons, List.not_mem_nil, or_false] at inside
        rcases inside with same | same | same
        · exact absurd same first
        · exact absurd same (second _)
        · exact absurd same (second _)
      next =>
        have first := positive (Nat.mod_lt (char.val.toNat / 262144) (show 0x08 > 0 by decide))
          (by decide) 0xf0 (by decide)
        simp only [List.mem_cons, List.not_mem_nil, or_false] at inside
        rcases inside with same | same | same | same
        · exact absurd same first
        · exact absurd same (second _)
        · exact absurd same (second _)
        · exact absurd same (second _)

/-- The name of a claim as a C string. -/
def cString (text : Text) (noNul : Char.ofNat 0 ∉ text) : CString :=
  ⟨utf8 text, by
    intro inside
    obtain ⟨char, member, nul⟩ := List.mem_flatMap.1 inside
    exact noNul (eq_nul_of_mem nul ▸ member)⟩

/-- A map of distinct names, which are C strings and not empty, to texts. -/
structure Claims where
  members : List Member
  distinct : (members.map Prod.fst).Nodup
  named : ∀ member ∈ members, member.1 ≠ []
  noNul : ∀ member ∈ members, Char.ofNat 0 ∉ member.1

/-- The object of json-c. -/
def Claims.jobj (claims : Claims) : JsonObject where
  members := claims.members.attach.map fun member =>
    (cString member.val.1 (claims.noNul member.val member.property), utf8 member.val.2)
  distinct := by
    rw [List.map_map]
    apply List.Nodup.of_map Subtype.val
    have names : (claims.members.attach.map
        (Prod.fst ∘ fun member => (cString member.val.1
          (claims.noNul member.val member.property), utf8 member.val.2))).map Subtype.val =
        (claims.members.map Prod.fst).map utf8 := by
      rw [List.map_map, List.map_map]
      exact List.attach_map_val (f := fun member : Member => utf8 member.1)
    rw [names]
    exact claims.distinct.map fun _ _ same => utf8_inj same

/-! ## The bytes that are packed -/

def memberBytes (member : CString × Bytes) : Bytes :=
  [0x22] ++ member.1.val ++ [0x22, 0x3A, 0x22] ++ member.2 ++ [0x22]

def membersBytes : List (CString × Bytes) → Bytes
  | [] => []
  | [last] => memberBytes last
  | first :: others => memberBytes first ++ 0x2C :: membersBytes others

def objectBytes (jobj : JsonObject) : Bytes := 0x7B :: (membersBytes jobj.members ++ [0x7D])

theorem memberBytes_length (member : CString × Bytes) :
    (memberBytes member).length = member.1.val.length + member.2.length + 5 := by
  simp only [memberBytes, List.length_append, List.length_cons, List.length_nil]
  omega

theorem asInt_of_lt {value : Nat} (small : value < 2 ^ 31) : asInt value = value := by
  apply Int.bmod_eq_of_le
  · norm_num
  · norm_num
    omega

theorem put_of_le {buf bytes : Bytes}
    (fits : buf.length + bytes.length ≤ jsonWebTokenMaxBufferSize) :
    put buf bytes = .ok (buf ++ bytes) := if_pos fits

theorem putKeyName_of_lt {buf : Bytes} {keyName : CString}
    (fits : buf.length + keyName.val.length + 3 < jsonWebTokenMaxBufferSize) :
    putKeyName buf keyName = .ok (buf ++ ([0x22] ++ keyName.val ++ [0x22, 0x3A])) := by
  have length : ([0x22] ++ keyName.val ++ [0x22, 0x3A]).length = keyName.val.length + 3 := by
    simp only [List.length_append, List.length_cons, List.length_nil]
    omega
  have bound : jsonWebTokenMaxBufferSize = 65536 := rfl
  rw [putKeyName]
  rw [length, Exec.assert_of (by omega), Exec.ok_bind, if_pos (by omega)]

/-- A member behind its comma. -/
theorem packMember_eq {buf comma : Bytes} {member : CString × Bytes} (named : member.1.val ≠ [])
    (first : comma = if buf.getLast? = some 0x7B then [] else [0x2C])
    (fits : buf.length + comma.length + (memberBytes member).length < jsonWebTokenMaxBufferSize) :
    packMember buf member = .ok (buf ++ (comma ++ memberBytes member)) := by
  have bound : jsonWebTokenMaxBufferSize = 65536 := rfl
  rw [memberBytes_length] at fits
  have positive := List.length_pos_iff.2 named
  have starts : putComma buf = .ok (buf ++ comma) := by
    rw [putComma]
    split at first
    next same => rw [if_pos same, first, List.append_nil]
    next other =>
      rw [first] at fits ⊢
      rw [if_neg other, put_of_le (by omega)]
  have value (start : Bytes)
      (room : start.length + member.2.length ≤ jsonWebTokenMaxBufferSize) :
      putValue start member.2 member.2.length = .ok (start ++ member.2) := by
    rw [putValue]
    split
    next => rw [Int.toNat_natCast, List.take_length, put_of_le room]
    next empty =>
      rw [List.length_eq_zero_iff.1 (show member.2.length = 0 by omega), List.append_nil]
  rw [packMember]
  dsimp only
  rw [asInt_of_lt (by omega), asInt_of_lt (by omega), Exec.assert_of (by omega), Exec.ok_bind,
    starts, Exec.ok_bind, Exec.assert_of (by rw [List.length_append]; omega), Exec.ok_bind,
    putKeyName_of_lt (by rw [List.length_append]; omega), Exec.ok_bind, put_of_le, Exec.ok_bind,
    value, Exec.ok_bind, put_of_le]
  · simp only [memberBytes, List.append_assoc, List.cons_append, List.nil_append]
  · simp only [List.length_append, List.length_cons, List.length_nil]
    omega
  · simp only [List.length_append, List.length_cons, List.length_nil]
    omega
  · simp only [List.length_append, List.length_cons, List.length_nil]
    omega

/-- A member ends with a quote. -/
theorem getLast?_memberBytes (buf comma : Bytes) (member : CString × Bytes) :
    (buf ++ (comma ++ memberBytes member)).getLast? = some 0x22 := by
  rw [memberBytes, ← List.append_assoc, ← List.append_assoc]
  exact List.getLast?_concat

/-- All members, the first of them behind the brace or a comma. -/
theorem packMembers_eq : ∀ {members : List (CString × Bytes)} {buf comma : Bytes},
    members ≠ [] → (∀ member ∈ members, member.1.val ≠ []) →
    comma = (if buf.getLast? = some 0x7B then [] else [0x2C]) →
    buf.length + comma.length + (membersBytes members).length < jsonWebTokenMaxBufferSize →
      packMembers buf members = .ok (buf ++ (comma ++ membersBytes members))
  | [], _, _, nonempty, _, _, _ => absurd rfl nonempty
  | [last], buf, comma, _, named, first, fits => by
      rw [packMembers, packMember_eq (named last List.mem_cons_self) first fits, Exec.ok_bind]
      rfl
  | member :: second :: others, buf, comma, _, named, first, fits => by
      have bytes : membersBytes (member :: second :: others) =
          memberBytes member ++ 0x2C :: membersBytes (second :: others) := rfl
      rw [bytes, List.length_append, List.length_cons] at fits
      have next : ([0x2C] : Bytes) =
          if (buf ++ (comma ++ memberBytes member)).getLast? = some 0x7B then [] else [0x2C] := by
        rw [getLast?_memberBytes, if_neg (by decide)]
      have room : (buf ++ (comma ++ memberBytes member)).length + [(0x2C : UInt8)].length +
          (membersBytes (second :: others)).length < jsonWebTokenMaxBufferSize := by
        rw [List.length_append, List.length_append, List.length_singleton]
        omega
      rw [packMembers, packMember_eq (named member List.mem_cons_self) first (by omega),
        Exec.ok_bind, packMembers_eq (List.cons_ne_nil _ _)
          (fun other inside => named other (List.mem_cons_of_mem _ inside)) next room, bytes]
      simp only [List.append_assoc, List.cons_append, List.nil_append]

/-- What is packed, up to the closing brace. -/
theorem packMembers_object {jobj : JsonObject} (named : ∀ member ∈ jobj.members, member.1.val ≠ [])
    (fits : (objectBytes jobj).length ≤ jsonWebTokenMaxBufferSize) :
    packMembers [0x7B] jobj.members = .ok (0x7B :: membersBytes jobj.members) := by
  cases members : jobj.members with
  | nil => rfl
  | cons first others =>
      rw [objectBytes, members, List.length_cons, List.length_append, List.length_singleton] at fits
      have room : [0x7B].length + ([] : Bytes).length + (membersBytes (first :: others)).length <
          jsonWebTokenMaxBufferSize := by
        rw [List.length_singleton, List.length_nil]
        omega
      exact packMembers_eq (List.cons_ne_nil _ _) (members ▸ named) rfl room

/-! ## Segments -/

/-- The characters of bytes, without padding. -/
def segmentOf (data : Bytes) : Bytes := (toSextets (data.map UInt8.toNat)).map url.char

/-- The padding that was cut off. -/
def repad (segment : Bytes) : Bytes :=
  segment ++ List.replicate ((4 - segment.length % 4) % 4) padding

instance inUrlTable (chars : Bytes) : Decidable (∀ char ∈ chars, char ∈ url.table) :=
  List.decidableBAll (· ∈ url.table) chars

/-- The bytes of a text of whole groups. -/
def urlDecode (text : Bytes) : Option Bytes :=
  let chars := text.takeWhile (· ≠ padding)
  if text.length % 4 = 0 ∧ (∀ char ∈ chars, char ∈ url.table) ∧
      text.drop chars.length ∈ [[], [padding], [padding, padding]] then
    some (url.bytes chars)
  else none

theorem segmentOf_length (data : Bytes) :
    (segmentOf data).length = (data.length * 4 + 2) / 3 := by
  rw [segmentOf, List.length_map, toSextets_length, List.length_map]

theorem segmentOf_mem {data : Bytes} : ∀ char ∈ segmentOf data, char ∈ url.table := by
  intro char member
  obtain ⟨sextet, inBits, rfl⟩ := List.mem_map.1 member
  exact url.char_mem (toSextets_lt (toNat_bounded data) sextet inBits)

theorem segmentOf_ne_padding (data : Bytes) : ∀ char ∈ segmentOf data, char ≠ padding := by
  intro char member same
  exact url.padding_not_mem (same ▸ segmentOf_mem char member)

theorem text_eq_segmentOf (data : Bytes) :
    url.text data = segmentOf data ++ List.replicate ((3 - data.length % 3) % 3) padding := rfl

/-- The padding comes back. -/
theorem repad_segmentOf (data : Bytes) : repad (segmentOf data) = url.text data := by
  have count : (4 - (segmentOf data).length % 4) % 4 = (3 - data.length % 3) % 3 := by
    rw [segmentOf_length]
    have residue : data.length % 3 = 0 ∨ data.length % 3 = 1 ∨ data.length % 3 = 2 := by omega
    rcases residue with none | one | two
    · omega
    · omega
    · omega
  rw [repad, count, text_eq_segmentOf]

theorem urlDecode_text (data : Bytes) : urlDecode (url.text data) = some data := by
  have chars : (url.text data).takeWhile (· ≠ padding) = segmentOf data := by
    rw [text_eq_segmentOf, List.takeWhile_append_of_pos]
    · have none : (List.replicate ((3 - data.length % 3) % 3) padding).takeWhile
          (· ≠ padding) = [] := by
        cases (3 - data.length % 3) % 3 with
        | zero => rfl
        | succ count => rfl
      rw [none, List.append_nil]
    · intro char member
      exact decide_eq_true (segmentOf_ne_padding _ char member)
  have groups : (url.text data).length % 4 = 0 := by
    rw [Alphabet.text_length]
    exact Nat.mul_mod_left _ _
  have tail : (url.text data).drop (segmentOf data).length ∈
      [[], [padding], [padding, padding]] := by
    rw [text_eq_segmentOf, List.drop_left]
    have few : (3 - data.length % 3) % 3 < 3 := Nat.mod_lt _ (by decide)
    generalize (3 - data.length % 3) % 3 = count at few
    match count, few with
    | 0, _ => decide
    | 1, _ => decide
    | 2, _ => decide
  rw [urlDecode]
  rw [chars, if_pos ⟨groups, segmentOf_mem, tail⟩]
  exact congrArg some (url.bytes_text data)

/-- The padding is cut off, and NULs stand in its place. -/
theorem stripPadding_eq {body : Bytes} (bare : ∀ char ∈ body, char ≠ padding) :
    ∀ (count : Nat) (rest : Bytes),
      stripPadding (body.length + count) (body ++ (List.replicate count padding ++ rest)) =
        .ok (body.length, body ++ (List.replicate count 0 ++ rest))
  | 0, rest => by
      rw [Nat.add_zero]
      cases length : body.length with
      | zero => rfl
      | succ before =>
          have inside : before < body.length := by omega
          have reads : Exec.readAt (body ++ (List.replicate 0 padding ++ rest)) before =
              .ok body[before] := by
            rw [Exec.readAt_eq_ok, List.getElem?_append_left inside, List.getElem?_eq_getElem]
          rw [stripPadding, reads, Exec.ok_bind, if_neg (bare _ (List.getElem_mem inside))]
          rfl
  | count + 1, rest => by
      have cells : body ++ (List.replicate (count + 1) padding ++ rest) =
          (body ++ List.replicate count padding) ++ padding :: rest := by
        rw [List.replicate_succ', List.append_assoc, List.append_assoc]
        rfl
      have length : (body ++ List.replicate count padding).length = body.length + count := by
        rw [List.length_append, List.length_replicate]
      have reads : Exec.readAt ((body ++ List.replicate count padding) ++ padding :: rest)
          (body.length + count) = .ok padding := by
        rw [Exec.readAt_eq_ok, ← length, List.getElem?_append_right (le_refl _), Nat.sub_self]
        rfl
      have writes : Exec.writeAt ((body ++ List.replicate count padding) ++ padding :: rest)
          (body.length + count) 0 =
            .ok (body ++ (List.replicate count padding ++ 0 :: rest)) := by
        rw [Exec.writeAt_of_lt (by rw [List.length_append, length, List.length_cons]; omega),
          ← length, List.set_append_right _ _ (le_refl _), Nat.sub_self, List.append_assoc]
        rfl
      rw [← Nat.add_assoc, stripPadding, cells, reads, Exec.ok_bind, if_pos rfl, writes,
        Exec.ok_bind, stripPadding_eq bare count (0 :: rest), List.replicate_succ',
        List.append_assoc]
      rfl

/-- The segment is written with a NUL, and its length is returned. -/
def Packs (jobj : JsonObject) (segment : Bytes) : Prop :=
  ∀ cells, HasRoom ((repad segment).length + 1) cells →
    ∃ stored, packJsonObjectBase64 jobj cells = .ok (segment.length, stored) ∧
      stored.take (segment.length + 1) = segment ++ [0]

/-- An object that fits the buffer is packed. -/
theorem packJsonObjectBase64_packs {jobj : JsonObject}
    (named : ∀ member ∈ jobj.members, member.1.val ≠ [])
    (fits : (objectBytes jobj).length ≤ jsonWebTokenMaxBufferSize) :
    Packs jobj (segmentOf (objectBytes jobj)) := by
  intro cells room
  have bound : jsonWebTokenMaxBufferSize = 65536 := rfl
  rw [repad_segmentOf] at room
  obtain ⟨stored, encodes, holds⟩ := Variant.encodesTo_text .url
    (List.cons_ne_nil 0x7B (membersBytes jobj.members ++ [0x7D]))
    (show (objectBytes jobj).length * 4 < 2 ^ 64 by omega) cells room
  have closes : (0x7B :: membersBytes jobj.members).length + [(0x7D : UInt8)].length ≤
      jsonWebTokenMaxBufferSize := by
    rw [objectBytes, List.length_cons, List.length_append] at fits
    rw [List.length_cons]
    omega
  generalize tail : stored.drop ((url.text (objectBytes jobj)).length + 1) = rest
  have split : stored = segmentOf (objectBytes jobj) ++
      (List.replicate ((3 - (objectBytes jobj).length % 3) % 3) padding ++ 0 :: rest) := by
    have whole := List.take_append_drop ((url.text (objectBytes jobj)).length + 1) stored
    have front : stored.take ((url.text (objectBytes jobj)).length + 1) =
        url.text (objectBytes jobj) ++ [0] := holds
    rw [← whole, front, tail, text_eq_segmentOf]
    simp only [List.append_assoc, List.cons_append, List.nil_append]
  have length : (url.text (objectBytes jobj)).length = (segmentOf (objectBytes jobj)).length +
      (3 - (objectBytes jobj).length % 3) % 3 := by
    rw [text_eq_segmentOf, List.length_append, List.length_replicate]
  have positive : 0 < (url.text (objectBytes jobj)).length := by
    have nonempty : 0 < (objectBytes jobj).length := Nat.succ_pos _
    rw [Alphabet.text_length]
    omega
  have stripped := stripPadding_eq (segmentOf_ne_padding (objectBytes jobj))
    ((3 - (objectBytes jobj).length % 3) % 3) (0 :: rest)
  refine ⟨segmentOf (objectBytes jobj) ++
    (List.replicate ((3 - (objectBytes jobj).length % 3) % 3) 0 ++ 0 :: rest), ?_, ?_⟩
  · rw [packJsonObjectBase64, put_of_le (by decide), Exec.ok_bind, List.nil_append,
      packMembers_object named fits, Exec.ok_bind, put_of_le closes, Exec.ok_bind]
    apply (congrArg (· >>= _) encodes).trans
    have written : Exec.assert (0 < (Variant.url.alphabet.text
        (0x7B :: (membersBytes jobj.members ++ [0x7D]))).length) = .ok () :=
      Exec.assert_of positive
    rw [Exec.ok_bind]
    dsimp only
    rw [written, Exec.ok_bind]
    show stripPadding (url.text (objectBytes jobj)).length stored = _
    rw [length, split, stripped]
  · rw [List.take_length_add_append]
    cases (3 - (objectBytes jobj).length % 3) % 3 with
    | zero => rfl
    | succ count => rfl

/-! ## Claims -/

namespace Claims

variable (claims : Claims)

theorem jobj_members : claims.jobj.members.map (fun member => (member.1.val, member.2)) =
    claims.members.map (fun member => (utf8 member.1, utf8 member.2)) := by
  rw [jobj, List.map_map]
  exact List.attach_map_val (f := fun member : Member => (utf8 member.1, utf8 member.2))

end Claims

theorem memberBytes_eq {member : CString × Bytes} {text : Member}
    (same : (member.1.val, member.2) = (utf8 text.1, utf8 text.2)) :
    memberBytes member = utf8 (bareMember text) := by
  obtain ⟨name, value⟩ := Prod.mk.inj same
  rw [memberBytes, name, value, bareMember, quoted, quoted, utf8_append, utf8_cons, utf8_cons,
    utf8_cons, utf8_append, utf8_append]
  simp only [List.append_assoc]
  rfl

theorem membersBytes_eq : ∀ {members : List (CString × Bytes)} {texts : List Member},
    members.map (fun member => (member.1.val, member.2)) =
      texts.map (fun member => (utf8 member.1, utf8 member.2)) →
    membersBytes members = utf8 (bareMembers texts)
  | [], [], _ => rfl
  | [], _ :: _, same => nomatch same
  | _ :: _, [], same => nomatch same
  | [last], [text], same => memberBytes_eq (List.cons.inj same).1
  | [_], _ :: _ :: _, same => nomatch (List.cons.inj same).2
  | _ :: _ :: _, [_], same => nomatch (List.cons.inj same).2
  | first :: second :: others, text :: next :: texts, same => by
      obtain ⟨here, later⟩ := List.cons.inj same
      have bytes : utf8 (bareMembers (text :: next :: texts)) =
          utf8 (bareMember text) ++ 0x2C :: utf8 (bareMembers (next :: texts)) := by
        rw [bareMembers, utf8_append, utf8_cons]
        · rfl
        · exact List.cons_ne_nil _ _
      rw [bytes, ← memberBytes_eq here, ← membersBytes_eq later]
      rfl

namespace Claims

variable (claims : Claims)

theorem objectBytes_jobj : objectBytes claims.jobj = utf8 (bare claims.members) := by
  rw [objectBytes, membersBytes_eq claims.jobj_members, bare, utf8_cons, utf8_append]
  rfl

theorem jobj_named : ∀ member ∈ claims.jobj.members, member.1.val ≠ [] := by
  intro member inside
  obtain ⟨claim, -, rfl⟩ := List.mem_map.1 inside
  exact utf8_ne_nil (claims.named claim.val claim.property)

/-- The text without escapes fits the buffer. -/
def Fits : Prop := (utf8 (bare claims.members)).length ≤ jsonWebTokenMaxBufferSize

/-- The segment, padded and decoded, is a text of JSON that stands for the claims. -/
def Comes (segment : Bytes) : Prop :=
  ∃ text, urlDecode (repad segment) = some (utf8 text) ∧ Denotes text claims.members

theorem packs {claims : Claims} (fits : claims.Fits) :
    Packs claims.jobj (segmentOf (utf8 (bare claims.members))) := by
  rw [← objectBytes_jobj]
  apply packJsonObjectBase64_packs claims.jobj_named
  rw [objectBytes_jobj]
  exact fits

end Claims

/-- One object has one segment. -/
theorem Packs.unique {jobj : JsonObject} {segment other : Bytes} (first : Packs jobj segment)
    (second : Packs jobj other) : segment = other := by
  obtain ⟨stored, packs, holds⟩ := first none fun array same => nomatch same
  obtain ⟨again, packsAgain, holdsAgain⟩ := second none fun array same => nomatch same
  rw [packs] at packsAgain
  injection packsAgain with same
  obtain ⟨length, rfl⟩ := Prod.mk.inj same
  rw [← length, holds] at holdsAgain
  exact List.append_cancel_right holdsAgain

/-- The segment of claims says just what they say when, and only when, no name and no value has a
quote, a backslash or a control character; such maps have the same segment only when they are
the same. -/
theorem packJsonObjectBase64_claims_iff (claims other : Claims) (fits : claims.Fits)
    (otherFits : other.Fits) :
    ((∃ segment, Packs claims.jobj segment ∧ claims.Comes segment) ↔ AllPlain claims.members) ∧
    (AllPlain claims.members → AllPlain other.members →
      (∃ segment, Packs claims.jobj segment ∧ Packs other.jobj segment) →
        ∀ name, claims.members.lookup name = other.members.lookup name) := by
  have decodes (map : Claims) : urlDecode (repad (segmentOf (utf8 (bare map.members)))) =
      some (utf8 (bare map.members)) := by
    rw [repad_segmentOf, urlDecode_text]
  constructor
  · rw [← denotes_bare_iff claims.distinct]
    constructor
    · intro comes
      obtain ⟨segment, packs, text, read, denotes⟩ := comes
      rw [packs.unique (Claims.packs fits), decodes] at read
      injection read with same
      rw [utf8_inj same]
      exact denotes
    · intro denotes
      exact ⟨_, Claims.packs fits, _, decodes claims, denotes⟩
  · intro plain otherPlain shared
    obtain ⟨segment, packs, otherPacks⟩ := shared
    have same : segmentOf (utf8 (bare claims.members)) = segmentOf (utf8 (bare other.members)) := by
      rw [← packs.unique (Claims.packs fits), otherPacks.unique (Claims.packs otherFits)]
    have texts : some (utf8 (bare claims.members)) = some (utf8 (bare other.members)) := by
      rw [← decodes claims, ← decodes other, same]
    have equal : bare claims.members = bare other.members := utf8_inj (Option.some.inj texts)
    have denotes := (denotes_bare_iff claims.distinct).2 plain
    rw [equal] at denotes
    exact denotes_unique denotes ((denotes_bare_iff other.distinct).2 otherPlain)

/-- Two claims. -/
def honest : Claims where
  members := [(['s', 'u', 'b'], ['a']), (['a', 'd', 'm'], ['1'])]
  distinct := by decide
  named := by decide
  noNul := by decide

/-- One claim, with the other one in its value. -/
def forged : Claims where
  members := [(['s', 'u', 'b'],
    ['a', '"', ',', '"', 'a', 'd', 'm', '"', ':', '"', '1'])]
  distinct := by decide
  named := by decide
  noNul := by decide

/-- Plain claims come back. -/
theorem packJsonObjectBase64_honest :
    ∃ segment, Packs honest.jobj segment ∧ honest.Comes segment := by
  have fits : honest.Fits := by
    rw [Claims.Fits]
    decide
  have plain : AllPlain honest.members := by decide
  exact (packJsonObjectBase64_claims_iff honest honest fits fits).1.2 plain

/-- A claim in the value of another one is signed with it. -/
theorem packJsonObjectBase64_forged :
    (∃ segment, Packs forged.jobj segment ∧ Packs honest.jobj segment) ∧
      forged.members.lookup ['a', 'd', 'm'] = none ∧
      honest.members.lookup ['a', 'd', 'm'] = some ['1'] := by
  have fits : honest.Fits := by
    rw [Claims.Fits]
    decide
  have same : bare forged.members = bare honest.members := by decide
  have forgedFits : forged.Fits := by
    rw [Claims.Fits, same]
    exact fits
  have packs := Claims.packs forgedFits
  rw [same] at packs
  exact ⟨⟨_, packs, Claims.packs fits⟩, by decide, by decide⟩

end BitcoinClib.Encoding.JsonWebToken
