import BitcoinClib.Encoding.Base64
import Mathlib.Data.List.Nodup

/-!
Contract: the segments of `json-web-token.c`.

Owns:
- `JsonObject`, an object of json-c whose values are strings, and `jwt_add_claims`;
- `pack_json_object_base64`.

Does not own: keys and signatures. An object of json-c keeps its members in the order in which
their names were first added.
-/

namespace BitcoinClib.Encoding.JsonWebToken

open BitcoinClib.Lib
open BitcoinClib.Types
open BitcoinClib.Encoding.Base64

/-- `JSON_WEB_TOKEN_MAX_BUFFER_SIZE` -/
def jsonWebTokenMaxBufferSize : Nat := 65536

/-- The bytes of a string in front of its NUL. -/
abbrev CString := { bytes : Bytes // 0 ∉ bytes }

/-- Members with distinct names. -/
structure JsonObject where
  members : List (CString × Bytes)
  distinct : (members.map Prod.fst).Nodup

/-- `json_object_new_object` -/
def jsonObjectNewObject : JsonObject := ⟨[], List.nodup_nil⟩

/-- A member of the name is replaced where it stands, or a new one comes last. -/
def setMember (key : CString) (value : Bytes) : List (CString × Bytes) → List (CString × Bytes)
  | [] => [(key, value)]
  | (name, old) :: rest =>
      if name = key then (name, value) :: rest else (name, old) :: setMember key value rest

theorem setMember_names (key : CString) (value : Bytes) : ∀ members : List (CString × Bytes),
    (setMember key value members).map Prod.fst =
      if key ∈ members.map Prod.fst then members.map Prod.fst else members.map Prod.fst ++ [key]
  | [] => rfl
  | (name, old) :: rest => by
      rw [setMember]
      split
      next same =>
        rw [List.map_cons, List.map_cons, if_pos (List.mem_cons.2 (.inl same.symm))]
      next other =>
        rw [List.map_cons, List.map_cons, setMember_names key value rest]
        by_cases later : key ∈ rest.map Prod.fst
        · rw [if_pos later, if_pos (List.mem_cons_of_mem _ later)]
        · have absent : key ∉ name :: rest.map Prod.fst := by
            intro member
            rcases List.mem_cons.1 member with same | inside
            · exact other same.symm
            · exact later inside
          rw [if_neg later, if_neg absent, List.cons_append]

/-- `json_object_object_add` -/
def jsonObjectObjectAdd (jobj : JsonObject) (key : CString) (value : Bytes) : JsonObject where
  members := setMember key value jobj.members
  distinct := by
    rw [setMember_names]
    split
    next => exact jobj.distinct
    next absent => simpa using jobj.distinct.concat absent

/-- `jwt_add_claims`: the arguments up to the NULL; a value may be NULL. -/
def jwtAddClaims (jclaims : JsonObject) (arguments : List (CString × Option CString)) :
    JsonObject :=
  arguments.foldl (fun jclaims argument =>
    jsonObjectObjectAdd jclaims argument.1 (argument.2.elim [] Subtype.val)) jclaims

theorem setMember_of_not_mem {key : CString} (value : Bytes) :
    ∀ {members : List (CString × Bytes)}, key ∉ members.map Prod.fst →
      setMember key value members = members ++ [(key, value)]
  | [], _ => rfl
  | (name, old) :: rest, absent => by
      rw [List.map_cons] at absent
      have other : name ≠ key := (List.ne_of_not_mem_cons absent).symm
      rw [setMember, if_neg other, setMember_of_not_mem value (List.not_mem_of_not_mem_cons absent)]
      rfl

/-- Claims with new names come in the order of the arguments. -/
theorem jwtAddClaims_members : ∀ {arguments : List (CString × Option CString)}
    {jclaims : JsonObject},
    (jclaims.members.map Prod.fst ++ arguments.map Prod.fst).Nodup →
      (jwtAddClaims jclaims arguments).members = jclaims.members ++
        arguments.map fun argument => (argument.1, argument.2.elim [] Subtype.val)
  | [], jclaims, _ => (List.append_nil _).symm
  | argument :: arguments, jclaims, distinct => by
      have moved : (jclaims.members.map Prod.fst ++ [argument.1] ++
          arguments.map Prod.fst).Nodup := by
        rw [List.append_assoc]
        exact distinct
      have absent : argument.1 ∉ jclaims.members.map Prod.fst := by
        intro member
        exact List.disjoint_of_nodup_append (List.Nodup.of_append_left moved) member
          (List.mem_singleton_self _)
      have added : (jsonObjectObjectAdd jclaims argument.1
          (argument.2.elim [] Subtype.val)).members =
            jclaims.members ++ [(argument.1, argument.2.elim [] Subtype.val)] :=
        setMember_of_not_mem _ absent
      have names : (jsonObjectObjectAdd jclaims argument.1
          (argument.2.elim [] Subtype.val)).members.map Prod.fst =
            jclaims.members.map Prod.fst ++ [argument.1] := by
        rw [added, List.map_append]
        rfl
      rw [jwtAddClaims, List.foldl_cons]
      apply (jwtAddClaims_members (by rw [names]; exact moved)).trans
      rw [added, List.map_cons, List.append_assoc]
      rfl

/-- A `size_t` as an `int`. -/
def asInt (value : Nat) : Int := Int.bmod value (2 ^ 32)

/-- Bytes are written to the place that `p` points to. -/
def put (buf bytes : Bytes) : Exec Bytes :=
  if buf.length + bytes.length ≤ jsonWebTokenMaxBufferSize then .ok (buf ++ bytes)
  else .fault .bounds

/-- A comma, unless the opening brace is in front of `p`. -/
def putComma (buf : Bytes) : Exec Bytes :=
  if buf.getLast? = some 0x7B then .ok buf else put buf [0x2C]

/-- `snprintf(p, p_end - p, "\"%s\":", key_name)` with its check. It returns an `int`; behind a
text that is cut off, the next write is out of bounds. -/
def putKeyName (buf : Bytes) (keyName : CString) : Exec Bytes := do
  let text := [0x22] ++ keyName.val ++ [0x22, 0x3A]
  Exec.assert (text.length < 2 ^ 31)
  if buf.length + text.length < jsonWebTokenMaxBufferSize then .ok (buf ++ text)
  else .fault .bounds

/-- `memcpy(p, value, cb_value)` -/
def putValue (buf value : Bytes) (cbValue : Int) : Exec Bytes :=
  if 0 < cbValue then put buf (value.take cbValue.toNat) else .ok buf

/-- The body of the loop over the members. -/
def packMember (buf : Bytes) (member : CString × Bytes) : Exec Bytes := do
  let cbKey := asInt member.1.val.length
  Exec.assert (0 < cbKey)
  let cbValue := asInt member.2.length
  let buf ← putComma buf
  Exec.assert (buf.length + 3 + cbKey + 2 + cbValue < jsonWebTokenMaxBufferSize)
  let buf ← putKeyName buf member.1
  let buf ← put buf [0x22]
  let buf ← putValue buf member.2 cbValue
  put buf [0x22]

def packMembers : Bytes → List (CString × Bytes) → Exec Bytes
  | buf, [] => .ok buf
  | buf, member :: members => do
      let buf ← packMember buf member
      packMembers buf members

/-- The loop that cuts off the padding: what is left of the length, and the cells. -/
def stripPadding : Nat → Bytes → Exec (Nat × Bytes)
  | 0, cells => .ok (0, cells)
  | length + 1, cells => do
      let char ← Exec.readAt cells length
      if char = padding then do
        let cells ← Exec.writeAt cells length 0
        stripPadding length cells
      else .ok (length + 1, cells)

/-- `pack_json_object_base64` with what `*p_b64_string` is on entry: the length it returns, and
what lies there. -/
def packJsonObjectBase64 (jobj : JsonObject) (pB64String : Option Bytes) : Exec (Nat × Bytes) := do
  let buf ← put [] [0x7B]
  let buf ← packMembers buf jobj.members
  let buf ← put buf [0x7D]
  let (length, cells) ← base64Urlencode buf (some pB64String)
  Exec.assert (0 < length)
  let cells ← Exec.deref (cells.bind id)
  stripPadding length cells

end BitcoinClib.Encoding.JsonWebToken
