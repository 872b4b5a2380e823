import BitcoinClib.Lib.Buffer
import BitcoinClib.Lib.SearchTree
import BitcoinClib.Types.Bytes
import Mathlib.Data.List.Lex

/-!
Contract: the requests of `json-rpc.c`.

Owns:
- `json_rpc_request_data_t` in memory, with `json_rpc_request_data_new` and `_free`;
- the registry of requests, a tree of `tsearch`, and their history, a ring;
- `request` as far as it uses them, and `bitcoin_cli_context_private_free`;
- `json_rpc_request_data_compare` as the order of the keys.

Does not own: HTTP, the response, or the counts inside json-c, whose calls are recorded in turn.
Memory for a request is given, and no address is given twice.
-/

namespace BitcoinClib.Rpc

open BitcoinClib.Lib
open BitcoinClib.Types

/-! ## Strings -/

/-- `char cells[size]` -/
abbrev CharArray (size : Nat) := { cells : Bytes // cells.length = size }

/-- `strncpy(cells, source, size)`; the source ends at its first zero byte. -/
def strncpy (source : Bytes) (size : Nat) : CharArray size :=
  let chars := (source.takeWhile (· ≠ 0)).take size
  ⟨chars ++ List.replicate (size - chars.length) 0, by
    have short : chars.length ≤ size := List.length_take_le _ _
    rw [List.length_append, List.length_replicate, Nat.add_sub_of_le short]⟩

/-- `tolower` in the C locale. -/
def tolower (char : UInt8) : UInt8 := if 0x41 ≤ char ∧ char ≤ 0x5a then char + 0x20 else char

/-- `strncasecmp` on two arrays of the size it is given. -/
def strncasecmp : Bytes → Bytes → Int
  | left :: lefts, right :: rights =>
      if tolower left = tolower right then
        if left = 0 then 0 else strncasecmp lefts rights
      else (tolower left).toNat - (tolower right).toNat
  | _, _ => 0

/-- The characters up to the first zero byte, in lower case: what `strncasecmp` tells apart. -/
def foldChars (cells : Bytes) : Bytes := (cells.takeWhile (· ≠ 0)).map tolower

/-! ## Requests -/

/-- `struct json_rpc_request_data` -/
structure RequestData (Json : Type) where
  id : CharArray 100
  command : CharArray 200
  jparams : Option Json
  sequence : Nat
  index : Nat

/-- The calls to json-c about parameters. -/
inductive JsonCall (Json : Type) where
  | get (jobj : Json)
  | put (jobj : Json)

/-- `JSON_RPC_REQUESTS_MAX_HISTORY` -/
def jsonRpcRequestsMaxHistory : Nat := 100

/-- The part of `struct bitcoin_cli_context_private` that holds requests, with the memory of the
requests, where a freed one is gone. -/
structure CliContextPrivate (Json : Type) where
  memory : List (Option (RequestData Json))
  jsonCalls : List (JsonCall Json)
  requestsRoot : List Nat
  history : List (Option Nat)
  maxHistory : Nat
  count : Nat
  sequence : Nat

variable {Json : Type}

/-- `bitcoin_cli_context_private_new` -/
def bitcoinCliContextPrivateNew : CliContextPrivate Json :=
  ⟨[], [], [], List.replicate jsonRpcRequestsMaxHistory none, 0, 0, 0⟩

/-- The request behind a pointer. -/
def requestAt (memory : List (Option (RequestData Json))) (p : Nat) : Exec (RequestData Json) :=
  Exec.deref memory[p]?.join

/-- `json_rpc_request_data_compare` -/
def jsonRpcRequestDataCompare (memory : List (Option (RequestData Json))) (a b : Nat) :
    Exec Int := do
  let left ← requestAt memory a
  let right ← requestAt memory b
  .ok (strncasecmp left.id.val right.id.val)

/-- The key under which the registry holds a request. -/
def registryKey (memory : List (Option (RequestData Json))) (p : Nat) : Exec Bytes := do
  let data ← requestAt memory p
  .ok (foldChars data.id.val)

/-- `json_rpc_request_data_free` -/
def jsonRpcRequestDataFree (priv : CliContextPrivate Json) (req : Option Nat) :
    Exec (CliContextPrivate Json) :=
  match req with
  | none => .ok priv
  | some p => do
      let data ← requestAt priv.memory p
      .ok { priv with
        memory := priv.memory.set p none
        jsonCalls := priv.jsonCalls ++ (data.jparams.map JsonCall.put).toList }

/-- The text that `uuid_unparse` writes. -/
abbrev UuidText := { text : Bytes // text.length = 36 }

/-- The id of a new request: the one it is given, or a generated one for NULL and the empty
string. -/
def newRequestId (id : Option Bytes) (uuid : UuidText) : CharArray 100 :=
  match id with
  | some chars => if chars.headD 0 ≠ 0 then strncpy chars 100 else strncpy uuid.val 100
  | none => strncpy uuid.val 100

/-- A request from `calloc`, with its id. -/
def blankRequest (id : CharArray 100) : RequestData Json := ⟨id, strncpy [] 200, none, 0, 0⟩

/-- The branch of `json_rpc_request_data_new` for a request that came into the registry: it takes
the next place of the history, and what was there is released. -/
def enterHistory (priv : CliContextPrivate Json) (req : Nat) : Exec (CliContextPrivate Json) := do
  let maxHistory := if priv.maxHistory = 0 then jsonRpcRequestsMaxHistory else priv.maxHistory
  let count ← Exec.checkedLong (priv.count + 1)
  let index := count % maxHistory
  let old ← Exec.readAt priv.history index
  let priv ← jsonRpcRequestDataFree { priv with maxHistory, count } old
  let data ← requestAt priv.memory req
  let history ← Exec.writeAt priv.history index (some req)
  .ok { priv with memory := priv.memory.set req (some { data with index }), history }

/-- The part of `json_rpc_request_data_new` that looks for the id: a request of that id is there
already, or a new one enters the registry. -/
def enterRegistry (priv : CliContextPrivate Json) (id : Option Bytes) (uuid : UuidText) :
    Exec (Nat × CliContextPrivate Json) := do
  let req := priv.memory.length
  let memory := priv.memory ++ [some (blankRequest (newRequestId id uuid))]
  let (node, requestsRoot) ← SearchTree.tsearch (registryKey memory) priv.requestsRoot req
  let priv := { priv with memory, requestsRoot }
  let priv ← if node ≠ req then jsonRpcRequestDataFree priv (some req) else enterHistory priv req
  .ok (node, priv)

/-- The end of `json_rpc_request_data_new`: what the request asks for. -/
def fillRequest (priv : CliContextPrivate Json) (req : Nat) (command : Bytes)
    (jparams : Option Json) : Exec (CliContextPrivate Json) := do
  let sequence ← Exec.checkedLong (priv.sequence + 1)
  let data ← requestAt priv.memory req
  let filled := { data with
    sequence
    command := strncpy command 200
    jparams := jparams.orElse fun _ => data.jparams }
  .ok { priv with
    sequence
    memory := priv.memory.set req (some filled)
    jsonCalls := priv.jsonCalls ++ (jparams.map JsonCall.get).toList }

/-- `json_rpc_request_data_new` -/
def jsonRpcRequestDataNew (priv : CliContextPrivate Json) (id : Option Bytes) (uuid : UuidText)
    (command : Bytes) (jparams : Option Json) : Exec (Nat × CliContextPrivate Json) := do
  let (req, priv) ← enterRegistry priv id uuid
  let priv ← fillRequest priv req command jparams
  .ok (req, priv)

/-- The arguments of `request` that make the request, and the uuid that is generated for it. -/
structure RequestCall (Json : Type) where
  requestId : Option Bytes
  uuid : UuidText
  command : Option Bytes
  jparams : Option Json

/-- The command `help`. -/
def helpCommand : Bytes := [0x68, 0x65, 0x6c, 0x70]

/-- `request`, up to what it sends and receives: the object that is sent takes over the reference
to the parameters, and `json_object_put` gives it back with the object. -/
def request (priv : CliContextPrivate Json) (call : RequestCall Json) :
    Exec (CliContextPrivate Json) := do
  let (req, priv) ← jsonRpcRequestDataNew priv call.requestId call.uuid
    (call.command.getD helpCommand) call.jparams
  let data ← requestAt priv.memory req
  .ok { priv with jsonCalls := priv.jsonCalls ++ (data.jparams.map JsonCall.put).toList }

/-- `bitcoin_cli_context_private_free` -/
def bitcoinCliContextPrivateFree (priv : CliContextPrivate Json) :
    Exec (CliContextPrivate Json) := do
  let priv ← SearchTree.tdestroy (fun priv p => jsonRpcRequestDataFree priv (some p))
    priv.requestsRoot priv
  .ok { priv with requestsRoot := [], count := 0 }

/-! ## Keys -/

theorem tolower_eq_zero {char : UInt8} : tolower char = 0 ↔ char = 0 := by
  rw [tolower]
  split
  next upper =>
    obtain ⟨low, high⟩ := upper
    rw [UInt8.le_iff_toNat_le] at low high
    rw [← UInt8.toNat_inj, ← UInt8.toNat_inj, UInt8.toNat_add]
    have low : 0x41 ≤ char.toNat := low
    have high : char.toNat ≤ 0x5a := high
    have shift : (0x20 : UInt8).toNat = 0x20 := rfl
    have zero : (0 : UInt8).toNat = 0 := rfl
    omega
  next other => rfl

theorem tolower_zero : tolower 0 = 0 := tolower_eq_zero.2 rfl

theorem tolower_pos {char : UInt8} (present : char ≠ 0) : 0 < (tolower char).toNat := by
  apply Nat.pos_of_ne_zero
  intro zero
  exact present (tolower_eq_zero.1 (UInt8.toNat_inj.1 zero))

theorem foldChars_cons_of_ne {char : UInt8} (cells : Bytes) (present : char ≠ 0) :
    foldChars (char :: cells) = tolower char :: foldChars cells := by
  rw [foldChars, List.takeWhile_cons_of_pos (by simpa using present), List.map_cons]
  rfl

theorem foldChars_cons_zero (cells : Bytes) : foldChars (0 :: cells) = [] := by
  rw [foldChars, List.takeWhile_cons_of_neg (by simp), List.map_nil]

/-- `strncasecmp` compares the strings without their case, a start of a string before the string. -/
theorem strncasecmp_order : ∀ {left right : Bytes}, left.length = right.length →
    (strncasecmp left right < 0 ∧ foldChars left < foldChars right) ∨
      (strncasecmp left right = 0 ∧ foldChars left = foldChars right) ∨
      (0 < strncasecmp left right ∧ foldChars right < foldChars left)
  | [], [], _ => Or.inr (Or.inl ⟨rfl, rfl⟩)
  | left :: lefts, right :: rights, sameLength => by
      have inner := strncasecmp_order (Nat.succ.inj sameLength)
      rw [strncasecmp]
      by_cases leftEnds : left = 0
      · subst leftEnds
        by_cases rightEnds : right = 0
        · subst rightEnds
          rw [if_pos rfl, if_pos rfl, foldChars_cons_zero, foldChars_cons_zero]
          exact Or.inr (Or.inl ⟨rfl, rfl⟩)
        · left
          have positive := tolower_pos rightEnds
          rw [tolower_zero, if_neg (fun same => rightEnds (tolower_eq_zero.1 same.symm)),
            foldChars_cons_zero, foldChars_cons_of_ne _ rightEnds]
          refine ⟨?_, List.nil_lt_cons _ _⟩
          show (0 : Int) - _ < 0
          omega
      · by_cases rightEnds : right = 0
        · subst rightEnds
          right
          right
          have positive := tolower_pos leftEnds
          rw [tolower_zero, if_neg (fun same => leftEnds (tolower_eq_zero.1 same)),
            foldChars_cons_zero, foldChars_cons_of_ne _ leftEnds]
          refine ⟨?_, List.nil_lt_cons _ _⟩
          show (0 : Int) < _ - 0
          omega
        · rw [foldChars_cons_of_ne _ leftEnds, foldChars_cons_of_ne _ rightEnds,
            List.cons_lt_cons_iff, List.cons_lt_cons_iff, List.cons.injEq]
          by_cases same : tolower left = tolower right
          · rw [if_pos same, if_neg leftEnds, same]
            simpa using inner
          · rw [if_neg same]
            have apart : (tolower left).toNat ≠ (tolower right).toNat :=
              fun equal => same (UInt8.toNat_inj.1 equal)
            rcases Nat.lt_or_gt_of_ne apart with less | more
            · left
              exact ⟨by omega, Or.inl (UInt8.lt_iff_toNat_lt.2 less)⟩
            · right
              right
              exact ⟨by omega, Or.inl (UInt8.lt_iff_toNat_lt.2 more)⟩

/-! ## Memory -/

section Memory

variable {memory : List (Option (RequestData Json))} {p q : Nat} {data stored : RequestData Json}

theorem requestAt_eq_ok : requestAt memory p = .ok data ↔ memory[p]? = some (some data) := by
  rw [requestAt, Exec.deref_eq_ok, Option.join_eq_some_iff]

theorem requestAt_append {more : List (Option (RequestData Json))} (old : p < memory.length) :
    requestAt (memory ++ more) p = requestAt memory p := by
  rw [requestAt, requestAt, List.getElem?_append_left old]

theorem requestAt_new : requestAt (memory ++ [some stored]) memory.length = .ok stored := by
  rw [requestAt_eq_ok, List.getElem?_concat_length]

theorem requestAt_set_of_ne {cell : Option (RequestData Json)} (other : q ≠ p) :
    requestAt (memory.set p cell) q = requestAt memory q := by
  rw [requestAt, requestAt, List.getElem?_set_ne other.symm]

theorem lt_of_requestAt (live : requestAt memory p = .ok data) : p < memory.length := by
  obtain ⟨inside, -⟩ := List.getElem?_eq_some_iff.1 (requestAt_eq_ok.1 live)
  exact inside

theorem requestAt_set (live : requestAt memory p = .ok data) :
    requestAt (memory.set p (some stored)) p = .ok stored := by
  rw [requestAt_eq_ok, List.getElem?_set_self (lt_of_requestAt live)]

/-- A released request is gone. -/
theorem requestAt_released : ¬ (requestAt (memory.set p none) p).Returns := by
  intro returns
  obtain ⟨data, live⟩ := returns
  have inside := lt_of_requestAt live
  rw [List.length_set] at inside
  rw [requestAt_eq_ok, List.getElem?_set_self inside] at live
  cases live

theorem registryKey_eq_ok {key : Bytes} : registryKey memory p = .ok key ↔
    ∃ data, requestAt memory p = .ok data ∧ foldChars data.id.val = key := by
  rw [registryKey, Exec.bind_eq_ok]
  constructor
  · intro found
    obtain ⟨data, live, same⟩ := found
    exact ⟨data, live, Exec.ok.inj same⟩
  · intro found
    obtain ⟨data, live, rfl⟩ := found
    exact ⟨data, live, rfl⟩

theorem registryKey_of_requestAt (live : requestAt memory p = .ok data) :
    registryKey memory p = .ok (foldChars data.id.val) := registryKey_eq_ok.2 ⟨data, live, rfl⟩

/-- What is written to a request leaves the keys alone, as long as it keeps its id. -/
theorem registryKey_set (live : requestAt memory p = .ok data) (same : stored.id = data.id) :
    registryKey (memory.set p (some stored)) q = registryKey memory q := by
  by_cases here : q = p
  · rw [here, registryKey_of_requestAt (requestAt_set live), registryKey_of_requestAt live, same]
  · rw [registryKey, registryKey, requestAt_set_of_ne here]

/-- The order of the registry is that of the keys. -/
theorem jsonRpcRequestDataCompare_order {left right : Bytes}
    (first : registryKey memory p = .ok left) (second : registryKey memory q = .ok right) :
    ∃ c, jsonRpcRequestDataCompare memory p q = .ok c ∧
      ((c < 0 ∧ left < right) ∨ (c = 0 ∧ left = right) ∨ (0 < c ∧ right < left)) := by
  obtain ⟨a, aLive, rfl⟩ := registryKey_eq_ok.1 first
  obtain ⟨b, bLive, rfl⟩ := registryKey_eq_ok.1 second
  refine ⟨_, ?_, strncasecmp_order (a.id.property.trans b.id.property.symm)⟩
  rw [jsonRpcRequestDataCompare, aLive, Exec.ok_bind, bLive, Exec.ok_bind]

end Memory

end BitcoinClib.Rpc
