import BitcoinClib.HeadersDb.Pages
import BitcoinClib.Types.Bytes

/-!
Contract: the lookups of `db_engine.c`.

Owns:
- `BerkeleyDb`, the operations of the database library, which is not part of the repository,
  `Serves`, what is documented of them, and an instance for each contents;
- `db_record_data_set`, `db_find` and `db_find_secondary`.

Does not own: transactions, printing of errors, insertion and the cursors of `db_cursor_t`.
Memory for results is given.
-/

namespace BitcoinClib.Db

open BitcoinClib.Lib
open BitcoinClib.Types
open BitcoinClib.HeadersDb (DbError)

/-! ## The database library -/

/-- The flags the lookups pass to a cursor. -/
inductive FindFlags where
  | set
  | nextDup
deriving DecidableEq, Repr

/-- A record behind a key: the key of the primary database, and the data. -/
structure Entry where
  key : Bytes
  value : Bytes
deriving DecidableEq, Repr

/-- An open database: `get`, `pget`, and its cursors. -/
structure BerkeleyDb where
  get : Bytes → Except DbError Bytes
  pget : Bytes → Except DbError Entry
  Cursor : Type
  cursor : Except DbError Cursor
  cursorGet : Cursor → FindFlags → Bytes → Except DbError Bytes × Cursor
  cursorPget : Cursor → FindFlags → Bytes → Except DbError Entry × Cursor

/-- The answer of a call: a record, or `DB_NOTFOUND`. -/
def answer {α : Type} : Option α → Except DbError α
  | some found => .ok found
  | none => .error .notFound

/-- The record a cursor is asked for: a key, and a place among the records of this key. -/
def target (position : Option (Bytes × Nat)) (key : Bytes) : FindFlags → Option (Bytes × Nat)
  | .set => some (key, 0)
  | .nextDup => position.map fun here => (here.1, here.2 + 1)

/-- The record at a place. -/
def entryAt (contents : Bytes → List Entry) (place : Option (Bytes × Nat)) : Option Entry :=
  place.bind fun here => (contents here.1)[here.2]?

/-- A call that finds no record leaves the cursor where it was. -/
def moved (contents : Bytes → List Entry) (position place : Option (Bytes × Nat)) :
    Option (Bytes × Nat) :=
  if (entryAt contents place).isSome then place else position

/-- The database has these records, in order, for each key. The size of a key is an
`u_int32_t`. -/
structure Serves (bdb : BerkeleyDb) (position : bdb.Cursor → Option (Bytes × Nat))
    (contents : Bytes → List Entry) : Prop where
  short : ∀ key, contents key ≠ [] → key.length < 2 ^ 32
  get : ∀ key, bdb.get key = answer ((contents key)[0]?.map Entry.value)
  pget : ∀ key, bdb.pget key = answer (contents key)[0]?
  opens : ∃ cursor, bdb.cursor = .ok cursor
  cursorGet : ∀ cursor flags key, ∃ next,
    bdb.cursorGet cursor flags key =
      (answer ((entryAt contents (target (position cursor) key flags)).map Entry.value), next) ∧
    position next = moved contents (position cursor) (target (position cursor) key flags)
  cursorPget : ∀ cursor flags key, ∃ next,
    bdb.cursorPget cursor flags key =
      (answer (entryAt contents (target (position cursor) key flags)), next) ∧
    position next = moved contents (position cursor) (target (position cursor) key flags)

/-- A database with these records. -/
def tableDb (contents : Bytes → List Entry) : BerkeleyDb where
  get key := answer ((contents key)[0]?.map Entry.value)
  pget key := answer (contents key)[0]?
  Cursor := Option (Bytes × Nat)
  cursor := .ok none
  cursorGet cursor flags key :=
    (answer ((entryAt contents (target cursor key flags)).map Entry.value),
      moved contents cursor (target cursor key flags))
  cursorPget cursor flags key :=
    (answer (entryAt contents (target cursor key flags)),
      moved contents cursor (target cursor key flags))

theorem tableDb_serves {contents : Bytes → List Entry}
    (short : ∀ key, contents key ≠ [] → key.length < 2 ^ 32) :
    Serves (tableDb contents) id contents where
  short := short
  get := fun _ => rfl
  pget := fun _ => rfl
  opens := ⟨none, rfl⟩
  cursorGet := fun _ _ _ => ⟨_, rfl, rfl⟩
  cursorPget := fun _ _ _ => ⟨_, rfl, rfl⟩

/-! ## Records of the caller -/

/-- `struct db_record_data`; `data` is NULL or a buffer. -/
structure DbRecordData where
  data : Option Bytes
  size : Int
  flags : Int
deriving DecidableEq, Repr

/-- A record of zeros, from `calloc` or `memset`. -/
def DbRecordData.zero : DbRecordData := ⟨none, 0, 0⟩

/-- `DBT`, as far as it is read. -/
structure Dbt where
  data : Option Bytes
  size : Nat
  /-- `flags & DB_DBT_MALLOC` -/
  malloc : Bool
deriving DecidableEq, Repr

/-- What a call with `DB_DBT_MALLOC` returns. -/
def Dbt.malloced (bytes : Bytes) : Dbt := ⟨some bytes, bytes.length, true⟩

/-- `memcpy` into a buffer. -/
def memcpyTo (buffer bytes : Bytes) (size : Nat) : Exec Bytes :=
  if size ≤ buffer.length ∧ size ≤ bytes.length then .ok (bytes.take size ++ buffer.drop size)
  else .fault .bounds

/-- `db_record_data_set` after its checks: the record, and what `value->data` is then. -/
def takeData (result : DbRecordData) (value : Dbt) (bytes : Bytes) :
    Exec (DbRecordData × Option Bytes) :=
  match result.data with
  | some buffer => do
      let data ← memcpyTo buffer bytes value.size
      .ok ({ result with data := some data }, value.data)
  | none =>
      if value.malloc then .ok ({ result with flags := 1, data := value.data }, none)
      else do
        let data ← memcpyTo (List.replicate value.size 0) bytes value.size
        .ok ({ result with flags := 1, data := some data }, value.data)

/-- `db_record_data_set` -/
def dbRecordDataSet (result : Option DbRecordData) (value : Dbt) :
    Exec (DbRecordData × Option Bytes) :=
  match value.data with
  | none => .fault .assertion
  | some bytes => do
      Exec.assert (value.size > 0)
      let result := result.getD .zero
      let result := if result.size = 0 then { result with size := value.size } else result
      Exec.assert (result.size = value.size)
      takeData result value bytes

/-- What a `db_record_data_t *` is: NULL, or the records behind it. -/
abbrev RecordArray := Option (List DbRecordData)

/-- `*p_values = db_record_data_set(*p_values, &value)`; what is left of `value` is freed. -/
def setFirst (records : RecordArray) (value : Dbt) : Exec RecordArray :=
  match records with
  | none => do
      let (record, _) ← dbRecordDataSet none value
      .ok (some [record])
  | some [] => .fault .bounds
  | some (first :: rest) => do
      let (record, _) ← dbRecordDataSet (some first) value
      .ok (some (record :: rest))

/-! ## The loop over a cursor -/

/-- The arrays that grow: `keys` is NULL when no keys are requested. -/
structure FindState where
  maxSize : Nat
  keys : RecordArray
  results : List DbRecordData
  count : Nat

/-- `MAX_RECORDS` -/
def maxRecords : Nat := 1024

/-- The arrays before the loop. -/
def FindState.initial (withKeys : Bool) : FindState where
  maxSize := maxRecords
  keys := if withKeys then some (List.replicate maxRecords .zero) else none
  results := List.replicate maxRecords .zero
  count := 0

/-- `db_record_data_set(&records[count], &value)`, in an array that was doubled when it was
full. -/
def pushRecord (records : List DbRecordData) (maxSize count : Nat) (bytes : Bytes) :
    Exec (List DbRecordData) :=
  let records := if count ≥ maxSize then records ++ List.replicate maxSize .zero else records
  match records[count]? with
  | none => .fault .bounds
  | some slot => do
      let (record, _) ← dbRecordDataSet (some slot) (.malloced bytes)
      .ok (records.set count record)

/-- `max_size` after the check for growth. -/
def grownSize (maxSize count : Nat) : Nat := if count ≥ maxSize then maxSize * 2 else maxSize

namespace FindState

/-- The body of the loop in `db_find`. -/
def pushValue (s : FindState) (value : Bytes) : Exec FindState := do
  let results ← pushRecord s.results s.maxSize s.count value
  .ok { s with maxSize := grownSize s.maxSize s.count, results := results, count := s.count + 1 }

/-- `if(keys) db_record_data_set(&keys[count], &key)` -/
def pushKey (s : FindState) (key : Bytes) : Exec RecordArray :=
  match s.keys with
  | none => .ok none
  | some keys => do
      let keys ← pushRecord keys s.maxSize s.count key
      .ok (some keys)

/-- The body of the loop in `db_find_secondary`. -/
def pushEntry (s : FindState) (entry : Entry) : Exec FindState := do
  let keys ← s.pushKey entry.key
  let s ← s.pushValue entry.value
  .ok { s with keys := keys }

/-- `realloc` to the records in use. -/
def shrink (s : FindState) (records : List DbRecordData) : RecordArray :=
  if s.count = 0 then none else some (records.take s.count)

end FindState

/-- `while(0 == rc)`, with the call for the next duplicate and the body. -/
def findLoop {Cursor α : Type} (next : Cursor → Except DbError α × Cursor)
    (push : FindState → α → Exec FindState) :
    Nat → Except DbError α × Cursor → FindState → Exec FindState
  | 0, _, _ => .timeout
  | _ + 1, (.error _, _), s => .ok s
  | fuel + 1, (.ok found, cursor), s => do
      let s ← push s found
      findLoop next push fuel (next cursor) s

/-! ## The lookups -/

/-- `struct db_handle`, as far as the lookups read it. -/
structure DbHandle where
  recordFlags : UInt32
deriving DecidableEq, Repr

/-- `db->record_flags & db_record_flags_multiple` -/
def DbHandle.multiple (db : DbHandle) : Bool := db.recordFlags &&& 0x8000 ≠ 0

/-- `key.data` and `key.size`, an `u_int32_t`. -/
def keyDbt (key : Bytes) : Bytes := key.take (key.length % 2 ^ 32)

/-- `db_find`: the number of records, and what `*p_values` is then. -/
def dbFind (bdb : BerkeleyDb) (fuel : Nat) (db : DbHandle) (key : Bytes)
    (pValues : Option RecordArray) : Exec (Nat × Option RecordArray) :=
  if ¬ db.multiple then
    match pValues with
    | none => .ok (1, none)
    | some values =>
      match bdb.get (keyDbt key) with
      | .error _ => .ok (1, some values)
      | .ok value => do
          let values ← setFirst values (.malloced value)
          .ok (1, some values)
  else
    match pValues, bdb.cursor with
    | none, _ => .fault .assertion
    | some _, .error _ => .fault .assertion
    | some _, .ok cursor => do
        let s ← findLoop (fun cursor => bdb.cursorGet cursor .nextDup (keyDbt key))
          FindState.pushValue fuel (bdb.cursorGet cursor .set (keyDbt key)) (.initial false)
        .ok (s.count, some (s.shrink s.results))

/-- `if(p_keys) *p_keys = db_record_data_set(*p_keys, &key)` -/
def setFirstKey (pKeys : Option RecordArray) (key : Bytes) : Exec (Option RecordArray) :=
  match pKeys with
  | none => .ok none
  | some keys => do
      let keys ← setFirst keys (.malloced key)
      .ok (some keys)

/-- The end of `db_find_secondary`. -/
def finishSecondary (pKeys : Option RecordArray) (values : RecordArray) (s : FindState) :
    Nat × Option RecordArray × Option RecordArray :=
  if s.count = 0 then (0, pKeys, some values)
  else (s.count, pKeys.map fun _ => s.keys.bind s.shrink, some (s.shrink s.results))

/-- `db_find_secondary`: the number of records, and what `*p_keys` and `*p_values` are then. -/
def dbFindSecondary (bdb : BerkeleyDb) (fuel : Nat) (db : DbHandle) (skey : Bytes)
    (pKeys pValues : Option RecordArray) :
    Exec (Nat × Option RecordArray × Option RecordArray) :=
  if ¬ db.multiple then
    match pValues with
    | none => .ok (1, pKeys, none)
    | some values =>
      match bdb.pget (keyDbt skey) with
      | .error _ => .ok (0, pKeys, some values)
      | .ok entry => do
          let keys ← setFirstKey pKeys entry.key
          let values ← setFirst values (.malloced entry.value)
          .ok (1, keys, some values)
  else
    match pValues, bdb.cursor with
    | none, _ => .fault .assertion
    | some _, .error _ => .fault .assertion
    | some values, .ok cursor => do
        let s ← findLoop (fun cursor => bdb.cursorPget cursor .nextDup (keyDbt skey))
          FindState.pushEntry fuel (bdb.cursorPget cursor .set (keyDbt skey))
          (.initial pKeys.isSome)
        .ok (finishSecondary pKeys values s)

end BitcoinClib.Db
