import BitcoinClib.Lib.Buffer

/-!
Contract: the list of open databases in `db_engine.c`.

Owns:
- `db_engine_resize`, `list_find`, `engine_list_add` and `engine_list_remove`;
- `db_engine_find_db` and `db_engine_private_free`, which go through the list.

Does not own: what opening and closing a database does; memory for the list is given, and the
global lock makes each call one step.
-/

namespace BitcoinClib.Db

open BitcoinClib.Lib

/-- The `db_handle_t *` that are not NULL, each with the `DB *` that `db_create` made for it. -/
structure DbHandles (Handle Dbp : Type) where
  dbp : Handle → Dbp
  own : Function.Injective dbp

/-- `struct db_engine_private`: whether `env` is there, and the list. An entry of `databases` that
was never written holds nothing. -/
structure EnginePrivate (Handle : Type) where
  env : Bool
  maxSize : Nat
  count : Nat
  databases : List (Option (Option Handle))
deriving DecidableEq, Repr

/-- `DB_ENGINE_ALLOC_SIZE` -/
def dbEngineAllocSize : Nat := 64

variable {Handle Dbp : Type}

/-- The size that `db_engine_resize` rounds up to, in `int` arithmetic. -/
def roundedEngineSize (newSize : Int) : Exec Nat :=
  if newSize ≤ 0 then .ok dbEngineAllocSize
  else do
    let padded ← Exec.checkedInt (newSize.toNat + dbEngineAllocSize)
    .ok ((padded - 1) / dbEngineAllocSize * dbEngineAllocSize)

/-- `db_engine_resize` -/
def dbEngineResize (priv : EnginePrivate Handle) (newSize : Int) :
    Exec (Int × EnginePrivate Handle) := do
  let newSize ← roundedEngineSize newSize
  if newSize < priv.maxSize then .ok (0, priv)
  else
    let added := newSize - priv.maxSize
    -- `realloc` keeps the entries that are there
    let dbs := priv.databases ++ List.replicate added none
    -- `memset(dbs, 0, ..)` starts at the first entry of the array
    .ok (0, { priv with
      databases := List.replicate added (some none) ++ dbs.drop added
      maxSize := newSize })

/-- `db_engine_private_new` -/
def dbEnginePrivateNew : Exec (EnginePrivate Handle) := do
  let (_, priv) ← dbEngineResize ⟨true, 0, 0, []⟩ 0
  .ok priv

/-- `priv->databases[i]` -/
def readEntry (databases : List (Option (Option Handle))) (i : Nat) : Exec (Option Handle) := do
  let entry ← Exec.readAt databases i
  match entry with
  | some db => .ok db
  | none => .fault .uninitialised

/-- `for(int i = 0; i < priv->count; ++i)`, left at the first entry that passes a test. -/
def firstEntry (databases : List (Option (Option Handle))) (test : Option Handle → Exec Bool)
    (i : Nat) : Nat → Exec (Option Nat)
  | 0 => .ok none
  | left + 1 => do
      let db ← readEntry databases i
      let passes ← test db
      if passes then .ok (some i) else firstEntry databases test (i + 1) left

section List

variable [DecidableEq Handle]

/-- `list_find`; `none` is -1. -/
def listFind (priv : EnginePrivate Handle) (db : Handle) : Exec (Option Nat) :=
  firstEntry priv.databases (fun entry => .ok (entry = some db)) 0 priv.count

/-- `engine_list_add` -/
def engineListAdd (priv : EnginePrivate Handle) (db : Handle) :
    Exec (Int × EnginePrivate Handle) := do
  let index ← listFind priv db
  match index with
  | some _ => .ok (-1, priv)
  | none => do
      let (rc, priv) ← dbEngineResize priv (intOfSize (priv.count + 1))
      if rc = 0 then do
        let databases ← Exec.writeAt priv.databases priv.count (some (some db))
        .ok (rc, { priv with databases, count := priv.count + 1 })
      else .ok (rc, priv)

/-- `engine_list_remove` -/
def engineListRemove (priv : EnginePrivate Handle) (db : Handle) :
    Exec (Int × EnginePrivate Handle) := do
  let index ← listFind priv db
  match index with
  | none => .ok (-1, priv)
  | some index =>
      if index < priv.count then do
        let count := priv.count - 1
        let last ← readEntry priv.databases count
        let databases ← Exec.writeAt priv.databases index (some last)
        let databases ← Exec.writeAt databases count (some none)
        .ok (0, { priv with databases, count })
      else .ok (-1, priv)

/-- `db_handle_cleanup` and `free` for the entries from `i` on that are not NULL, after those that
are closed already; an open `DB` is closed with its handle. -/
def closeEntries (databases : List (Option (Option Handle))) (i : Nat) :
    Nat → List Handle → Exec (List Handle)
  | 0, closed => .ok closed
  | left + 1, closed => do
      let db ← readEntry databases i
      match db with
      | none => closeEntries databases (i + 1) left closed
      | some db =>
          if db ∈ closed then .fault .pointer
          else closeEntries databases (i + 1) left (closed ++ [db])

/-- `db_engine_private_free`: the handles it closes. -/
def dbEnginePrivateFree (priv : EnginePrivate Handle) : Exec (List Handle) :=
  if priv.env then closeEntries priv.databases 0 priv.count [] else .ok []

end List

/-- `db_get_handle` -/
def dbGetHandle (handles : DbHandles Handle Dbp) : Option Handle → Exec Dbp
  | none => .fault .assertion
  | some db => .ok (handles.dbp db)

/-- `db_engine_find_db` -/
def dbEngineFindDb [DecidableEq Dbp] (handles : DbHandles Handle Dbp) (priv : EnginePrivate Handle)
    (dbp : Dbp) : Exec (Option Handle) := do
  let index ← firstEntry priv.databases
    (fun db => do
      let own ← dbGetHandle handles db
      .ok (dbp = own)) 0 priv.count
  match index with
  | none => .ok none
  | some i => readEntry priv.databases i

end BitcoinClib.Db
