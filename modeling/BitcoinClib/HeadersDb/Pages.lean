import BitcoinClib.Lib.Exec
import Mathlib.Data.List.Basic

/-!
Contract: the pages of stored block headers.

Owns:
- `HeightIndex`, the cursor operations of the index by height, which are not part of the
  repository, and `Serves`, what is documented of them;
- `block_headers_db_t` and `db_cursor_pget`, with the functions that fetch a page;
- the page that is fetched, for each start that is found or not.

Does not own: the records behind the index, or who reads the pages.

The first `num_records` slots of `hashes` and `records` are one list; nothing reads the slots
behind them. Errors of the index other than `DB_NOTFOUND` abort in the source.
-/

namespace BitcoinClib.HeadersDb

open BitcoinClib.Lib

/-- `struct block_header_record` with its key; the fields nothing reads are left out. -/
structure StoredHeader (Hash Header : Type) where
  hash : Hash
  height : Nat
  hdr : Header
deriving DecidableEq, Repr

/-- The non-zero return codes of a cursor. -/
inductive DbError where
  | notFound
  | other (rc : Int)
deriving DecidableEq, Repr

/-- The flags `db_cursor_pget` tells apart, of which a cursor is passed two. -/
inductive DbFlags where
  | set | first | prev | next | last
deriving DecidableEq, Repr

/-- The cursor operations of the index by height. A cursor is called with `DB_SET` or
`DB_NEXT` and the height in `skey`. -/
structure HeightIndex (Hash Header : Type) where
  Cursor : Type
  cursor : Except DbError Cursor
  pget : Cursor → DbFlags → Int → Except DbError (StoredHeader Hash Header) × Cursor

variable {Hash Header : Type}

/-- The place of the record `DB_NEXT` moves to; it is the first for a cursor without a
position. -/
def nextPlace : Option Nat → Nat
  | none => 0
  | some place => place + 1

/-- The index serves these headers in order of height, starting with height 1. A failing call
leaves the cursor where it was. -/
structure Serves (index : HeightIndex Hash Header) (position : index.Cursor → Option Nat)
    (stored : List (StoredHeader Hash Header)) : Prop where
  heights : ∀ place header, stored[place]? = some header → header.height = place + 1
  opens : ∃ cursor, index.cursor = .ok cursor ∧ position cursor = none
  setFound : ∀ cursor place header, stored[place]? = some header →
    ∃ moved, index.pget cursor .set (place + 1 : Nat) = (.ok header, moved) ∧
      position moved = some place
  setMissing : ∀ cursor (key : Int), (∀ header ∈ stored, (header.height : Int) ≠ key) →
    ∃ left, index.pget cursor .set key = (.error .notFound, left) ∧
      position left = position cursor
  nextFound : ∀ cursor key header, stored[nextPlace (position cursor)]? = some header →
    ∃ moved, index.pget cursor .next key = (.ok header, moved) ∧
      position moved = some (nextPlace (position cursor))
  nextMissing : ∀ cursor key, stored[nextPlace (position cursor)]? = none →
    ∃ left, index.pget cursor .next key = (.error .notFound, left)

/-! ## `block_headers_db_t` -/

/-- `block_headers_db_t`: the height of the page, and its records. -/
structure BlockHeadersDb (Hash Header : Type) where
  offset : Int
  page : List (StoredHeader Hash Header)

/-- `db->limits` -/
def pageLimits : Nat := 2016

/-- `block_headers_db_init` -/
def blockHeadersDbInit : BlockHeadersDb Hash Header := ⟨0, []⟩

/-- The `DB_NEXT` loop of `db_cursor_pget`, for the slots that are left. `skey` is
`db->offset`, so every record that is found overwrites it with its height. -/
def fillPage (index : HeightIndex Hash Header) :
    Nat → index.Cursor → Int → Option DbError →
      Option DbError × BlockHeadersDb Hash Header
  | 0, _, offset, rc => (rc, ⟨offset, []⟩)
  | slots + 1, cursor, offset, _ =>
      match index.pget cursor .next offset with
      | (.error error, _) => (some error, ⟨offset, []⟩)
      | (.ok header, cursor) =>
          let (rc, db) := fillPage index slots cursor header.height none
          (rc, { db with page := header :: db.page })

/-- The `switch` of `db_cursor_pget`. -/
def startOffset (flags : DbFlags) (offset : Int) : Int :=
  match flags with
  | .first => 0
  | .prev => max (offset - pageLimits) 0
  | .next => offset + 1
  | .set | .last => offset

/-- `db_cursor_pget`: the return code, `none` for 0, and the fetched page. -/
def dbCursorPget (index : HeightIndex Hash Header) (db : BlockHeadersDb Hash Header)
    (flags : DbFlags) : Exec (Option DbError × BlockHeadersDb Hash Header) :=
  match index.cursor with
  | .error _ => .fault .assertion
  | .ok cursor =>
      let offset := startOffset flags db.offset
      match index.pget cursor .set offset with
      | (.error error, cursor) =>
          if error ≠ .notFound ∨ flags = .set then .ok (some error, ⟨offset, []⟩)
          else finish (fillPage index pageLimits cursor offset (some error))
      | (.ok header, cursor) =>
          let (rc, db) := fillPage index (pageLimits - 1) cursor offset none
          finish (rc, { db with page := header :: db.page })
where
  finish (result : Option DbError × BlockHeadersDb Hash Header) :
      Exec (Option DbError × BlockHeadersDb Hash Header) :=
    if result.1 = none ∨ result.1 = some .notFound then .ok result else .fault .assertion

/-- `headers_db_move_to` -/
def headersDbMoveTo (index : HeightIndex Hash Header) (db : BlockHeadersDb Hash Header)
    (height : Int) : Exec (Option DbError × BlockHeadersDb Hash Header) :=
  dbCursorPget index { db with offset := height } .set

/-- `headers_db_first` -/
def headersDbFirst (index : HeightIndex Hash Header) (db : BlockHeadersDb Hash Header) :
    Exec (Option DbError × BlockHeadersDb Hash Header) := dbCursorPget index db .first

/-- `headers_db_prior` -/
def headersDbPrior (index : HeightIndex Hash Header) (db : BlockHeadersDb Hash Header) :
    Exec (Option DbError × BlockHeadersDb Hash Header) := dbCursorPget index db .prev

/-- `headers_db_next` -/
def headersDbNext (index : HeightIndex Hash Header) (db : BlockHeadersDb Hash Header) :
    Exec (Option DbError × BlockHeadersDb Hash Header) := dbCursorPget index db .next

/-- `headers_db_last` -/
def headersDbLast (index : HeightIndex Hash Header) (db : BlockHeadersDb Hash Header) :
    Exec (Option DbError × BlockHeadersDb Hash Header) := dbCursorPget index db .last

/-! ## Pages -/

section Served

variable {index : HeightIndex Hash Header} {position : index.Cursor → Option Nat}
  {stored : List (StoredHeader Hash Header)}

/-- The loop takes what follows the cursor, as far as there are slots; it ends with
`DB_NOTFOUND` when a slot is left. -/
theorem fillPage_eq (serves : Serves index position stored) (slots : Nat)
    (cursor : index.Cursor) (offset : Int) (rc : Option DbError)
    (runs : slots ≠ 0 ∨ rc = none) {rest : List (StoredHeader Hash Header)}
    (ahead : stored.drop (nextPlace (position cursor)) = rest) :
    fillPage index slots cursor offset rc =
      (if slots ≤ rest.length then none else some .notFound,
        ⟨if rest.take slots = [] then offset
          else (nextPlace (position cursor) + (rest.take slots).length : Nat),
          rest.take slots⟩) := by
  induction slots generalizing cursor offset rc rest with
  | zero =>
      obtain rfl : rc = none := runs.resolve_left (fun positive => positive rfl)
      simp [fillPage]
  | succ slots inductionHypothesis =>
      cases rest with
      | nil =>
          have behind : stored[nextPlace (position cursor)]? = none :=
            List.getElem?_eq_none (List.drop_eq_nil_iff.1 ahead)
          obtain ⟨left, missing⟩ := serves.nextMissing cursor offset behind
          simp [fillPage, missing]
      | cons header rest =>
          have here : stored[nextPlace (position cursor)]? = some header := by
            rw [← List.head?_drop, ahead]
            rfl
          obtain ⟨moved, found, place⟩ := serves.nextFound cursor offset header here
          have onwards : stored.drop (nextPlace (position moved)) = rest := by
            rw [place, nextPlace, ← List.tail_drop, ahead]
            rfl
          have height := serves.heights _ _ here
          rw [fillPage, found]
          simp only
          rw [inductionHypothesis moved header.height none (.inr rfl) onwards, place, height]
          have last : (if rest.take slots = [] then ((nextPlace (position cursor) + 1 : Nat) : Int)
              else (nextPlace (some (nextPlace (position cursor))) + (rest.take slots).length : Nat)) =
              (nextPlace (position cursor) + (rest.take slots).length + 1 : Nat) := by
            split_ifs with none
            · rw [none, List.length_nil, Nat.add_zero]
            · rw [nextPlace, Nat.add_right_comm]
          simp only [last, List.take_succ_cons, List.length_cons, Nat.add_le_add_iff_right,
            reduceCtorEq, if_false, ← Nat.add_assoc]

/-- A page that ends with `DB_NOTFOUND` or is full passes the last check. -/
theorem finish_page {full : Prop} [Decidable full] (db : BlockHeadersDb Hash Header) :
    dbCursorPget.finish (if full then none else some .notFound, db) =
      .ok (if full then none else some .notFound, db) := by
  split_ifs
  · rfl
  · rfl

/-- A page whose first height is stored: it is full, or ends with the last header. -/
theorem headersDbNext_found (serves : Serves index position stored) {place : Nat}
    (within : place < stored.length) (page : List (StoredHeader Hash Header)) :
    headersDbNext index ⟨place, page⟩ =
      .ok (if place + pageLimits ≤ stored.length then none else some .notFound,
        ⟨(place + ((stored.drop place).take pageLimits).length : Nat),
          (stored.drop place).take pageLimits⟩) := by
  obtain ⟨cursor, opens, -⟩ := serves.opens
  have here : stored[place]? = some stored[place] := List.getElem?_eq_getElem within
  obtain ⟨moved, found, reached⟩ := serves.setFound cursor place _ here
  have key : ((place + 1 : Nat) : Int) = place + 1 := Int.natCast_add place 1
  rw [key] at found
  have onwards : stored.drop (nextPlace (position moved)) = stored.drop (place + 1) := by
    rw [reached, nextPlace]
  have filled := fillPage_eq serves (pageLimits - 1) moved (place + 1) none (.inr rfl) onwards
  have chunk : (stored.drop place).take pageLimits =
      stored[place] :: (stored.drop (place + 1)).take (pageLimits - 1) := by
    rw [List.drop_eq_getElem_cons within]
    rfl
  have full : pageLimits - 1 ≤ (stored.drop (place + 1)).length ↔
      place + pageLimits ≤ stored.length := by
    rw [List.length_drop, pageLimits]
    omega
  have last : (if (stored.drop (place + 1)).take (pageLimits - 1) = [] then (place : Int) + 1
      else (nextPlace (position moved) +
        ((stored.drop (place + 1)).take (pageLimits - 1)).length : Nat)) =
      (place + ((stored.drop place).take pageLimits).length : Nat) := by
    rw [chunk, List.length_cons, reached, nextPlace]
    split_ifs with none
    · rw [none, List.length_nil]
      rfl
    · rw [← Nat.add_assoc, Nat.add_right_comm]
  rw [headersDbNext, dbCursorPget, opens]
  simp only [startOffset, found, filled, last, full]
  rw [finish_page, chunk]

/-- Behind the last height the page starts again with the first header. -/
theorem headersDbNext_behind (serves : Serves index position stored) {place : Nat}
    (behind : stored.length ≤ place) (page : List (StoredHeader Hash Header)) :
    headersDbNext index ⟨place, page⟩ =
      .ok (if pageLimits ≤ stored.length then none else some .notFound,
        ⟨if stored = [] then place + 1 else ((stored.take pageLimits).length : Nat),
          stored.take pageLimits⟩) := by
  obtain ⟨cursor, opens, fresh⟩ := serves.opens
  have absent : ∀ header ∈ stored, (header.height : Int) ≠ place + 1 := by
    intro header member
    obtain ⟨index, within, rfl⟩ := List.mem_iff_getElem.1 member
    have height := serves.heights index _ (List.getElem?_eq_getElem within)
    rw [height]
    push_cast
    omega
  obtain ⟨left, missing, unmoved⟩ := serves.setMissing cursor (place + 1) absent
  have first : stored.drop (nextPlace (position left)) = stored := by
    rw [unmoved, fresh]
    rfl
  have filled := fillPage_eq serves pageLimits left (place + 1) (some .notFound)
    (.inl (by decide)) first
  rw [headersDbNext, dbCursorPget, opens]
  simp only [startOffset]
  rw [missing]
  simp only
  have empty : stored.take pageLimits = [] ↔ stored = [] := by
    rw [List.take_eq_nil_iff]
    exact or_iff_right (by decide)
  rw [if_neg (by decide), filled, finish_page, unmoved, fresh, nextPlace, Nat.zero_add]
  simp only [empty]

end Served

end BitcoinClib.HeadersDb
