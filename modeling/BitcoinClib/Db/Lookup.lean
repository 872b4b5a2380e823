import BitcoinClib.Db.Find
import Mathlib.Data.List.Forall2

/-!
Contract: what the lookups report of the records behind a key.

Owns:
- `FindReports` and `FindSecondaryReports`: the number returned and the records filled;
- the condition under which each lookup reports what is stored.

Does not own: what a caller does with the records.
-/

namespace BitcoinClib.Db

open BitcoinClib.Lib
open BitcoinClib.Types
open BitcoinClib.HeadersDb (DbError)

/-! ## Reports -/

/-- The record holds exactly these bytes. -/
def DbRecordData.Holds (record : DbRecordData) (bytes : Bytes) : Prop :=
  record.size = bytes.length ∧ ∃ buffer, record.data = some buffer ∧
    buffer.take bytes.length = bytes

/-- One record is filled for each of the stored ones, and no other is changed. -/
def Fills (before after : RecordArray) (stored : List Bytes) : Prop :=
  List.Forall₂ DbRecordData.Holds ((after.getD []).take stored.length) stored ∧
    ((after.getD []).drop stored.length = [] ∨
      (after.getD []).drop stored.length = (before.getD []).drop stored.length)

/-- The records are filled where they are requested. -/
def FillsRequested (before after : Option RecordArray) (stored : List Bytes) : Prop :=
  ∀ records, before = some records → ∃ filled, after = some filled ∧ Fills records filled stored

/-- `db_find` reports these records. -/
def FindReports (stored : List Entry) (pValues : Option RecordArray)
    (outcome : Exec (Nat × Option RecordArray)) : Prop :=
  ∃ count values, outcome = .ok (count, values) ∧ count = stored.length ∧
    FillsRequested pValues values (stored.map Entry.value)

/-- `db_find_secondary` reports these records. -/
def FindSecondaryReports (stored : List Entry) (pKeys pValues : Option RecordArray)
    (outcome : Exec (Nat × Option RecordArray × Option RecordArray)) : Prop :=
  ∃ count keys values, outcome = .ok (count, keys, values) ∧ count = stored.length ∧
    FillsRequested pKeys keys (stored.map Entry.key) ∧
    FillsRequested pValues values (stored.map Entry.value)

/-! ## Conditions -/

/-- A record that takes these bytes: its size is not set or theirs, and its buffer has room. -/
def DbRecordData.Accepts (record : DbRecordData) (bytes : Bytes) : Prop :=
  (record.size = 0 ∨ record.size = bytes.length) ∧
    ∀ buffer, record.data = some buffer → bytes.length ≤ buffer.length

/-- NULL, or a pointer to a record that takes these bytes, of which there are some. -/
def Accepts (records : RecordArray) (bytes : Bytes) : Prop :=
  bytes ≠ [] ∧
    ∀ found, records = some found → ∃ first rest, found = first :: rest ∧ first.Accepts bytes

/-- When `db_find` reports what is stored. -/
def FindsWhen (contents : Bytes → List Entry) (db : DbHandle) (key : Bytes)
    (pValues : Option RecordArray) : Prop :=
  if db.multiple then
    pValues ≠ none ∧ contents (keyDbt key) = contents key ∧ ∀ entry ∈ contents key, entry.value ≠ []
  else
    ∃ entry, contents key = [entry] ∧ ∀ values, pValues = some values → Accepts values entry.value

/-- When `db_find_secondary` reports what is stored. -/
def FindsSecondaryWhen (contents : Bytes → List Entry) (db : DbHandle) (skey : Bytes)
    (pKeys : Option RecordArray) : Option RecordArray → Prop
  | none => ¬ db.multiple ∧ ∃ entry, contents skey = [entry] ∧
      ∀ keys, pKeys = some keys → Fills keys keys [entry.key]
  | some values => contents (keyDbt skey) = contents skey ∧
      if db.multiple then
        ∀ entry ∈ contents skey, entry.value ≠ [] ∧ (pKeys ≠ none → entry.key ≠ [])
      else
        ∀ entry ∈ contents skey, Accepts values entry.value ∧
          ∀ keys, pKeys = some keys → Accepts keys entry.key

/-! ## One record -/

/-- `db_record_data_set` when its checks pass. -/
theorem dbRecordDataSet_sized {record : DbRecordData} {bytes : Bytes} (some_ : bytes ≠ [])
    (sized : record.size = 0 ∨ record.size = bytes.length) :
    dbRecordDataSet (some record) (.malloced bytes) =
      takeData { record with size := bytes.length } (.malloced bytes) bytes := by
  have positive : bytes.length > 0 := List.length_pos_iff.2 some_
  have size : (if record.size = 0 then { record with size := (bytes.length : Int) } else record) =
      { record with size := (bytes.length : Int) } := by
    split
    next => rfl
    next unset =>
      rcases sized with zero | same
      · exact absurd zero unset
      · rw [← same]
  show (Exec.assert (bytes.length > 0) >>= fun _ => Exec.assert
    ((if record.size = 0 then { record with size := (bytes.length : Int) } else record).size =
      (bytes.length : Int)) >>= fun _ => takeData
        (if record.size = 0 then { record with size := (bytes.length : Int) } else record)
        (.malloced bytes) bytes) = _
  rw [size, Exec.assert_of positive, Exec.ok_bind, Exec.assert_of rfl, Exec.ok_bind]

theorem dbRecordDataSet_unsized {record : DbRecordData} {bytes : Bytes}
    (unsized : ¬ (record.size = 0 ∨ record.size = bytes.length)) :
    ∃ cause, dbRecordDataSet (some record) (.malloced bytes) = .fault cause := by
  obtain ⟨unset, other⟩ := not_or.1 unsized
  refine ⟨.assertion, ?_⟩
  show (Exec.assert (bytes.length > 0) >>= fun _ => Exec.assert
    ((if record.size = 0 then { record with size := (bytes.length : Int) } else record).size =
      (bytes.length : Int)) >>= fun _ => _) = _
  rw [if_neg unset, Exec.assert_of_not other]
  by_cases positive : bytes.length > 0
  · rw [Exec.assert_of positive]
    rfl
  · rw [Exec.assert_of_not positive]
    rfl

/-- A record that takes the bytes holds them then. -/
theorem dbRecordDataSet_accepts {record : DbRecordData} {bytes : Bytes} (some_ : bytes ≠ [])
    (accepts : record.Accepts bytes) :
    ∃ filled left, dbRecordDataSet (some record) (.malloced bytes) = .ok (filled, left) ∧
      filled.Holds bytes := by
  obtain ⟨sized, room⟩ := accepts
  rw [dbRecordDataSet_sized some_ sized, takeData]
  split
  next buffer held =>
    have fits : (Dbt.malloced bytes).size ≤ buffer.length := room buffer held
    have whole : bytes.take bytes.length ++ buffer.drop bytes.length =
        bytes ++ buffer.drop bytes.length := by rw [List.take_length]
    rw [memcpyTo, if_pos ⟨fits, le_refl bytes.length⟩, Exec.ok_bind]
    refine ⟨_, _, rfl, rfl, bytes ++ buffer.drop bytes.length, congrArg some whole, ?_⟩
    exact List.take_left
  next =>
    exact ⟨_, _, rfl, rfl, bytes, rfl, List.take_length⟩

/-- A record that does not take the bytes ends the run. -/
theorem dbRecordDataSet_refuses {record : DbRecordData} {bytes : Bytes}
    (refuses : ¬ (bytes ≠ [] ∧ record.Accepts bytes)) :
    ∃ cause, dbRecordDataSet (some record) (.malloced bytes) = .fault cause := by
  by_cases sized : record.size = 0 ∨ record.size = bytes.length
  · by_cases some_ : bytes ≠ []
    · have small : ¬ ∀ buffer, record.data = some buffer → bytes.length ≤ buffer.length :=
        fun room => refuses ⟨some_, sized, room⟩
      obtain ⟨buffer, short⟩ := not_forall.1 small
      obtain ⟨held, short⟩ := Classical.not_imp.1 short
      refine ⟨.bounds, ?_⟩
      rw [dbRecordDataSet_sized some_ sized, takeData, held]
      dsimp only
      rw [memcpyTo, if_neg fun both => short both.1]
      rfl
    · have empty := not_not.1 some_
      subst empty
      exact ⟨.assertion, rfl⟩
  · exact dbRecordDataSet_unsized sized

theorem zero_accepts (bytes : Bytes) : DbRecordData.zero.Accepts bytes :=
  ⟨Or.inl rfl, fun _ held => nomatch held⟩

/-- NULL is as good as a record of zeros. -/
theorem dbRecordDataSet_none (value : Dbt) :
    dbRecordDataSet none value = dbRecordDataSet (some .zero) value := rfl

theorem setFirst_accepts {records : RecordArray} {bytes : Bytes} (accepts : Accepts records bytes) :
    ∃ filled, setFirst records (.malloced bytes) = .ok filled ∧ Fills records filled [bytes] := by
  obtain ⟨some_, takes⟩ := accepts
  cases records with
  | none =>
      obtain ⟨filled, left, sets, holds⟩ := dbRecordDataSet_accepts some_ (zero_accepts bytes)
      refine ⟨some [filled], ?_, List.Forall₂.cons holds List.Forall₂.nil, Or.inl rfl⟩
      rw [setFirst, dbRecordDataSet_none, sets]
      rfl
  | some found =>
      obtain ⟨first, rest, rfl, firstTakes⟩ := takes found rfl
      obtain ⟨filled, left, sets, holds⟩ := dbRecordDataSet_accepts some_ firstTakes
      refine ⟨some (filled :: rest), ?_, ?_, Or.inr rfl⟩
      · rw [setFirst, sets]
        rfl
      · exact List.Forall₂.cons holds List.Forall₂.nil

theorem setFirst_refuses {records : RecordArray} {bytes : Bytes}
    (refuses : ¬ Accepts records bytes) :
    ∃ cause, setFirst records (.malloced bytes) = .fault cause := by
  cases records with
  | none =>
      have empty : ¬ (bytes ≠ [] ∧ DbRecordData.zero.Accepts bytes) := fun both =>
        refuses ⟨both.1, fun found same => nomatch same⟩
      obtain ⟨cause, stops⟩ := dbRecordDataSet_refuses empty
      refine ⟨cause, ?_⟩
      rw [setFirst, dbRecordDataSet_none, stops]
      rfl
  | some found =>
      cases found with
      | nil => exact ⟨.bounds, rfl⟩
      | cons first rest =>
          have refused : ¬ (bytes ≠ [] ∧ first.Accepts bytes) := by
            intro both
            apply refuses
            refine ⟨both.1, ?_⟩
            intro found same
            exact ⟨first, rest, (Option.some.inj same).symm, both.2⟩
          obtain ⟨cause, stops⟩ := dbRecordDataSet_refuses refused
          refine ⟨cause, ?_⟩
          rw [setFirst, stops]
          rfl

/-! ## The arrays of the loop -/

/-- An array of `maxSize` records whose first ones hold these bytes. -/
def Grown (records : List DbRecordData) (maxSize : Nat) (stored : List Bytes) : Prop :=
  ∃ filled room, records = filled ++ List.replicate room .zero ∧ maxSize = filled.length + room ∧
    List.Forall₂ DbRecordData.Holds filled stored

theorem pushRecord_grown {records : List DbRecordData} {maxSize : Nat} {stored : List Bytes}
    {bytes : Bytes} (grown : Grown records maxSize stored) (positive : 0 < maxSize)
    (some_ : bytes ≠ []) :
    ∃ records', pushRecord records maxSize stored.length bytes = .ok records' ∧
      Grown records' (grownSize maxSize stored.length) (stored ++ [bytes]) := by
  obtain ⟨filled, room, rfl, size, holds⟩ := grown
  obtain ⟨record, left, sets, here⟩ := dbRecordDataSet_accepts some_ (zero_accepts bytes)
  have length := holds.length_eq
  have room' : ∃ room', (if stored.length ≥ maxSize then
        (filled ++ List.replicate room .zero) ++ List.replicate maxSize .zero
      else filled ++ List.replicate room .zero) = filled ++ List.replicate (room' + 1) .zero ∧
      grownSize maxSize stored.length = filled.length + (room' + 1) := by
    rw [grownSize]
    split
    next full =>
      refine ⟨maxSize - 1, ?_, by omega⟩
      have none_ : room = 0 := by omega
      rw [none_, List.replicate_zero, List.append_nil, Nat.sub_add_cancel positive]
    next free => exact ⟨room - 1, by rw [Nat.sub_add_cancel (by omega)], by omega⟩
  obtain ⟨room', array, newSize⟩ := room'
  have slot : (filled ++ List.replicate (room' + 1) DbRecordData.zero)[stored.length]? =
      some .zero := by
    rw [List.getElem?_append_right (by omega), ← length, Nat.sub_self]
    rfl
  have placed : (filled ++ List.replicate (room' + 1) DbRecordData.zero).set stored.length record =
      (filled ++ [record]) ++ List.replicate room' .zero := by
    rw [List.set_append_right _ _ (by omega), ← length, Nat.sub_self, List.replicate_succ,
      List.set_cons_zero, List.append_assoc]
    rfl
  refine ⟨(filled ++ [record]) ++ List.replicate room' .zero, ?_, filled ++ [record], room', rfl,
    ?_,
    ?_⟩
  · rw [pushRecord, array]
    dsimp only
    rw [slot]
    dsimp only
    rw [sets, Exec.ok_bind, placed]
  · rw [newSize, List.length_append, List.length_singleton]
    omega
  · exact List.rel_append holds (List.Forall₂.cons here List.Forall₂.nil)

/-- An empty record ends the run. -/
theorem pushRecord_empty (records : List DbRecordData) (maxSize count : Nat) :
    ∃ cause, pushRecord records maxSize count [] = .fault cause := by
  rw [pushRecord]
  split
  next => exact ⟨.bounds, rfl⟩
  next slot _ =>
    obtain ⟨cause, stops⟩ := dbRecordDataSet_refuses
      fun both => both.1 rfl
    exact ⟨cause, by rw [stops]; rfl⟩

/-- The arrays hold these entries. -/
structure Gathered (s : FindState) (done : List Entry) : Prop where
  positive : 0 < s.maxSize
  count : s.count = done.length
  keys : ∀ keys, s.keys = some keys → Grown keys s.maxSize (done.map Entry.key)
  results : Grown s.results s.maxSize (done.map Entry.value)

/-- An entry of which the requested parts are not empty. -/
def Entry.Stores (entry : Entry) (withKeys : Bool) : Prop :=
  entry.value ≠ [] ∧ (withKeys → entry.key ≠ [])

theorem initial_gathered (withKeys : Bool) : Gathered (.initial withKeys) [] := by
  have fresh : Grown (List.replicate maxRecords .zero) maxRecords [] :=
    ⟨[], maxRecords, rfl, (Nat.zero_add _).symm, List.Forall₂.nil⟩
  refine ⟨Nat.zero_lt_succ 1023, rfl, ?_, fresh⟩
  intro keys same
  cases withKeys with
  | false => exact nomatch same
  | true => exact Option.some.inj same ▸ fresh

theorem pushKey_gathered {s : FindState} {done : List Entry} {entry : Entry}
    (gathered : Gathered s done) (some_ : s.keys.isSome → entry.key ≠ []) :
    ∃ keys, s.pushKey entry.key = .ok keys ∧ keys.isSome = s.keys.isSome ∧
      ∀ records, keys = some records →
        Grown records (grownSize s.maxSize s.count) ((done ++ [entry]).map Entry.key) := by
  rw [FindState.pushKey]
  split
  next none_ => exact ⟨none, rfl, by rw [none_], fun _ same => nomatch same⟩
  next keys there =>
    have nonempty := some_ (by rw [there]; rfl)
    obtain ⟨keys', pushes, grown⟩ :=
      pushRecord_grown (gathered.keys keys there) gathered.positive nonempty
    rw [List.length_map, ← gathered.count] at pushes grown
    refine ⟨some keys', by rw [pushes]; rfl, by rw [there]; rfl, ?_⟩
    intro records same
    rw [← Option.some.inj same, List.map_append]
    exact grown

/-- The body of the loop on an entry with its requested parts. -/
theorem pushEntry_gathered {s : FindState} {done : List Entry} {entry : Entry}
    (gathered : Gathered s done) (stores : entry.Stores s.keys.isSome) :
    ∃ s', s.pushEntry entry = .ok s' ∧ Gathered s' (done ++ [entry]) ∧
      s'.keys.isSome = s.keys.isSome := by
  obtain ⟨keys, pushesKey, sameKeys, keysGrown⟩ := pushKey_gathered gathered stores.2
  obtain ⟨results, pushes, grown⟩ :=
    pushRecord_grown gathered.results gathered.positive stores.1
  rw [List.length_map, ← gathered.count] at pushes grown
  refine ⟨⟨grownSize s.maxSize s.count, keys, results, s.count + 1⟩, ?_, ?_, sameKeys⟩
  · rw [FindState.pushEntry, pushesKey, Exec.ok_bind, FindState.pushValue, pushes]
    rfl
  · have positive := gathered.positive
    constructor
    · show 0 < grownSize s.maxSize s.count
      rw [grownSize]
      split
      next => omega
      next => exact positive
    · rw [List.length_append, List.length_singleton, ← gathered.count]
    · exact keysGrown
    · rw [List.map_append]
      exact grown

theorem pushEntry_refuses {s : FindState} {done : List Entry} {entry : Entry}
    (gathered : Gathered s done) (empty : ¬ entry.Stores s.keys.isSome) :
    ∃ cause, s.pushEntry entry = .fault cause := by
  by_cases keyEmpty : s.keys.isSome → entry.key ≠ []
  · obtain ⟨keys, pushesKey, -, -⟩ := pushKey_gathered gathered keyEmpty
    have valueEmpty : entry.value = [] := not_not.1 fun some_ => empty ⟨some_, keyEmpty⟩
    obtain ⟨cause, stops⟩ := pushRecord_empty s.results s.maxSize s.count
    refine ⟨cause, ?_⟩
    rw [FindState.pushEntry, pushesKey, Exec.ok_bind, FindState.pushValue, valueEmpty, stops]
    rfl
  · obtain ⟨there, isEmpty⟩ := Classical.not_imp.1 keyEmpty
    obtain ⟨keys, same⟩ := Option.isSome_iff_exists.1 there
    obtain ⟨cause, stops⟩ := pushRecord_empty keys s.maxSize s.count
    refine ⟨cause, ?_⟩
    rw [FindState.pushEntry, FindState.pushKey, same]
    dsimp only
    rw [not_not.1 isEmpty, stops]
    rfl

/-- All entries have their requested parts. -/
theorem foldlM_gathered : ∀ {entries done : List Entry} {s : FindState}, Gathered s done →
    (∀ entry ∈ entries, entry.Stores s.keys.isSome) →
      ∃ s', entries.foldlM FindState.pushEntry s = .ok s' ∧ Gathered s' (done ++ entries) ∧
        s'.keys.isSome = s.keys.isSome
  | [], done, s, gathered, _ => by
      refine ⟨s, rfl, ?_, rfl⟩
      rw [List.append_nil]
      exact gathered
  | entry :: entries, done, s, gathered, stores => by
      obtain ⟨middle, pushes, middleGathered, middleKeys⟩ :=
        pushEntry_gathered gathered (stores entry List.mem_cons_self)
      obtain ⟨s', runs, gathered', keys⟩ := foldlM_gathered middleGathered
        fun other member => middleKeys ▸ stores other (List.mem_cons_of_mem _ member)
      refine ⟨s', ?_, ?_, keys.trans middleKeys⟩
      · rw [List.foldlM_cons, pushes]
        exact runs
      · rw [List.append_assoc, List.singleton_append] at gathered'
        exact gathered'

/-- An entry without a requested part ends the run. -/
theorem foldlM_refuses : ∀ {entries done : List Entry} {s : FindState}, Gathered s done →
    ¬ (∀ entry ∈ entries, entry.Stores s.keys.isSome) →
      ∃ cause, entries.foldlM FindState.pushEntry s = .fault cause
  | [], _, _, _, empty => absurd (fun _ member => absurd member List.not_mem_nil) empty
  | entry :: entries, done, s, gathered, empty => by
      by_cases stores : entry.Stores s.keys.isSome
      · obtain ⟨middle, pushes, middleGathered, middleKeys⟩ := pushEntry_gathered gathered stores
        have later : ¬ ∀ other ∈ entries, other.Stores middle.keys.isSome := by
          intro rest
          apply empty
          intro other member
          rcases List.mem_cons.1 member with rfl | inside
          · exact stores
          · exact middleKeys ▸ rest other inside
        obtain ⟨cause, stops⟩ := foldlM_refuses middleGathered later
        exact ⟨cause, by rw [List.foldlM_cons, pushes]; exact stops⟩
      · obtain ⟨cause, stops⟩ := pushEntry_refuses gathered stores
        exact ⟨cause, by rw [List.foldlM_cons, stops]; rfl⟩

/-- Without keys the two bodies do the same. -/
theorem foldlM_pushValue : ∀ {entries : List Entry} {s : FindState}, s.keys = none →
    (entries.map Entry.value).foldlM FindState.pushValue s =
      entries.foldlM FindState.pushEntry s
  | [], _, _ => rfl
  | entry :: entries, s, none_ => by
      have same : s.pushEntry entry = s.pushValue entry.value := by
        rw [FindState.pushEntry, FindState.pushKey, none_]
        dsimp only
        rw [Exec.ok_bind, FindState.pushValue]
        cases pushRecord s.results s.maxSize s.count entry.value with
        | ok results => rw [Exec.ok_bind, Exec.ok_bind, none_]
        | fault cause => rfl
        | timeout => rfl
      rw [List.map_cons, List.foldlM_cons, List.foldlM_cons, same]
      cases pushed : s.pushValue entry.value with
      | ok s' =>
          obtain ⟨results, -, rest⟩ := Exec.bind_eq_ok.1 pushed
          have noKeys : s'.keys = none := by
            rw [← Exec.ok.inj rest]
            exact none_
          exact foldlM_pushValue noKeys
      | fault cause => rfl
      | timeout => rfl

/-! ## The cursor -/

variable {Cursor α : Type} {next : Cursor → Except DbError α × Cursor}

/-- What the loop is given, from this call on. -/
def Yields (next : Cursor → Except DbError α × Cursor) :
    Except DbError α × Cursor → List α → Prop
  | call, [] => ∃ error, call.1 = .error error
  | call, item :: items => call.1 = .ok item ∧ Yields next (next call.2) items

theorem findLoop_yields {push : FindState → α → Exec FindState} :
    ∀ {items : List α} {fuel : Nat} {call : Except DbError α × Cursor} {s : FindState},
      Yields next call items → items.length < fuel →
        findLoop next push fuel call s = items.foldlM push s
  | _, 0, _, _, _, enough => absurd enough (Nat.not_lt_zero _)
  | [], _ + 1, (_, _), _, yields, _ => by
      obtain ⟨error, rfl⟩ := yields
      rfl
  | item :: items, fuel + 1, (_, cursor), s, yields, enough => by
      obtain ⟨rfl, later⟩ := yields
      rw [findLoop, List.foldlM_cons]
      apply Exec.bind_congr_of rfl
      intro s'
      exact findLoop_yields later (Nat.lt_of_succ_lt_succ enough)

/-- A cursor gives the records of a key from a place on. -/
theorem yields_drop {position : Cursor → Option (Bytes × Nat)} {contents : Bytes → List Entry}
    {key : Bytes} {part : Entry → α} {call : Cursor → FindFlags → Except DbError α × Cursor}
    (gives : ∀ cursor flags, ∃ next, call cursor flags =
      (answer ((entryAt contents (target (position cursor) key flags)).map part), next) ∧
      position next = moved contents (position cursor) (target (position cursor) key flags)) :
    ∀ {rest : List Entry} {cursor : Cursor} {flags : FindFlags} {place : Nat},
      target (position cursor) key flags = some (key, place) → (contents key).drop place = rest →
        Yields (fun cursor => call cursor .nextDup) (call cursor flags) (rest.map part)
  | [], cursor, flags, place, asked, none_ => by
      obtain ⟨next, called, -⟩ := gives cursor flags
      have beyond : (contents key)[place]? = none :=
        List.getElem?_eq_none (List.drop_eq_nil_iff.1 none_)
      refine ⟨.notFound, ?_⟩
      rw [called, asked, entryAt, Option.bind_some, beyond]
      rfl
  | entry :: rest, cursor, flags, place, asked, more => by
      obtain ⟨next, called, follows⟩ := gives cursor flags
      have here : (contents key)[place]? = some entry := by
        rw [← List.head?_drop, more]
        rfl
      have found : entryAt contents (some (key, place)) = some entry := by
        rw [entryAt, Option.bind_some, here]
      rw [asked, moved, found] at follows
      rw [asked, found] at called
      constructor
      · rw [called]
        rfl
      · rw [called]
        apply yields_drop gives
        · rw [follows]
          rfl
        · rw [← List.drop_drop, more]
          rfl

/-! ## The lookups -/

section Lookups

variable {bdb : BerkeleyDb} {position : bdb.Cursor → Option (Bytes × Nat)}
  {contents : Bytes → List Entry} {db : DbHandle} {fuel : Nat} {key : Bytes}
  {pKeys pValues : Option RecordArray}

/-- Only a key whose size fits has records. -/
theorem keyDbt_eq (serves : Serves bdb position contents) (known : contents key ≠ []) :
    keyDbt key = key := by
  have small : key.length % 2 ^ 32 = key.length := Nat.mod_eq_of_lt (serves.short key known)
  rw [keyDbt, small, List.take_length]

/-- As many records under the size that is passed are the records of the key. -/
theorem contents_keyDbt (serves : Serves bdb position contents)
    (sameLength : (contents (keyDbt key)).length = (contents key).length) :
    contents (keyDbt key) = contents key := by
  by_cases known : contents key = []
  · rw [known, List.length_nil] at sameLength
    rw [known, List.length_eq_zero_iff.1 sameLength]
  · rw [keyDbt_eq serves known]

theorem fills_nil (records : RecordArray) : Fills records records [] :=
  ⟨List.Forall₂.nil, Or.inr rfl⟩

/-- The array is cut to the records that were filled. -/
theorem shrink_fills {s : FindState} {stored : List Bytes} {records : List DbRecordData}
    (before : RecordArray) (count : s.count = stored.length)
    (grown : Grown records s.maxSize stored) : Fills before (s.shrink records) stored := by
  obtain ⟨filled, room, rfl, -, holds⟩ := grown
  have length := holds.length_eq
  rw [FindState.shrink]
  split
  next zero =>
    have none_ : stored = [] := List.length_eq_zero_iff.1 (count.symm.trans zero)
    subst none_
    exact ⟨List.Forall₂.nil, Or.inl rfl⟩
  next =>
    have kept : (filled ++ List.replicate room DbRecordData.zero).take s.count = filled := by
      rw [count, ← length, List.take_left]
    rw [kept]
    constructor
    · rw [Option.getD_some, ← length, List.take_length]
      exact holds
    · left
      rw [Option.getD_some, ← length, List.drop_length]

theorem map_eq_singleton {entry : Entry} {entries : List Entry} (only : entries = [entry])
    (part : Entry → Bytes) : entries.map part = [part entry] := by
  rw [only]
  rfl

/-- `db_find` on a database without duplicate keys. -/
theorem dbFind_unique (serves : Serves bdb position contents) (unique : ¬ db.multiple) :
    FindReports (contents key) pValues (dbFind bdb fuel db key pValues) ↔
      ∃ entry, contents key = [entry] ∧
        ∀ values, pValues = some values → Accepts values entry.value := by
  unfold dbFind
  rw [if_pos unique]
  cases pValues with
  | none =>
      constructor
      · rintro ⟨count, values, runs, length, -⟩
        have one : count = 1 := (Prod.ext_iff.1 (Exec.ok.inj runs)).1.symm
        obtain ⟨entry, only⟩ := List.length_eq_one_iff.1 (length.symm.trans one)
        exact ⟨entry, only, fun values same => nomatch same⟩
      · rintro ⟨entry, only, -⟩
        exact ⟨1, none, rfl, by rw [only]; rfl, fun values same => nomatch same⟩
  | some values =>
      dsimp only
      rw [serves.get]
      constructor
      · rintro ⟨count, values', runs, length, -⟩
        have one : count = 1 := by
          cases first : (contents (keyDbt key))[0]? with
          | none =>
              rw [first] at runs
              exact (Prod.ext_iff.1 (Exec.ok.inj runs)).1.symm
          | some entry =>
              rw [first] at runs
              obtain ⟨filled, -, rest⟩ := Exec.bind_eq_ok.1 runs
              exact (Prod.ext_iff.1 (Exec.ok.inj rest)).1.symm
        obtain ⟨entry, only⟩ := List.length_eq_one_iff.1 (length.symm.trans one)
        have sameKey := keyDbt_eq serves (by rw [only]; exact List.cons_ne_nil _ _)
        refine ⟨entry, only, ?_⟩
        intro slot same
        rw [← Option.some.inj same]
        rw [sameKey, only] at runs
        by_contra refuses
        obtain ⟨cause, stops⟩ := setFirst_refuses refuses
        obtain ⟨filled, sets, -⟩ := Exec.bind_eq_ok.1 runs
        rw [stops] at sets
        exact nomatch sets
      · rintro ⟨entry, only, accepts⟩
        have sameKey := keyDbt_eq serves (by rw [only]; exact List.cons_ne_nil _ _)
        obtain ⟨filled, sets, fills⟩ := setFirst_accepts (accepts values rfl)
        refine ⟨1, some filled, ?_, by rw [only]; rfl, ?_⟩
        · rw [sameKey, only]
          show (setFirst values (.malloced entry.value) >>= fun values => _) = _
          rw [sets]
          rfl
        · rintro records same
          rw [only, ← Option.some.inj same]
          exact ⟨filled, rfl, fills⟩

/-- The loop of `db_find` goes through the records of the key. -/
theorem dbFind_multiple_eq (serves : Serves bdb position contents) (several : db.multiple)
    (enough : (contents (keyDbt key)).length < fuel) (values : RecordArray) :
    dbFind bdb fuel db key (some values) =
      ((contents (keyDbt key)).foldlM FindState.pushEntry (.initial false) >>= fun s =>
        Exec.ok (s.count, some (s.shrink s.results))) := by
  obtain ⟨cursor, opens⟩ := serves.opens
  have yields : Yields (fun cursor => bdb.cursorGet cursor .nextDup (keyDbt key))
      (bdb.cursorGet cursor .set (keyDbt key)) ((contents (keyDbt key)).map Entry.value) :=
    yields_drop (fun cursor flags => serves.cursorGet cursor flags (keyDbt key)) rfl
      List.drop_zero
  rw [dbFind, if_neg (not_not_intro several), opens]
  dsimp only
  rw [findLoop_yields yields (by rw [List.length_map]; exact enough), foldlM_pushValue rfl]

/-- `db_find` on a database with duplicate keys. -/
theorem dbFind_multiple (serves : Serves bdb position contents) (several : db.multiple)
    (enough : (contents (keyDbt key)).length < fuel) :
    FindReports (contents key) pValues (dbFind bdb fuel db key pValues) ↔
      pValues ≠ none ∧ contents (keyDbt key) = contents key ∧
        ∀ entry ∈ contents key, entry.value ≠ [] := by
  cases pValues with
  | none =>
      constructor
      · rintro ⟨count, values, runs, -⟩
        have stops : dbFind bdb fuel db key none = .fault .assertion :=
          if_neg (not_not_intro several)
        rw [stops] at runs
        exact nomatch runs
      · intro requested
        exact absurd rfl requested.1
  | some values =>
      rw [dbFind_multiple_eq serves several enough]
      have stores : ∀ entry : Entry, entry.Stores false ↔ entry.value ≠ [] := fun entry =>
        ⟨fun both => both.1, fun some_ => ⟨some_, fun impossible => nomatch impossible⟩⟩
      constructor
      · rintro ⟨count, values', runs, length, -⟩
        by_cases good : ∀ entry ∈ contents (keyDbt key), entry.Stores false
        · obtain ⟨s, folds, gathered, -⟩ := foldlM_gathered (initial_gathered false) good
          rw [folds] at runs
          have counted : s.count = count := (Prod.ext_iff.1 (Exec.ok.inj runs)).1
          have same := contents_keyDbt serves (gathered.count.symm.trans (counted.trans length))
          refine ⟨Option.some_ne_none _, same, ?_⟩
          intro entry member
          exact (stores entry).1 (good entry (same ▸ member))
        · obtain ⟨cause, stops⟩ := foldlM_refuses (initial_gathered false) good
          rw [stops] at runs
          exact nomatch runs
      · rintro ⟨-, same, some_⟩
        rw [same]
        obtain ⟨s, folds, gathered, -⟩ := foldlM_gathered (initial_gathered false)
          fun entry member => (stores entry).2 (some_ entry member)
        rw [List.nil_append] at gathered
        refine ⟨s.count, some (s.shrink s.results), by rw [folds]; rfl, gathered.count, ?_⟩
        intro records _
        refine ⟨_, rfl, shrink_fills records ?_ gathered.results⟩
        rw [List.length_map]
        exact gathered.count

theorem setFirstKey_accepts {bytes : Bytes}
    (accepts : ∀ keys, pKeys = some keys → Accepts keys bytes) :
    ∃ keys, setFirstKey pKeys bytes = .ok keys ∧ FillsRequested pKeys keys [bytes] := by
  cases pKeys with
  | none => exact ⟨none, rfl, fun _ same => nomatch same⟩
  | some keys =>
      obtain ⟨filled, sets, fills⟩ := setFirst_accepts (accepts keys rfl)
      refine ⟨some filled, by rw [setFirstKey, sets]; rfl, ?_⟩
      intro records same
      rw [← Option.some.inj same]
      exact ⟨filled, rfl, fills⟩

theorem setFirstKey_ok {bytes : Bytes} {after : Option RecordArray}
    (sets : setFirstKey pKeys bytes = .ok after) :
    ∀ keys, pKeys = some keys → Accepts keys bytes := by
  rintro keys rfl
  by_contra refuses
  obtain ⟨cause, stops⟩ := setFirst_refuses refuses
  rw [setFirstKey, stops] at sets
  exact nomatch sets

theorem setFirst_ok {bytes : Bytes} {values after : RecordArray}
    (sets : setFirst values (.malloced bytes) = .ok after) : Accepts values bytes := by
  by_contra refuses
  obtain ⟨cause, stops⟩ := setFirst_refuses refuses
  rw [stops] at sets
  exact nomatch sets

/-- `db_find_secondary` without a place for the values. -/
theorem dbFindSecondary_unrequested :
    FindSecondaryReports (contents key) pKeys none (dbFindSecondary bdb fuel db key pKeys none) ↔
      ¬ db.multiple ∧ ∃ entry, contents key = [entry] ∧
        ∀ keys, pKeys = some keys → Fills keys keys [entry.key] := by
  constructor
  · rintro ⟨count, keys, values, runs, length, filled, -⟩
    by_cases several : db.multiple
    · have stops : dbFindSecondary bdb fuel db key pKeys none = .fault .assertion :=
        if_neg (not_not_intro several)
      rw [stops] at runs
      exact nomatch runs
    · have one : dbFindSecondary bdb fuel db key pKeys none = .ok (1, pKeys, none) :=
        if_pos several
      rw [one] at runs
      have parts := Exec.ok.inj runs
      obtain ⟨entry, only⟩ := List.length_eq_one_iff.1
        (length.symm.trans (Prod.ext_iff.1 parts).1.symm)
      refine ⟨several, entry, only, ?_⟩
      intro records same
      obtain ⟨after, there, fills⟩ := filled records same
      have unchanged : pKeys = keys := (Prod.ext_iff.1 (Prod.ext_iff.1 parts).2).1
      rw [← unchanged, same] at there
      rw [← Option.some.inj there, map_eq_singleton only] at fills
      exact fills
  · rintro ⟨unique, entry, only, fills⟩
    refine ⟨1, pKeys, none, if_pos unique, by rw [only]; rfl, ?_, fun _ same => nomatch same⟩
    intro records same
    rw [map_eq_singleton only]
    exact ⟨records, same, fills records same⟩

/-- `db_find_secondary` on a database without duplicate keys. -/
theorem dbFindSecondary_unique (serves : Serves bdb position contents) (unique : ¬ db.multiple)
    (noDuplicates : (contents (keyDbt key)).length ≤ 1) (values : RecordArray) :
    FindSecondaryReports (contents key) pKeys (some values)
        (dbFindSecondary bdb fuel db key pKeys (some values)) ↔
      contents (keyDbt key) = contents key ∧ ∀ entry ∈ contents key,
        Accepts values entry.value ∧ ∀ keys, pKeys = some keys → Accepts keys entry.key := by
  unfold dbFindSecondary
  rw [if_pos unique]
  dsimp only
  rw [serves.pget]
  cases stored : contents (keyDbt key) with
  | nil =>
      constructor
      · rintro ⟨count, keys, after, runs, length, -⟩
        have zero : count = 0 := (Prod.ext_iff.1 (Exec.ok.inj runs)).1.symm
        have none_ := List.length_eq_zero_iff.1 (length.symm.trans zero)
        rw [none_]
        exact ⟨rfl, fun entry member => absurd member List.not_mem_nil⟩
      · rintro ⟨same, -⟩
        refine ⟨0, pKeys, some values, rfl, by rw [← same]; rfl, ?_, ?_⟩
        · intro records here
          rw [← same]
          exact ⟨records, here, fills_nil records⟩
        · intro records here
          rw [← same]
          exact ⟨records, here, fills_nil records⟩
  | cons entry rest =>
      rw [stored, List.length_cons] at noDuplicates
      have only : rest = [] := List.length_eq_zero_iff.1 (by omega)
      subst only
      show FindSecondaryReports _ _ _ (setFirstKey pKeys entry.key >>= fun keys =>
        setFirst values (.malloced entry.value) >>= fun values => .ok (1, keys, some values)) ↔ _
      constructor
      · rintro ⟨count, keys, after, runs, length, -⟩
        obtain ⟨keysAfter, setsKey, rest⟩ := Exec.bind_eq_ok.1 runs
        obtain ⟨valuesAfter, sets, done⟩ := Exec.bind_eq_ok.1 rest
        have one : count = 1 := (Prod.ext_iff.1 (Exec.ok.inj done)).1.symm
        have same : contents (keyDbt key) = contents key := by
          apply contents_keyDbt serves
          rw [stored, ← length, one]
          rfl
        rw [← same, stored]
        refine ⟨rfl, ?_⟩
        intro other member
        rw [List.mem_singleton.1 member]
        exact ⟨setFirst_ok sets, setFirstKey_ok setsKey⟩
      · rintro ⟨same, accepts⟩
        rw [← same] at accepts ⊢
        obtain ⟨acceptsValue, acceptsKey⟩ := accepts entry List.mem_cons_self
        obtain ⟨keys, setsKey, fillsKey⟩ := setFirstKey_accepts acceptsKey
        obtain ⟨filled, sets, fills⟩ := setFirst_accepts acceptsValue
        refine ⟨1, keys, some filled, by rw [setsKey, Exec.ok_bind, sets]; rfl, rfl, fillsKey, ?_⟩
        intro records here
        rw [← Option.some.inj here]
        exact ⟨filled, rfl, fills⟩

/-- The loop of `db_find_secondary` goes through the records of the key. -/
theorem dbFindSecondary_multiple_eq (serves : Serves bdb position contents) (several : db.multiple)
    (enough : (contents (keyDbt key)).length < fuel) (values : RecordArray) :
    dbFindSecondary bdb fuel db key pKeys (some values) =
      ((contents (keyDbt key)).foldlM FindState.pushEntry (.initial pKeys.isSome) >>= fun s =>
        Exec.ok (finishSecondary pKeys values s)) := by
  obtain ⟨cursor, opens⟩ := serves.opens
  have gives : ∀ cursor flags, ∃ next, bdb.cursorPget cursor flags (keyDbt key) =
      (answer ((entryAt contents (target (position cursor) (keyDbt key) flags)).map id), next) ∧
      position next =
        moved contents (position cursor) (target (position cursor) (keyDbt key) flags) := by
    intro cursor flags
    rw [Option.map_id, id]
    exact serves.cursorPget cursor flags (keyDbt key)
  have yields : Yields (fun cursor => bdb.cursorPget cursor .nextDup (keyDbt key))
      (bdb.cursorPget cursor .set (keyDbt key)) ((contents (keyDbt key)).map id) :=
    yields_drop gives rfl List.drop_zero
  rw [List.map_id] at yields
  unfold dbFindSecondary
  rw [if_neg (not_not_intro several), opens]
  dsimp only
  rw [findLoop_yields yields enough]

/-- The records of the arrays are those requested. -/
theorem finishSecondary_fills {s : FindState} {done : List Entry} (values : RecordArray)
    (gathered : Gathered s done) (withKeys : s.keys.isSome = pKeys.isSome) :
    ∃ keys after, finishSecondary pKeys values s = (s.count, keys, some after) ∧
      FillsRequested pKeys keys (done.map Entry.key) ∧
      Fills values after (done.map Entry.value) := by
  rw [finishSecondary]
  split
  next zero =>
    have none_ : done = [] := List.length_eq_zero_iff.1 (gathered.count.symm.trans zero)
    subst none_
    refine ⟨pKeys, values, by rw [zero], ?_, fills_nil values⟩
    intro records same
    exact ⟨records, same, fills_nil records⟩
  next =>
    refine ⟨_, _, rfl, ?_, shrink_fills values ?_ gathered.results⟩
    · rintro records rfl
      obtain ⟨keys, there⟩ := Option.isSome_iff_exists.1 withKeys
      refine ⟨s.shrink keys, by rw [there]; rfl, ?_⟩
      apply shrink_fills records _ (gathered.keys keys there)
      rw [List.length_map]
      exact gathered.count
    · rw [List.length_map]
      exact gathered.count

/-- `db_find_secondary` on a database with duplicate keys. -/
theorem dbFindSecondary_multiple (serves : Serves bdb position contents) (several : db.multiple)
    (enough : (contents (keyDbt key)).length < fuel) (values : RecordArray) :
    FindSecondaryReports (contents key) pKeys (some values)
        (dbFindSecondary bdb fuel db key pKeys (some values)) ↔
      contents (keyDbt key) = contents key ∧
        ∀ entry ∈ contents key, entry.value ≠ [] ∧ (pKeys ≠ none → entry.key ≠ []) := by
  rw [dbFindSecondary_multiple_eq serves several enough]
  have initialKeys : (FindState.initial pKeys.isSome).keys.isSome = pKeys.isSome := by
    cases pKeys with
    | none => rfl
    | some keys => rfl
  have stores : ∀ entry : Entry, entry.Stores (FindState.initial pKeys.isSome).keys.isSome ↔
      entry.value ≠ [] ∧ (pKeys ≠ none → entry.key ≠ []) := by
    intro entry
    rw [initialKeys, Entry.Stores, Option.isSome_iff_ne_none]
  constructor
  · rintro ⟨count, keys, after, runs, length, -⟩
    by_cases good : ∀ entry ∈ contents (keyDbt key),
        entry.Stores (FindState.initial pKeys.isSome).keys.isSome
    · obtain ⟨s, folds, gathered, sameKeys⟩ := foldlM_gathered (initial_gathered _) good
      rw [folds] at runs
      obtain ⟨keys', after', finishes, -, -⟩ :=
        finishSecondary_fills values gathered (sameKeys.trans initialKeys)
      have counted : s.count = count := by
        have done := Exec.ok.inj runs
        rw [finishes] at done
        exact (Prod.ext_iff.1 done).1
      have same := contents_keyDbt serves (gathered.count.symm.trans (counted.trans length))
      refine ⟨same, ?_⟩
      intro entry member
      exact (stores entry).1 (good entry (same ▸ member))
    · obtain ⟨cause, stops⟩ := foldlM_refuses (initial_gathered _) good
      rw [stops] at runs
      exact nomatch runs
  · rintro ⟨same, some_⟩
    rw [same]
    obtain ⟨s, folds, gathered, sameKeys⟩ := foldlM_gathered (initial_gathered pKeys.isSome)
      fun entry member => (stores entry).2 (some_ entry member)
    rw [List.nil_append] at gathered
    obtain ⟨keys, after, finishes, fillsKeys, fills⟩ :=
      finishSecondary_fills values gathered (sameKeys.trans initialKeys)
    refine ⟨s.count, keys, some after, ?_, gathered.count, fillsKeys, ?_⟩
    · rw [folds, Exec.ok_bind, finishes]
    · intro records here
      rw [← Option.some.inj here]
      exact ⟨after, rfl, fills⟩

/-- Each lookup reports what is stored exactly under its condition. A database without duplicate
keys has one record for a key at most. -/
theorem lookups_report_iff (serves : Serves bdb position contents)
    (noDuplicates : ¬ db.multiple → ∀ key, (contents key).length ≤ 1)
    (enough : (contents (keyDbt key)).length < fuel) :
    (FindReports (contents key) pValues (dbFind bdb fuel db key pValues) ↔
      FindsWhen contents db key pValues) ∧
    (FindSecondaryReports (contents key) pKeys pValues
        (dbFindSecondary bdb fuel db key pKeys pValues) ↔
      FindsSecondaryWhen contents db key pKeys pValues) := by
  constructor
  · rw [FindsWhen]
    split
    next several => exact dbFind_multiple serves several enough
    next unique => exact dbFind_unique serves unique
  · cases pValues with
    | none => exact dbFindSecondary_unrequested
    | some values =>
        rw [FindsSecondaryWhen]
        split
        next several => exact dbFindSecondary_multiple serves several enough values
        next unique => exact dbFindSecondary_unique serves unique (noDuplicates unique _) values

end Lookups

/-- Two records behind one key. -/
def twinContents (key : Bytes) : List Entry :=
  if key = [1] then [⟨[7], [8]⟩, ⟨[9], [10]⟩] else []

theorem twinContents_short : ∀ key, twinContents key ≠ [] → key.length < 2 ^ 32 := by
  intro key known
  by_cases same : key = [1]
  · rw [same]
    decide
  · exact absurd (if_neg same) known

theorem lookups_report_iff_twin :
    (FindReports (twinContents [1]) (some none)
        (dbFind (tableDb twinContents) 3 ⟨0x8000⟩ [1] (some none)) ↔
      FindsWhen twinContents ⟨0x8000⟩ [1] (some none)) ∧
    (FindSecondaryReports (twinContents [1]) (some none) (some none)
        (dbFindSecondary (tableDb twinContents) 3 ⟨0x8000⟩ [1] (some none) (some none)) ↔
      FindsSecondaryWhen twinContents ⟨0x8000⟩ [1] (some none) (some none)) :=
  lookups_report_iff (tableDb_serves twinContents_short) (fun unique => absurd rfl unique)
    (by decide)

example : FindsWhen twinContents ⟨0x8000⟩ [1] (some none) := by
  refine ⟨Option.some_ne_none _, rfl, ?_⟩
  decide

/-- A key that is not in the database. -/
theorem dbFind_missing :
    ¬ FindReports [] (some none) (dbFind (tableDb fun _ => []) 1 ⟨0⟩ [1] (some none)) := by
  rintro ⟨count, values, runs, length, -⟩
  have one : (1 : Nat) = count := (Prod.ext_iff.1 (Exec.ok.inj runs)).1
  rw [length] at one
  exact absurd one (by decide)

end BitcoinClib.Db
