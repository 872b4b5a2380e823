import BitcoinClib.Db.OpenList
import BitcoinClib.Lib.Stages

/-!
Contract: runs of `engine_list_add` and `engine_list_remove`.

Owns:
- `openHandles`, the set of handles that were added and not removed since;
- `Faithful`, a list that holds such a set, for its lookups and for the shutdown as well;
- `openList_faithful_iff`: the runs in which the list is faithful at every stage.
-/

namespace BitcoinClib.Db

open BitcoinClib.Lib

variable {Handle Dbp : Type} [DecidableEq Handle] [DecidableEq Dbp]

/-! ## Calls -/

inductive ListCall (Handle : Type) where
  | add (db : Handle)
  | remove (db : Handle)

namespace ListCall

/-- What the call does to the list. -/
def run (priv : EnginePrivate Handle) : ListCall Handle → Exec (EnginePrivate Handle)
  | .add db => do
      let (_, priv) ← engineListAdd priv db
      .ok priv
  | .remove db => do
      let (_, priv) ← engineListRemove priv db
      .ok priv

/-- What the call does to the set of open handles. -/
def apply (opened : Finset Handle) : ListCall Handle → Finset Handle
  | .add db => insert db opened
  | .remove db => opened.erase db

end ListCall

/-- The list after some calls on a new engine. -/
def listRun (calls : List (ListCall Handle)) : Exec (EnginePrivate Handle) := do
  let priv ← dbEnginePrivateNew
  calls.foldlM ListCall.run priv

/-- The handles that were added and not removed since. -/
def openHandles (calls : List (ListCall Handle)) : Finset Handle := calls.foldl ListCall.apply ∅

theorem listRun_concat (calls : List (ListCall Handle)) (call : ListCall Handle) :
    listRun (calls ++ [call]) = listRun calls >>= fun priv => call.run priv := by
  rw [listRun, listRun, bind_assoc]
  apply Exec.bind_congr_of rfl
  intro priv
  exact foldlM_concat ListCall.run priv calls call

theorem openHandles_concat (calls : List (ListCall Handle)) (call : ListCall Handle) :
    openHandles (calls ++ [call]) = call.apply (openHandles calls) := by
  rw [openHandles, openHandles, List.foldl_append, List.foldl_cons, List.foldl_nil]

/-! ## Lists -/

/-- The list has these entries and no others. -/
structure Lists (priv : EnginePrivate Handle) (dbs : List Handle) : Prop where
  env : priv.env = true
  count : priv.count = dbs.length
  entries : ∃ spare, priv.databases = dbs.map (fun db => some (some db)) ++ spare
  size : priv.databases.length = priv.maxSize
  distinct : dbs.Nodup

/-- The entries of the list are the handles of a set: each once and none NULL, each found by the
two lookups, and each closed once at the shutdown. -/
structure Faithful (handles : DbHandles Handle Dbp) (priv : EnginePrivate Handle)
    (opened : Finset Handle) : Prop where
  entries : ∃ dbs : List Handle, dbs.Nodup ∧ dbs.toFinset = opened ∧ priv.count = dbs.length ∧
    priv.databases.take priv.count = dbs.map fun db => some (some db)
  found : ∀ db ∈ opened, ∃ i < priv.count, listFind priv db = .ok (some i) ∧
    priv.databases[i]? = some (some (some db))
  missing : ∀ db ∉ opened, listFind priv db = .ok none
  lookup : ∀ db ∈ opened, dbEngineFindDb handles priv (handles.dbp db) = .ok (some db)
  shutdown : ∃ closed, dbEnginePrivateFree priv = .ok closed ∧ closed.Nodup ∧
    closed.toFinset = opened

theorem set_middle {α : Type} (before after : List α) (old item : α) :
    (before ++ old :: after).set before.length item = before ++ item :: after := by
  rw [List.set_append_right _ _ (le_refl _), Nat.sub_self, List.set_cons_zero]

/-- An item takes the place of another one, and its own place is cleared. -/
theorem set_swap {α : Type} (front middle spare : List α) (old last cleared : α) :
    ((front ++ old :: (middle ++ last :: spare)).set front.length last).set
        (front.length + (middle.length + 1)) cleared =
      (front ++ last :: middle) ++ cleared :: spare := by
  have place : front.length + (middle.length + 1) = (front ++ last :: middle).length := by
    rw [List.length_append, List.length_cons]
  have split : front ++ last :: (middle ++ last :: spare) =
      (front ++ last :: middle) ++ last :: spare := by
    rw [List.append_assoc, List.cons_append]
  rw [set_middle, place, split, set_middle]

omit [DecidableEq Handle] in
theorem readEntry_middle (before after : List (Option (Option Handle))) (db : Option Handle) :
    readEntry (before ++ some db :: after) before.length = .ok db := by
  have stored : Exec.readAt (before ++ some db :: after) before.length = .ok (some db) := by
    rw [Exec.readAt_eq_ok, List.getElem?_append_right (le_refl _), Nat.sub_self]
    rfl
  rw [readEntry, stored, Exec.ok_bind]

omit [DecidableEq Handle] in
theorem readEntry_next (before spare : List (Option (Option Handle))) (db : Handle)
    (dbs : List Handle) :
    readEntry (before ++ (db :: dbs).map (fun db => some (some db)) ++ spare) before.length =
      .ok (some db) := by
  rw [List.map_cons, List.append_assoc, List.cons_append]
  exact readEntry_middle before _ (some db)

omit [DecidableEq Handle] in
theorem entries_shift (before spare : List (Option (Option Handle))) (db : Handle)
    (dbs : List Handle) :
    before ++ [some (some db)] ++ dbs.map (fun db => some (some db)) ++ spare =
      before ++ (db :: dbs).map (fun db => some (some db)) ++ spare := by
  rw [List.append_assoc before, List.singleton_append, List.map_cons]

omit [DecidableEq Handle] in
/-- The loop over entries that are handles. -/
theorem firstEntry_eq {test : Option Handle → Exec Bool} {passes : Handle → Bool}
    (tests : ∀ db, test (some db) = .ok (passes db)) (spare : List (Option (Option Handle))) :
    ∀ (before : List (Option (Option Handle))) (dbs : List Handle),
      firstEntry (before ++ dbs.map (fun db => some (some db)) ++ spare) test before.length
        dbs.length = .ok ((dbs.findIdx? passes).map (· + before.length))
  | _, [] => rfl
  | before, db :: dbs => by
      have next := firstEntry_eq tests spare (before ++ [some (some db)]) dbs
      rw [entries_shift, List.length_append, List.length_singleton] at next
      rw [List.length_cons, firstEntry, readEntry_next, Exec.ok_bind, tests, Exec.ok_bind,
        List.findIdx?_cons]
      by_cases passed : passes db = true
      · rw [if_pos passed, if_pos passed, Option.map_some, Nat.zero_add]
      · rw [if_neg passed, if_neg passed, next, Option.map_map]
        congr 2
        funext i
        show i + (before.length + 1) = i + 1 + before.length
        omega

/-- The entries that are handles are closed in turn. -/
theorem closeEntries_eq (spare : List (Option (Option Handle))) :
    ∀ (before : List (Option (Option Handle))) (dbs closed : List Handle), (closed ++ dbs).Nodup →
      closeEntries (before ++ dbs.map (fun db => some (some db)) ++ spare) before.length dbs.length
        closed = .ok (closed ++ dbs)
  | _, [], closed, _ => by rw [List.append_nil]; rfl
  | before, db :: dbs, closed, distinct => by
      have fresh : db ∉ closed := fun member =>
        List.disjoint_of_nodup_append distinct member List.mem_cons_self
      rw [List.append_cons] at distinct
      have next := closeEntries_eq spare (before ++ [some (some db)]) dbs (closed ++ [db]) distinct
      rw [entries_shift, List.length_append, List.length_singleton] at next
      rw [List.length_cons, closeEntries, readEntry_next, Exec.ok_bind]
      dsimp only
      rw [if_neg fresh, next, ← List.append_cons]

/-- Entries that are NULL are passed over. -/
theorem closeEntries_nulls (spare : List (Option (Option Handle))) (left : Nat)
    (closed : List Handle) : ∀ (before : List (Option (Option Handle))) (nulls : Nat),
      closeEntries (before ++ (List.replicate nulls (some none) ++ spare)) before.length
          (nulls + left) closed =
        closeEntries (before ++ (List.replicate nulls (some none) ++ spare))
          (before.length + nulls) left closed
  | before, 0 => by rw [Nat.zero_add, Nat.add_zero]
  | before, nulls + 1 => by
      have next := closeEntries_nulls spare left closed (before ++ [some none]) nulls
      rw [List.append_assoc, List.singleton_append, List.length_append, List.length_singleton,
        Nat.add_right_comm, Nat.add_assoc before.length] at next
      rw [List.replicate_succ, List.cons_append, Nat.add_right_comm, closeEntries,
        readEntry_middle, Exec.ok_bind]
      exact next

namespace Lists

variable {priv : EnginePrivate Handle} {dbs front back : List Handle} {db : Handle}

omit [DecidableEq Handle] in
theorem firstEntry (lists : Lists priv dbs) {test : Option Handle → Exec Bool}
    {passes : Handle → Bool} (tests : ∀ db, test (some db) = .ok (passes db)) :
    Db.firstEntry priv.databases test 0 priv.count = .ok (dbs.findIdx? passes) := by
  obtain ⟨spare, entries⟩ := lists.entries
  have loop := firstEntry_eq tests spare [] dbs
  rw [List.nil_append, List.length_nil, ← entries, ← lists.count] at loop
  rw [loop]
  simp

omit [DecidableEq Handle] in
/-- The first handle that passes a test. -/
theorem findIdx?_split {passes : Handle → Bool} (here : passes db = true)
    (earlier : ∀ other ∈ front, passes other = false) :
    (front ++ db :: back).findIdx? passes = some front.length := by
  rw [List.findIdx?_append, List.findIdx?_eq_none_iff.2 earlier, List.findIdx?_cons, if_pos here]
  simp

theorem listFind_of_mem (lists : Lists priv (front ++ db :: back)) :
    listFind priv db = .ok (some front.length) := by
  have absent : db ∉ front := fun member =>
    List.disjoint_of_nodup_append lists.distinct member List.mem_cons_self
  have first : (front ++ db :: back).findIdx? (fun other => some other = some db) =
      some front.length := by
    apply findIdx?_split
    · exact decide_eq_true rfl
    · intro other member
      apply decide_eq_false
      intro same
      cases same
      exact absent member
  rw [listFind, lists.firstEntry fun _ => rfl, first]

theorem listFind_of_not_mem (lists : Lists priv dbs) (absent : db ∉ dbs) :
    listFind priv db = .ok none := by
  have never : dbs.findIdx? (fun other => some other = some db) = none := by
    rw [List.findIdx?_eq_none_iff]
    intro other member
    apply decide_eq_false
    intro same
    cases same
    exact absent member
  rw [listFind, lists.firstEntry fun _ => rfl, never]

omit [DecidableEq Handle] in
theorem readEntry_at (lists : Lists priv (front ++ db :: back)) :
    readEntry priv.databases front.length = .ok (some db) := by
  obtain ⟨spare, entries⟩ := lists.entries
  rw [entries, List.map_append, List.append_assoc, ← List.length_map (fun db => some (some db)),
    List.map_cons, List.cons_append]
  exact readEntry_middle _ _ (some db)

omit [DecidableEq Handle] in
/-- The `DB` of a handle on the list leads back to the handle. -/
theorem findDb_of_mem (handles : DbHandles Handle Dbp)
    (lists : Lists priv (front ++ db :: back)) :
    dbEngineFindDb handles priv (handles.dbp db) = .ok (some db) := by
  have absent : db ∉ front := fun member =>
    List.disjoint_of_nodup_append lists.distinct member List.mem_cons_self
  have first : (front ++ db :: back).findIdx? (fun other => handles.dbp db = handles.dbp other) =
      some front.length := by
    apply findIdx?_split
    · exact decide_eq_true rfl
    · intro other member
      apply decide_eq_false
      intro same
      rw [handles.own same] at absent
      exact absent member
  rw [dbEngineFindDb, lists.firstEntry fun _ => rfl, first]
  exact lists.readEntry_at

theorem shutdown (lists : Lists priv dbs) : dbEnginePrivateFree priv = .ok dbs := by
  obtain ⟨spare, entries⟩ := lists.entries
  have closes := closeEntries_eq spare [] dbs [] lists.distinct
  rw [List.nil_append, List.length_nil, ← entries, ← lists.count] at closes
  rw [dbEnginePrivateFree, if_pos lists.env, closes, List.nil_append]

theorem faithful (handles : DbHandles Handle Dbp) (lists : Lists priv dbs) :
    Faithful handles priv dbs.toFinset where
  entries := by
    obtain ⟨spare, entries⟩ := lists.entries
    refine ⟨dbs, lists.distinct, rfl, lists.count, ?_⟩
    rw [entries, lists.count]
    exact List.take_left' (List.length_map _)
  found db member := by
    obtain ⟨front, back, rfl⟩ := List.append_of_mem (List.mem_toFinset.1 member)
    have shorter : front.length < priv.count := by
      rw [lists.count, List.length_append, List.length_cons]
      omega
    refine ⟨front.length, shorter, lists.listFind_of_mem, ?_⟩
    have reads := lists.readEntry_at
    rw [readEntry, Exec.bind_eq_ok] at reads
    obtain ⟨entry, stored, same⟩ := reads
    cases entry with
    | none => cases same
    | some entry =>
        cases same
        exact Exec.readAt_eq_ok.1 stored
  missing db absent := lists.listFind_of_not_mem fun member => absent (List.mem_toFinset.2 member)
  lookup db member := by
    obtain ⟨front, back, rfl⟩ := List.append_of_mem (List.mem_toFinset.1 member)
    exact lists.findDb_of_mem handles
  shutdown := ⟨dbs, lists.shutdown, lists.distinct, rfl⟩

end Lists

/-! ## Steps -/

theorem roundedEngineSize_eq {size : Nat} (positive : 0 < size)
    (inRange : size + dbEngineAllocSize < 2 ^ 31) :
    roundedEngineSize size =
      .ok ((size + dbEngineAllocSize - 1) / dbEngineAllocSize * dbEngineAllocSize) := by
  rw [roundedEngineSize, if_neg (by omega), Int.toNat_natCast, Exec.checkedInt_of_lt inRange,
    Exec.ok_bind]

theorem roundedEngineSize_small {size : Nat} (positive : 0 < size)
    (small : size ≤ dbEngineAllocSize) : roundedEngineSize size = .ok dbEngineAllocSize := by
  unfold dbEngineAllocSize at small
  rw [roundedEngineSize_eq positive (by unfold dbEngineAllocSize; omega)]
  unfold dbEngineAllocSize
  congr 1
  omega

omit [DecidableEq Handle] in
/-- The list after `db_engine_private_new`. -/
theorem dbEnginePrivateNew_lists :
    ∃ priv : EnginePrivate Handle, dbEnginePrivateNew = .ok priv ∧ Lists priv [] ∧
      priv.maxSize = dbEngineAllocSize :=
  ⟨⟨true, dbEngineAllocSize, 0, List.replicate dbEngineAllocSize (some none)⟩, rfl,
    ⟨rfl, rfl, ⟨_, rfl⟩, rfl, List.nodup_nil⟩, rfl⟩

omit [DecidableEq Handle] in
/-- There is room: the array stays as it is. -/
theorem dbEngineResize_room {priv : EnginePrivate Handle} {size : Nat} (positive : 0 < size)
    (small : size ≤ dbEngineAllocSize) (full : priv.maxSize = dbEngineAllocSize) :
    dbEngineResize priv size = .ok (0, priv) := by
  rw [dbEngineResize, roundedEngineSize_small positive small, Exec.ok_bind, full,
    if_neg (lt_irrefl _), Nat.sub_self]
  dsimp only
  rw [List.replicate_zero, List.replicate_zero, List.append_nil, List.nil_append, List.drop_zero,
    ← full]

namespace Lists

variable {priv : EnginePrivate Handle} {dbs front back : List Handle} {db : Handle}

/-- A handle on the list is not added again. -/
theorem add_known (lists : Lists priv dbs) (member : db ∈ dbs) :
    engineListAdd priv db = .ok (-1, priv) := by
  obtain ⟨front, back, rfl⟩ := List.append_of_mem member
  rw [engineListAdd, lists.listFind_of_mem, Exec.ok_bind]

/-- A new handle comes to the end of the list. -/
theorem add_new (lists : Lists priv dbs) (fresh : db ∉ dbs) (room : dbs.length < dbEngineAllocSize)
    (first : priv.maxSize = dbEngineAllocSize) :
    ∃ after, engineListAdd priv db = .ok (0, after) ∧ Lists after (dbs ++ [db]) ∧
      after.maxSize = dbEngineAllocSize := by
  obtain ⟨spare, entries⟩ := lists.entries
  have size := lists.size
  have inside : priv.count < priv.databases.length := by
    rw [lists.count, size, first]
    exact room
  have resizes : dbEngineResize priv (intOfSize (priv.count + 1)) = .ok (0, priv) := by
    have small : priv.count + 1 ≤ dbEngineAllocSize := by
      rw [lists.count]
      exact room
    rw [intOfSize_of_small (lt_of_le_of_lt small (by decide))]
    exact dbEngineResize_room (Nat.succ_pos _) small first
  refine ⟨{ priv with
    databases := priv.databases.set priv.count (some (some db)), count := priv.count + 1 }, ?_, ?_,
    first⟩
  · rw [engineListAdd, lists.listFind_of_not_mem fresh, Exec.ok_bind]
    dsimp only
    rw [resizes, Exec.ok_bind]
    dsimp only
    rw [if_pos rfl, Exec.writeAt_of_lt inside, Exec.ok_bind]
  · refine ⟨lists.env, ?_, ?_, ?_, ?_⟩
    · rw [List.length_append, List.length_singleton, ← lists.count]
    · cases spare with
      | nil =>
          rw [entries, List.append_nil, List.length_map, lists.count] at inside
          exact absurd inside (lt_irrefl _)
      | cons old spare =>
          refine ⟨spare, ?_⟩
          dsimp only
          rw [entries, lists.count, ← List.length_map (fun db => some (some db)), set_middle,
            List.map_append, List.append_assoc]
          rfl
    · rw [List.length_set]
      exact size
    · rw [List.nodup_append]
      refine ⟨lists.distinct, List.nodup_singleton db, ?_⟩
      intro old member other single same
      rw [List.mem_singleton] at single
      rw [same, single] at member
      exact fresh member

/-- A handle that is not on the list is not removed. -/
theorem remove_unknown (lists : Lists priv dbs) (absent : db ∉ dbs) :
    engineListRemove priv db = .ok (-1, priv) := by
  rw [engineListRemove, lists.listFind_of_not_mem absent, Exec.ok_bind]

/-- The last entry comes to the place of the handle, and its own place is cleared. -/
theorem remove_at (lists : Lists priv (front ++ db :: back)) {last : Option Handle}
    (reads : readEntry priv.databases (priv.count - 1) = .ok last) :
    engineListRemove priv db = .ok (0, { priv with
      databases := (priv.databases.set front.length (some last)).set (priv.count - 1) (some none)
      count := priv.count - 1 }) := by
  obtain ⟨spare, entries⟩ := lists.entries
  have count := lists.count
  rw [List.length_append, List.length_cons] at count
  have enough : priv.count ≤ priv.databases.length := by
    rw [entries, List.length_append, List.length_map, ← lists.count]
    exact Nat.le_add_right _ _
  have inside : front.length < priv.databases.length := by omega
  have lastInside : priv.count - 1 < (priv.databases.set front.length (some last)).length := by
    rw [List.length_set]
    omega
  rw [engineListRemove, lists.listFind_of_mem, Exec.ok_bind]
  dsimp only
  rw [if_pos (by omega), reads, Exec.ok_bind, Exec.writeAt_of_lt inside, Exec.ok_bind,
    Exec.writeAt_of_lt lastInside, Exec.ok_bind]

/-- A handle on the list is removed. -/
theorem remove_known (lists : Lists priv dbs) (member : db ∈ dbs) :
    ∃ after rest, engineListRemove priv db = .ok (0, after) ∧ Lists after rest ∧
      after.maxSize = priv.maxSize ∧ rest.Perm (dbs.erase db) := by
  obtain ⟨front, back, rfl⟩ := List.append_of_mem member
  have absent : db ∉ front := fun member =>
    List.disjoint_of_nodup_append lists.distinct member List.mem_cons_self
  have erased : (front ++ db :: back).erase db = front ++ back := by
    rw [List.erase_append_right _ absent, List.erase_cons_head]
  obtain ⟨spare, entries⟩ := lists.entries
  have count := lists.count
  have size := lists.size
  rw [erased]
  rcases List.eq_nil_or_concat' back with rfl | ⟨middle, last, rfl⟩
  · -- the handle is the last one
    rw [List.length_append, List.length_singleton] at count
    have lastIndex : priv.count - 1 = front.length := by omega
    refine ⟨_, front, lists.remove_at (lastIndex ▸ lists.readEntry_at), ?_, rfl, ?_⟩
    · refine ⟨lists.env, lastIndex, ⟨some none :: spare, ?_⟩, ?_, ?_⟩
      · dsimp only
        rw [lastIndex, List.set_set, entries, List.map_append, List.append_assoc,
          ← List.length_map (fun db => some (some db))]
        exact set_middle _ _ _ _
      · simpa only [List.length_set] using size
      · exact (List.nodup_append.1 lists.distinct).1
    · rw [List.append_nil]
  · -- the last handle takes the place of another one
    have split : front ++ db :: (middle ++ [last]) = (front ++ db :: middle) ++ [last] := by
      rw [List.append_assoc, List.cons_append]
    rw [split] at lists
    have lastIndex : priv.count - 1 = (front ++ db :: middle).length := by
      have count := lists.count
      rw [List.length_append, List.length_singleton] at count
      omega
    have reads := lists.readEntry_at
    rw [← lastIndex] at reads
    rw [← split] at lists
    have moved : (front ++ last :: middle).Perm (front ++ (middle ++ [last])) :=
      List.Perm.append_left front (List.perm_append_singleton last middle).symm
    have distinct : (front ++ last :: middle).Nodup :=
      moved.nodup_iff.2 (erased ▸ lists.distinct.erase db)
    refine ⟨_, front ++ last :: middle, lists.remove_at reads, ?_, rfl, ?_⟩
    · refine ⟨lists.env, ?_, ⟨some none :: spare, ?_⟩, ?_, ?_⟩
      · dsimp only
        rw [lastIndex, List.length_append, List.length_append, List.length_cons, List.length_cons]
      · have swapped := set_swap (front.map fun db => some (some db))
          (middle.map fun db => some (some db)) spare (some (some db)) (some (some last))
          (some none)
        rw [List.length_map, List.length_map] at swapped
        have place : priv.count - 1 = front.length + (middle.length + 1) := by
          rw [lastIndex, List.length_append, List.length_cons]
        dsimp only
        rw [entries, place, List.map_append, List.map_cons, List.map_append, List.append_assoc,
          List.cons_append, List.append_assoc, List.map_append, List.map_cons]
        exact swapped
      · simpa only [List.length_set] using size
      · exact distinct
    · exact moved

end Lists

/-! ## Growth -/

omit [DecidableEq Handle] in
/-- A growth clears the entries at the start of the array, as many as come behind its end. -/
theorem dbEngineResize_grows (priv : EnginePrivate Handle) (blocks : Nat)
    (inRange : dbEngineAllocSize * (blocks + 1) < 2 ^ 31)
    (full : priv.maxSize = dbEngineAllocSize * blocks) (size : priv.databases.length = priv.maxSize)
    (positive : 0 < blocks) :
    dbEngineResize priv (priv.maxSize + 1 : Nat) = .ok (0, { priv with
      databases := List.replicate dbEngineAllocSize (some none) ++
        (priv.databases.drop dbEngineAllocSize ++ List.replicate dbEngineAllocSize none)
      maxSize := dbEngineAllocSize * (blocks + 1) }) := by
  have rounded : roundedEngineSize (priv.maxSize + 1 : Nat) =
      .ok (dbEngineAllocSize * (blocks + 1)) := by
    rw [roundedEngineSize_eq (Nat.succ_pos _) (by unfold dbEngineAllocSize at *; omega), full]
    unfold dbEngineAllocSize
    congr 1
    omega
  have added : dbEngineAllocSize * (blocks + 1) - priv.maxSize = dbEngineAllocSize := by
    rw [full, Nat.mul_succ]
    omega
  have larger : ¬ dbEngineAllocSize * (blocks + 1) < priv.maxSize := by
    rw [full, Nat.mul_succ]
    omega
  have long : dbEngineAllocSize ≤ priv.databases.length := by
    rw [size, full]
    exact Nat.le_mul_of_pos_right _ positive
  rw [dbEngineResize, rounded, Exec.ok_bind, if_neg larger, added]
  dsimp only
  rw [List.drop_append_of_le_length long]

/-- A list whose first entry is NULL is not faithful. -/
theorem not_faithful_of_null {handles : DbHandles Handle Dbp} {priv : EnginePrivate Handle}
    {opened : Finset Handle} (null : priv.databases[0]? = some (some none))
    (positive : 0 < priv.count) : ¬ Faithful handles priv opened := by
  intro faithful
  obtain ⟨dbs, -, -, -, entries⟩ := faithful.entries
  have first : (priv.databases.take priv.count)[0]? = some (some none) := by
    rw [List.getElem?_take_of_lt positive, null]
  rw [entries, List.getElem?_map, Option.map_eq_some_iff] at first
  obtain ⟨db, -, same⟩ := first
  cases same

/-- What the first growth leaves: the handle that did not fit, behind NULL entries. -/
def clearedList (priv : EnginePrivate Handle) (db : Handle) : EnginePrivate Handle :=
  { priv with
    databases := List.replicate dbEngineAllocSize (some none) ++
      some (some db) :: List.replicate (dbEngineAllocSize - 1) none
    maxSize := dbEngineAllocSize * 2
    count := dbEngineAllocSize + 1 }

theorem clearedList_not_faithful (handles : DbHandles Handle Dbp) (priv : EnginePrivate Handle)
    (db : Handle) (opened : Finset Handle) : ¬ Faithful handles (clearedList priv db) opened :=
  not_faithful_of_null rfl (Nat.succ_pos dbEngineAllocSize)

/-- One handle is closed at the shutdown. -/
theorem clearedList_shutdown {priv : EnginePrivate Handle} (env : priv.env = true) (db : Handle) :
    dbEnginePrivateFree (clearedList priv db) = .ok [db] := by
  have passes := closeEntries_nulls (some (some db) :: List.replicate (dbEngineAllocSize - 1) none)
    1 [] [] dbEngineAllocSize
  have closes := closeEntries_eq (List.replicate (dbEngineAllocSize - 1) none)
    (List.replicate dbEngineAllocSize (some none)) [db] [] (List.nodup_singleton db)
  rw [List.nil_append, List.length_nil, Nat.zero_add] at passes
  rw [List.map_singleton, List.append_assoc, List.singleton_append, List.length_replicate] at closes
  rw [dbEnginePrivateFree]
  exact (if_pos env).trans (passes.trans closes)

/-- The handle that does not fit is added, and the entries before it are lost. -/
theorem Lists.add_growing {priv : EnginePrivate Handle} {dbs : List Handle} {db : Handle}
    (lists : Lists priv dbs) (fresh : db ∉ dbs) (full : dbs.length = dbEngineAllocSize)
    (initial : priv.maxSize = dbEngineAllocSize) :
    engineListAdd priv db = .ok (0, clearedList priv db) := by
  have count : priv.count = dbEngineAllocSize := lists.count.trans full
  have resizes := dbEngineResize_grows priv 1 (by decide)
    (initial.trans (Nat.mul_one _).symm) lists.size Nat.one_pos
  have nothing : priv.databases.drop dbEngineAllocSize = [] := by
    rw [List.drop_eq_nil_iff, lists.size, initial]
  have written : Exec.writeAt (List.replicate dbEngineAllocSize (some none) ++
      List.replicate dbEngineAllocSize none) dbEngineAllocSize (some (some db)) =
        .ok (clearedList priv db).databases := by
    have places := set_middle (List.replicate dbEngineAllocSize (some (none : Option Handle)))
      (List.replicate (dbEngineAllocSize - 1) none) none (some (some db))
    rw [List.length_replicate] at places
    have inside : dbEngineAllocSize < (List.replicate dbEngineAllocSize
        (some (none : Option Handle)) ++ List.replicate dbEngineAllocSize none).length := by
      rw [List.length_append, List.length_replicate, List.length_replicate]
      decide
    rw [Exec.writeAt_of_lt inside]
    exact congrArg Exec.ok places
  rw [initial, nothing, List.nil_append] at resizes
  rw [engineListAdd, lists.listFind_of_not_mem fresh, Exec.ok_bind]
  dsimp only
  rw [count, intOfSize_of_small (by decide), resizes, Exec.ok_bind]
  dsimp only
  rw [if_pos rfl, count, written, Exec.ok_bind]
  rfl

/-! ## Runs -/

/-- A call after which no more handles are open than the first array has room for. -/
theorem ListCall.run_lists {priv : EnginePrivate Handle} {dbs : List Handle}
    (call : ListCall Handle) (lists : Lists priv dbs) (initial : priv.maxSize = dbEngineAllocSize)
    (room : (call.apply dbs.toFinset).card ≤ dbEngineAllocSize) :
    ∃ after rest, call.run priv = .ok after ∧ Lists after rest ∧
      after.maxSize = dbEngineAllocSize ∧ rest.toFinset = call.apply dbs.toFinset := by
  cases call with
  | add db =>
      rw [ListCall.apply] at room
      by_cases member : db ∈ dbs
      · refine ⟨priv, dbs, ?_, lists, initial, ?_⟩
        · rw [ListCall.run, lists.add_known member, Exec.ok_bind]
        · exact (Finset.insert_eq_of_mem (List.mem_toFinset.2 member)).symm
      · rw [Finset.card_insert_of_notMem (mt List.mem_toFinset.1 member),
          List.toFinset_card_of_nodup lists.distinct] at room
        obtain ⟨after, adds, afterLists, size⟩ := lists.add_new member room initial
        refine ⟨after, dbs ++ [db], ?_, afterLists, size, ?_⟩
        · rw [ListCall.run, adds, Exec.ok_bind]
        · rw [List.toFinset_append, List.toFinset_cons, List.toFinset_nil, ListCall.apply,
            Finset.union_comm, insert_empty_eq, Finset.singleton_union]
  | remove db =>
      by_cases member : db ∈ dbs
      · obtain ⟨after, rest, removes, afterLists, size, moved⟩ := lists.remove_known member
        refine ⟨after, rest, ?_, afterLists, size.trans initial, ?_⟩
        · rw [ListCall.run, removes, Exec.ok_bind]
        · ext other
          rw [List.mem_toFinset, moved.mem_iff, lists.distinct.mem_erase_iff, ListCall.apply,
            Finset.mem_erase, List.mem_toFinset]
      · refine ⟨priv, dbs, ?_, lists, initial, ?_⟩
        · rw [ListCall.run, lists.remove_unknown member, Exec.ok_bind]
        · exact (Finset.erase_eq_of_notMem (mt List.mem_toFinset.1 member)).symm

/-- The call that opens one handle more loses the others. -/
theorem ListCall.run_overflows {priv : EnginePrivate Handle} {dbs : List Handle}
    (call : ListCall Handle) (lists : Lists priv dbs) (initial : priv.maxSize = dbEngineAllocSize)
    (within : dbs.toFinset.card ≤ dbEngineAllocSize)
    (more : dbEngineAllocSize < (call.apply dbs.toFinset).card) :
    ∃ db, call = .add db ∧ call.run priv = .ok (clearedList priv db) := by
  cases call with
  | add db =>
      obtain ⟨fresh, full⟩ := full_of_card_insert within more
      rw [List.toFinset_card_of_nodup lists.distinct] at full
      refine ⟨db, rfl, ?_⟩
      rw [ListCall.run, lists.add_growing (mt List.mem_toFinset.2 fresh) full initial, Exec.ok_bind]
  | remove db =>
      have fewer : (dbs.toFinset.erase db).card ≤ dbs.toFinset.card := Finset.card_erase_le
      exact absurd more (Nat.not_lt.2 (le_trans fewer within))

/-- The list holds the open handles in its first array. -/
def ListsOpen (calls : List (ListCall Handle)) : Prop :=
  ∃ priv dbs, listRun calls = .ok priv ∧ Lists priv dbs ∧ priv.maxSize = dbEngineAllocSize ∧
    dbs.toFinset = openHandles calls

theorem listsOpen_nil : ListsOpen ([] : List (ListCall Handle)) := by
  obtain ⟨priv, creates, lists, initial⟩ := @dbEnginePrivateNew_lists Handle
  refine ⟨priv, [], ?_, lists, initial, rfl⟩
  rw [listRun, creates, Exec.ok_bind]
  rfl

theorem ListsOpen.concat {calls : List (ListCall Handle)} {call : ListCall Handle}
    (listed : ListsOpen calls)
    (room : (openHandles (calls ++ [call])).card ≤ dbEngineAllocSize) :
    ListsOpen (calls ++ [call]) := by
  obtain ⟨priv, dbs, runs, lists, initial, opened⟩ := listed
  rw [openHandles_concat, ← opened] at room
  obtain ⟨after, rest, calls', afterLists, size, same⟩ := call.run_lists lists initial room
  refine ⟨after, rest, ?_, afterLists, size, ?_⟩
  · rw [listRun_concat, runs, Exec.ok_bind, calls']
  · rw [openHandles_concat, ← opened, same]

/-- A run that opens one handle more than the first array has room for. -/
theorem ListsOpen.overflows {calls : List (ListCall Handle)} {call : ListCall Handle}
    (listed : ListsOpen calls) (within : (openHandles calls).card ≤ dbEngineAllocSize)
    (more : dbEngineAllocSize < (openHandles (calls ++ [call])).card) :
    ∃ priv db, call = .add db ∧ listRun (calls ++ [call]) = .ok (clearedList priv db) ∧
      dbEnginePrivateFree (clearedList priv db) = .ok [db] := by
  obtain ⟨priv, dbs, runs, lists, initial, opened⟩ := listed
  rw [openHandles_concat, ← opened] at more
  rw [← opened] at within
  obtain ⟨db, adds, grows⟩ := call.run_overflows lists initial within more
  refine ⟨priv, db, adds, ?_, clearedList_shutdown lists.env db⟩
  rw [listRun_concat, runs, Exec.ok_bind, grows]

/-- The open list is the exact subject of the condition: at most as many handles as the first
array has room for. -/
theorem openList_guarded (handles : DbHandles Handle Dbp) :
    Guarded (fun calls => ListsOpen calls ∧ (openHandles calls).card ≤ dbEngineAllocSize)
      (fun calls => ∃ priv, listRun calls = .ok priv ∧ Faithful handles priv (openHandles calls))
      (fun calls => (openHandles calls).card ≤ dbEngineAllocSize) where
  start := ⟨listsOpen_nil, Nat.zero_le _⟩
  within := Nat.zero_le _
  kept := fun listed room => ⟨listed.1.concat room, room⟩
  enough := by
    intro calls listed
    obtain ⟨⟨priv, dbs, runs, lists, -, opened⟩, -⟩ := listed
    exact ⟨priv, runs, opened ▸ lists.faithful handles⟩
  needed := by
    intro calls call listed property
    obtain ⟨after, reaches, faithful⟩ := property
    by_contra more
    obtain ⟨priv, db, -, grows, -⟩ := listed.1.overflows listed.2 (Nat.not_le.1 more)
    rw [grows] at reaches
    cases reaches
    exact clearedList_not_faithful handles priv db _ faithful

/-- The list of open databases is faithful at every stage of a run exactly when no more handles
are open at a time than its first array has room for. -/
theorem openList_faithful_iff (handles : DbHandles Handle Dbp) (calls : List (ListCall Handle)) :
    (∀ made, made <+: calls →
      ∃ priv, listRun made = .ok priv ∧ Faithful handles priv (openHandles made)) ↔
      ∀ made, made <+: calls → (openHandles made).card ≤ dbEngineAllocSize :=
  (openList_guarded handles).stages_iff calls

/-- One handle more than the first array has room for. -/
def manyHandles : List (ListCall Nat) := (List.range (dbEngineAllocSize + 1)).map .add

theorem openHandles_range (n : Nat) :
    openHandles ((List.range n).map ListCall.add) = Finset.range n := by
  induction n with
  | zero => rfl
  | succ n inductionHypothesis =>
      rw [List.range_succ, List.map_append, List.map_singleton, openHandles_concat,
        inductionHypothesis, ListCall.apply, Finset.range_add_one]

theorem listsOpen_range (n : Nat) (few : n ≤ dbEngineAllocSize) :
    ListsOpen ((List.range n).map ListCall.add) := by
  induction n with
  | zero => exact listsOpen_nil
  | succ n inductionHypothesis =>
      have room := openHandles_range (n + 1)
      rw [List.range_succ, List.map_append, List.map_singleton] at room ⊢
      apply (inductionHypothesis (Nat.le_of_succ_le few)).concat
      rw [room, Finset.card_range]
      exact few

/-- Only the last handle is closed at the shutdown. -/
theorem manyHandles_lost :
    listRun manyHandles >>= dbEnginePrivateFree = .ok [dbEngineAllocSize] ∧
    ¬ ∀ (handles : DbHandles Nat Nat) (calls : List (ListCall Nat)), ∀ made, made <+: calls →
      ∃ priv, listRun made = .ok priv ∧ Faithful handles priv (openHandles made) := by
  have last : manyHandles = (List.range dbEngineAllocSize).map ListCall.add ++
      [ListCall.add dbEngineAllocSize] := by
    rw [manyHandles, List.range_succ, List.map_append, List.map_singleton]
  have more : dbEngineAllocSize < (openHandles manyHandles).card := by
    rw [manyHandles, openHandles_range, Finset.card_range]
    exact Nat.lt_succ_self _
  rw [last] at more
  have within : (openHandles ((List.range dbEngineAllocSize).map ListCall.add)).card ≤
      dbEngineAllocSize := by
    rw [openHandles_range, Finset.card_range]
  obtain ⟨priv, db, same, runs, closes⟩ := (listsOpen_range _ (le_refl _)).overflows within more
  cases same
  rw [← last] at runs
  refine ⟨by rw [runs, Exec.ok_bind, closes], fun claim => ?_⟩
  obtain ⟨after, reaches, faithful⟩ :=
    claim ⟨id, Function.injective_id⟩ manyHandles _ List.prefix_rfl
  rw [runs] at reaches
  cases reaches
  exact clearedList_not_faithful _ priv dbEngineAllocSize _ faithful

end BitcoinClib.Db
