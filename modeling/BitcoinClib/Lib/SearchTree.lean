import BitcoinClib.Lib.Exec
import Mathlib.Data.List.Basic
import Mathlib.Data.List.Nodup
import Mathlib.Data.List.Perm.Basic

/-!
Contract: a search tree of references whose keys are read through the references.

Owns:
- `tfind`, `tsearch`, `tdelete` and `tdestroy` on the entries of such a tree;
- what they return when every entry is live and no two entries have the same key;
- `Table`, the entries and keys a tree holds, with one rule for each operation.

The shape of the tree depends on the order of insertions, so an operation may compare
its key with any entry: one dangling entry is enough for a fault.
-/

namespace BitcoinClib.Lib.SearchTree

variable {ι κ : Type} [DecidableEq κ]

/-- The entry with the key `k`. -/
def tfind (keyOf : ι → Exec κ) : List ι → κ → Exec (Option ι)
  | [], _ => .ok none
  | entry :: rest, k => do
      let key ← keyOf entry
      let found ← tfind keyOf rest k
      .ok (if key = k then some entry else found)

/-- Insert an entry unless its key is present; the entry that carries the key then. -/
def tsearch (keyOf : ι → Exec κ) (root : List ι) (entry : ι) : Exec (ι × List ι) := do
  let key ← keyOf entry
  let found ← tfind keyOf root key
  match found with
  | some other => .ok (other, root)
  | none => .ok (entry, entry :: root)

/-- Remove the entry with the key of `entry`; whether there was one. -/
def tdelete [DecidableEq ι] (keyOf : ι → Exec κ) (root : List ι) (entry : ι) :
    Exec (Bool × List ι) := do
  let key ← keyOf entry
  let found ← tfind keyOf root key
  match found with
  | some other => .ok (true, root.erase other)
  | none => .ok (false, root)

/-- Pass every entry to a function that releases it. -/
def tdestroy {σ : Type} (free : σ → ι → Exec σ) (root : List ι) (state : σ) : Exec σ :=
  root.foldlM free state

/-- Every entry can be compared. -/
def Live (keyOf : ι → Exec κ) (root : List ι) : Prop :=
  ∀ entry ∈ root, ∃ key, keyOf entry = .ok key

/-- No two entries have the same key. -/
def Distinct (keyOf : ι → Exec κ) (root : List ι) : Prop :=
  ∀ entry ∈ root, ∀ other ∈ root, ∀ key, keyOf entry = .ok key → keyOf other = .ok key →
    entry = other

variable {keyOf : ι → Exec κ} {root : List ι} {entry : ι} {k : κ}

omit [DecidableEq κ] in
theorem Live.subset {smaller : List ι} (live : Live keyOf root)
    (subset : ∀ i ∈ smaller, i ∈ root) : Live keyOf smaller :=
  fun i inside => live i (subset i inside)

omit [DecidableEq κ] in
theorem Distinct.subset {smaller : List ι} (distinct : Distinct keyOf root)
    (subset : ∀ i ∈ smaller, i ∈ root) : Distinct keyOf smaller :=
  fun i iMem j jMem => distinct i (subset i iMem) j (subset j jMem)

theorem tfind_of_absent (live : Live keyOf root) (absent : ∀ i ∈ root, keyOf i ≠ .ok k) :
    tfind keyOf root k = .ok none := by
  induction root with
  | nil => rfl
  | cons head tail inductionHypothesis =>
      have found := inductionHypothesis (live.subset fun i => List.mem_cons_of_mem _)
        (fun i present => absent i (List.mem_cons_of_mem _ present))
      obtain ⟨key, headKey⟩ := live head List.mem_cons_self
      have differs : key ≠ k := by
        rintro rfl
        exact absent head List.mem_cons_self headKey
      rw [tfind, headKey, Exec.ok_bind, found, Exec.ok_bind, if_neg differs]

/-- A tree with live entries can be searched. -/
theorem tfind_returns (live : Live keyOf root) : ∃ found, tfind keyOf root k = .ok found := by
  induction root with
  | nil => exact ⟨_, rfl⟩
  | cons head tail inductionHypothesis =>
      obtain ⟨found, finds⟩ := inductionHypothesis (live.subset fun i => List.mem_cons_of_mem _)
      obtain ⟨key, headKey⟩ := live head List.mem_cons_self
      rw [tfind, headKey, Exec.ok_bind, finds]
      exact ⟨_, rfl⟩

theorem tfind_of_mem (live : Live keyOf root) (distinct : Distinct keyOf root)
    (present : entry ∈ root) (key : keyOf entry = .ok k) :
    tfind keyOf root k = .ok (some entry) := by
  induction root with
  | nil => cases present
  | cons head tail inductionHypothesis =>
      have tailLive : Live keyOf tail := live.subset fun i => List.mem_cons_of_mem _
      have tailDistinct : Distinct keyOf tail := distinct.subset fun i => List.mem_cons_of_mem _
      obtain ⟨headKey, reads⟩ := live head List.mem_cons_self
      rw [tfind, reads, Exec.ok_bind]
      by_cases same : headKey = k
      · obtain ⟨found, finds⟩ := tfind_returns (k := k) tailLive
        have here : head = entry :=
          distinct head List.mem_cons_self entry present k (same ▸ reads) key
        rw [finds, Exec.ok_bind, if_pos same, here]
      · have inside : entry ∈ tail := by
          rcases List.mem_cons.1 present with rfl | inside
          · rw [reads] at key
            exact absurd (Exec.ok.inj key) same
          · exact inside
        rw [inductionHypothesis tailLive tailDistinct inside, Exec.ok_bind, if_neg same]

/-- What a search returns is an entry with the key. -/
theorem tfind_some (returns : tfind keyOf root k = .ok (some entry)) :
    entry ∈ root ∧ keyOf entry = .ok k := by
  induction root with
  | nil => cases returns
  | cons head tail inductionHypothesis =>
      rw [tfind, Exec.bind_eq_ok] at returns
      obtain ⟨key, reads, returns⟩ := returns
      rw [Exec.bind_eq_ok] at returns
      obtain ⟨deeper, finds, result⟩ := returns
      by_cases same : key = k
      · rw [if_pos same] at result
        cases result
        exact ⟨List.mem_cons_self, same ▸ reads⟩
      · rw [if_neg same] at result
        cases result
        have below := inductionHypothesis finds
        exact ⟨List.mem_cons_of_mem _ below.1, below.2⟩

/-- A search returns nothing only where no entry has the key. -/
theorem tfind_none (returns : tfind keyOf root k = .ok none) : ∀ i ∈ root, keyOf i ≠ .ok k := by
  induction root with
  | nil => exact fun _ inside => absurd inside List.not_mem_nil
  | cons head tail inductionHypothesis =>
      rw [tfind, Exec.bind_eq_ok] at returns
      obtain ⟨key, reads, returns⟩ := returns
      rw [Exec.bind_eq_ok] at returns
      obtain ⟨deeper, finds, result⟩ := returns
      by_cases same : key = k
      · rw [if_pos same] at result
        cases result
      · rw [if_neg same] at result
        cases result
        intro i inside
        rcases List.mem_cons.1 inside with rfl | inside
        · intro clash
          rw [reads] at clash
          exact same (Exec.ok.inj clash)
        · exact inductionHypothesis finds i inside

/-- An insertion adds the entry, or finds another one with its key. -/
theorem tsearch_inversion {found : ι} {after : List ι}
    (returns : tsearch keyOf root entry = .ok (found, after)) :
    ∃ key, keyOf entry = .ok key ∧
      (found ∈ root ∧ keyOf found = .ok key ∧ after = root ∨
        found = entry ∧ (∀ i ∈ root, keyOf i ≠ .ok key) ∧ after = entry :: root) := by
  rw [tsearch, Exec.bind_eq_ok] at returns
  obtain ⟨key, reads, returns⟩ := returns
  rw [Exec.bind_eq_ok] at returns
  obtain ⟨other, finds, returns⟩ := returns
  refine ⟨key, reads, ?_⟩
  cases other with
  | none =>
      cases returns
      exact .inr ⟨rfl, tfind_none finds, rfl⟩
  | some other =>
      cases returns
      exact .inl ⟨(tfind_some finds).1, (tfind_some finds).2, rfl⟩

/-- A removal erases an entry with the key, or there was none. -/
theorem tdelete_inversion [DecidableEq ι] {found : Bool} {after : List ι}
    (returns : tdelete keyOf root entry = .ok (found, after)) :
    ∃ key, keyOf entry = .ok key ∧
      (found = false ∧ (∀ i ∈ root, keyOf i ≠ .ok key) ∧ after = root ∨
        found = true ∧ ∃ other ∈ root, keyOf other = .ok key ∧ after = root.erase other) := by
  rw [tdelete, Exec.bind_eq_ok] at returns
  obtain ⟨key, reads, returns⟩ := returns
  rw [Exec.bind_eq_ok] at returns
  obtain ⟨other, finds, returns⟩ := returns
  refine ⟨key, reads, ?_⟩
  cases other with
  | none =>
      cases returns
      exact .inl ⟨rfl, tfind_none finds, rfl⟩
  | some other =>
      cases returns
      exact .inr ⟨rfl, other, (tfind_some finds).1, (tfind_some finds).2, rfl⟩

/-- A removal keeps the entries with another key, and adds none. -/
theorem tdelete_sublist [DecidableEq ι] {found : Bool} {after : List ι}
    (returns : tdelete keyOf root entry = .ok (found, after)) :
    after.Sublist root ∧ ∀ i ∈ root, keyOf i ≠ keyOf entry → i ∈ after := by
  obtain ⟨key, reads, outcome⟩ := tdelete_inversion returns
  rcases outcome with ⟨-, -, rfl⟩ | ⟨-, other, -, otherKey, rfl⟩
  · exact ⟨List.Sublist.refl _, fun _ inside _ => inside⟩
  · refine ⟨List.erase_sublist, fun i inside differs => ?_⟩
    refine (List.mem_erase_of_ne ?_).2 inside
    rintro rfl
    exact differs (otherKey.trans reads.symm)

/-- After a removal no entry has the key, if no two entries had the same one. -/
theorem tdelete_absent [DecidableEq ι] {found : Bool} {after : List ι} (nodup : root.Nodup)
    (distinct : Distinct keyOf root)
    (returns : tdelete keyOf root entry = .ok (found, after)) :
    ∀ i ∈ after, keyOf i ≠ keyOf entry := by
  obtain ⟨key, reads, outcome⟩ := tdelete_inversion returns
  rw [reads]
  rcases outcome with ⟨-, absent, rfl⟩ | ⟨-, other, inside, otherKey, rfl⟩
  · exact absent
  · intro i stays same
    obtain ⟨differs, member⟩ := (nodup.mem_erase_iff).1 stays
    exact differs (distinct i member other inside key same otherKey)

/-- A new key is inserted. -/
theorem tsearch_of_absent (live : Live keyOf root) (key : keyOf entry = .ok k)
    (absent : ∀ i ∈ root, keyOf i ≠ .ok k) :
    tsearch keyOf root entry = .ok (entry, entry :: root) := by
  rw [tsearch, key, Exec.ok_bind, tfind_of_absent live absent]
  rfl

theorem tdelete_of_mem [DecidableEq ι] {other : ι} (live : Live keyOf root)
    (distinct : Distinct keyOf root) (key : keyOf entry = .ok k) (present : other ∈ root)
    (same : keyOf other = .ok k) : tdelete keyOf root entry = .ok (true, root.erase other) := by
  rw [tdelete, key, Exec.ok_bind, tfind_of_mem live distinct present same]
  rfl

/-- A tree is destroyed when its entries are live and each is there once, for a function that
releases live entries only and leaves the other ones alone. -/
theorem tdestroy_returns_iff {σ : Type} {free : σ → ι → Exec σ} {live : σ → ι → Prop}
    (releases : ∀ state entry, (free state entry).Returns ↔ live state entry)
    (frame : ∀ state entry after, free state entry = .ok after →
      ∀ other, live after other ↔ other ≠ entry ∧ live state other) {root : List ι} {state : σ} :
    (tdestroy free root state).Returns ↔ root.Nodup ∧ ∀ entry ∈ root, live state entry := by
  induction root generalizing state with
  | nil =>
      refine iff_of_true (Exec.returns_ok state) ⟨List.nodup_nil, ?_⟩
      exact fun _ inside => absurd inside List.not_mem_nil
  | cons head tail inductionHypothesis =>
      rw [tdestroy, List.foldlM_cons, Exec.returns_bind]
      constructor
      · intro destroys
        obtain ⟨after, frees, later⟩ := destroys
        obtain ⟨nodup, alive⟩ := inductionHypothesis.1 later
        have rest := fun entry inside => (frame state head after frees entry).1 (alive entry inside)
        refine ⟨List.nodup_cons.2 ⟨fun inside => (rest head inside).1 rfl, nodup⟩, ?_⟩
        intro entry inside
        rcases List.mem_cons.1 inside with rfl | inside
        · exact (releases state entry).1 ⟨after, frees⟩
        · exact (rest entry inside).2
      · intro parts
        obtain ⟨nodup, alive⟩ := parts
        obtain ⟨absent, tailNodup⟩ := List.nodup_cons.1 nodup
        obtain ⟨after, frees⟩ := (releases state head).2 (alive head List.mem_cons_self)
        refine ⟨after, frees, inductionHypothesis.2 ⟨tailNodup, fun entry inside => ?_⟩⟩
        refine (frame state head after frees entry).2
          ⟨?_, alive entry (List.mem_cons_of_mem _ inside)⟩
        rintro rfl
        exact absent inside

/-! ## Tables -/

/-- The tree holds the entries of a table, in any order, and each entry has the key the table
gives. -/
structure Table (keyOf : ι → Exec κ) (root : List ι) (table : List (ι × κ)) : Prop where
  entries : root.Perm (table.map Prod.fst)
  keys : (table.map Prod.snd).Nodup
  reads : ∀ row ∈ table, keyOf row.1 = .ok row.2

namespace Table

variable {table rest : List (ι × κ)} {row : ι × κ}

omit [DecidableEq κ] in
theorem perm (holds : Table keyOf root table) (same : table.Perm rest) : Table keyOf root rest :=
  ⟨holds.entries.trans (same.map _), ((same.map _).nodup_iff).1 holds.keys,
    fun row inside => holds.reads row (same.mem_iff.2 inside)⟩

omit [DecidableEq κ] in
/-- A table depends on the keys of its entries only. -/
theorem congr {other : ι → Exec κ} (holds : Table keyOf root table)
    (reads : ∀ row ∈ table, other row.1 = keyOf row.1) : Table other root table :=
  ⟨holds.entries, holds.keys, fun row inside => (reads row inside).trans (holds.reads row inside)⟩

omit [DecidableEq κ] in
theorem exists_row (holds : Table keyOf root table) (present : entry ∈ root) :
    ∃ key, (entry, key) ∈ table ∧ keyOf entry = .ok key := by
  obtain ⟨row, inside, rfl⟩ := List.mem_map.1 (holds.entries.mem_iff.1 present)
  exact ⟨row.2, inside, holds.reads row inside⟩

omit [DecidableEq κ] in
theorem live (holds : Table keyOf root table) : Live keyOf root := by
  intro entry present
  obtain ⟨key, -, reads⟩ := holds.exists_row present
  exact ⟨key, reads⟩

omit [DecidableEq κ] in
theorem distinct (holds : Table keyOf root table) : Distinct keyOf root := by
  intro left leftMem right rightMem key leftKey rightKey
  obtain ⟨first, firstMem, firstReads⟩ := holds.exists_row leftMem
  obtain ⟨second, secondMem, secondReads⟩ := holds.exists_row rightMem
  rw [leftKey] at firstReads
  rw [rightKey] at secondReads
  cases firstReads
  cases secondReads
  exact congrArg Prod.fst (List.inj_on_of_nodup_map holds.keys firstMem secondMem rfl)

omit [DecidableEq κ] in
/-- No entry is there twice. -/
theorem nodup (holds : Table keyOf root table) : root.Nodup := by
  refine holds.entries.nodup_iff.2 (List.Nodup.map_on ?_ holds.keys.of_map)
  intro row inside other otherInside same
  have reads := holds.reads row inside
  rw [same, holds.reads other otherInside] at reads
  exact Prod.ext same (Exec.ok.inj reads).symm

theorem tfind_of_row (holds : Table keyOf root table) (present : (entry, k) ∈ table) :
    tfind keyOf root k = .ok (some entry) :=
  tfind_of_mem holds.live holds.distinct
    (holds.entries.mem_iff.2 (List.mem_map_of_mem present)) (holds.reads _ present)

/-- No row has the key. -/
theorem tfind_of_missing (holds : Table keyOf root table) (absent : k ∉ table.map Prod.snd) :
    tfind keyOf root k = .ok none := by
  refine tfind_of_absent holds.live fun entry present same => absent ?_
  obtain ⟨key, inside, reads⟩ := holds.exists_row present
  rw [same] at reads
  cases reads
  exact List.mem_map_of_mem inside

theorem tsearch (holds : Table keyOf root table) (absent : k ∉ table.map Prod.snd)
    (key : keyOf entry = .ok k) :
    SearchTree.tsearch keyOf root entry = .ok (entry, entry :: root) ∧
      Table keyOf (entry :: root) ((entry, k) :: table) := by
  refine ⟨tsearch_of_absent holds.live key fun other present same => absent ?_, ?_⟩
  · obtain ⟨found, inside, reads⟩ := holds.exists_row present
    rw [same] at reads
    cases reads
    exact List.mem_map_of_mem inside
  · refine ⟨holds.entries.cons entry, List.nodup_cons.2 ⟨absent, holds.keys⟩, fun row inside => ?_⟩
    rcases List.mem_cons.1 inside with rfl | old
    · exact key
    · exact holds.reads row old

/-- A row with the key is found, and nothing is inserted. -/
theorem tsearch_of_row {other : ι} (holds : Table keyOf root table) (present : (other, k) ∈ table)
    (key : keyOf entry = .ok k) : SearchTree.tsearch keyOf root entry = .ok (other, root) := by
  rw [SearchTree.tsearch, key, Exec.ok_bind, holds.tfind_of_row present]
  rfl

theorem tdelete [DecidableEq ι] (holds : Table keyOf root table)
    (same : table.Perm ((entry, k) :: rest)) :
    SearchTree.tdelete keyOf root entry = .ok (true, root.erase entry) ∧
      Table keyOf (root.erase entry) rest := by
  have split := holds.perm same
  have key := split.reads _ List.mem_cons_self
  have present : entry ∈ root := split.entries.mem_iff.2 (by simp)
  refine ⟨tdelete_of_mem holds.live holds.distinct key present key, ?_⟩
  refine ⟨?_, (List.nodup_cons.1 split.keys).2,
    fun row inside => split.reads row (List.mem_cons_of_mem _ inside)⟩
  have erased := split.entries.erase entry
  rwa [List.map_cons, List.erase_cons_head] at erased

/-- There is no row to remove. -/
theorem tdelete_of_missing [DecidableEq ι] (holds : Table keyOf root table)
    (key : keyOf entry = .ok k) (absent : k ∉ table.map Prod.snd) :
    SearchTree.tdelete keyOf root entry = .ok (false, root) := by
  rw [SearchTree.tdelete, key, Exec.ok_bind, holds.tfind_of_missing absent]
  rfl

end Table

end BitcoinClib.Lib.SearchTree
