import BitcoinClib.Chains.Lists
import Mathlib.Data.List.Range
import Mathlib.Data.List.Perm.Lattice

/-!
Contract: the heirs, their index and the callbacks.

Owns:
- `HeirsIndexed`, the index points to every heir once and heirs have distinct hashes;
- `Stored`, no two blocks have the same hash, and no block that of an heir;
- what `blockchain_find`, `blockchain_abandon_inheritances` and
  `blockchain_add_inheritances` do to the heirs, the index and the callbacks;
- `HeirsAlong`, the heirs that a path of first children becomes.

All rules speak about operations that returned.
-/

namespace BitcoinClib.Chains

open BitcoinClib.Lib

variable {Hash : Type}

/-- The index points to the slots in use, and no two heirs have the same hash. -/
structure HeirsIndexed (chain : Blockchain Hash) : Prop where
  index : chain.searchRoot.Perm
    ((List.range chain.heirs.length).map (HeirRef.mk chain.arena))
  distinct : (chain.heirs.map BlockchainHeir.hash).Nodup

/-- A live node with a header. -/
def IsBlock (nodes : Heap (BlockInfo Hash)) (p : Ptr) (hash : Hash) : Prop :=
  ∃ member, nodes p = some member ∧ member.val.hdr.isSome ∧ member.val.hash = hash

/-- A hash belongs to one block or to one heir. -/
structure Stored (chain : Blockchain Hash) : Prop where
  unique : ∀ p q hash, IsBlock chain.candidatesList.nodes p hash →
    IsBlock chain.candidatesList.nodes q hash → p = q
  apart : ∀ p heir, heir ∈ chain.heirs → ¬ IsBlock chain.candidatesList.nodes p heir.hash

/-- The hash of a block or of an heir. -/
def Known (chain : Blockchain Hash) (hash : Hash) : Prop :=
  (∃ p, IsBlock chain.candidatesList.nodes p hash) ∨ ∃ heir ∈ chain.heirs, heir.hash = hash

theorem Relinked.isBlock {before after : Heap (BlockInfo Hash)} (relinked : Relinked before after)
    {p : Ptr} {hash : Hash} : IsBlock after p hash ↔ IsBlock before p hash := by
  constructor
  · rintro ⟨member, live, isBlock, rfl⟩
    obtain ⟨old, oldLive, same⟩ := relinked.origin live
    exact ⟨old, oldLive, same.hdr ▸ isBlock, same.hash.symm⟩
  · rintro ⟨old, oldLive, isBlock, rfl⟩
    obtain ⟨member, live, same⟩ := relinked.live oldLive
    exact ⟨member, live, same.hdr ▸ isBlock, same.hash⟩

/-! ## Search -/

section Find

variable {chain : Blockchain Hash} {ref : HeirRef} {heir : BlockchainHeir Hash} {hash : Hash}

theorem heirAt_eq_ok : chain.heirAt ref = .ok heir ↔
    ref.arena = chain.arena ∧ chain.heirs[ref.slot]? = some heir := by
  unfold Blockchain.heirAt
  split
  next same =>
    cases chain.heirs[ref.slot]? with
    | none => simp
    | some stored => simp [same]
  next other => simp [other]

theorem heirHash_eq_ok : chain.heirHash ref = .ok hash ↔
    ∃ heir, ref.arena = chain.arena ∧ chain.heirs[ref.slot]? = some heir ∧ heir.hash = hash := by
  rw [Blockchain.heirHash, Exec.bind_eq_ok]
  constructor
  · rintro ⟨heir, reads, result⟩
    obtain ⟨arena, stored⟩ := heirAt_eq_ok.1 reads
    exact ⟨heir, arena, stored, Exec.ok.inj result⟩
  · rintro ⟨heir, arena, stored, rfl⟩
    exact ⟨heir, heirAt_eq_ok.2 ⟨arena, stored⟩, rfl⟩

namespace HeirsIndexed

theorem mem_searchRoot (indexed : HeirsIndexed chain) : ref ∈ chain.searchRoot ↔
    ref.arena = chain.arena ∧ ref.slot < chain.heirs.length := by
  rw [indexed.index.mem_iff, List.mem_map]
  constructor
  · rintro ⟨slot, inRange, rfl⟩
    exact ⟨rfl, List.mem_range.1 inRange⟩
  · rintro ⟨arena, inRange⟩
    exact ⟨ref.slot, List.mem_range.2 inRange, by rw [← arena]⟩

/-- Two slots with the same hash are the same slot. -/
theorem slot_inj (indexed : HeirsIndexed chain) {first second : Nat}
    {left right : BlockchainHeir Hash} (leftHeir : chain.heirs[first]? = some left)
    (rightHeir : chain.heirs[second]? = some right) (same : left.hash = right.hash) :
    first = second := by
  have bound : first < (chain.heirs.map BlockchainHeir.hash).length := by
    rw [List.length_map]
    exact (List.getElem?_eq_some_iff.1 leftHeir).1
  refine (List.getElem?_inj bound indexed.distinct).1 ?_
  rw [List.getElem?_map, List.getElem?_map, leftHeir, rightHeir]
  exact congrArg some same

variable [DecidableEq Hash]

omit [DecidableEq Hash] in
/-- Every entry of the index can be compared. -/
theorem live (indexed : HeirsIndexed chain) : SearchTree.Live chain.heirHash chain.searchRoot := by
  intro entry inside
  obtain ⟨entryArena, inRange⟩ := indexed.mem_searchRoot.1 inside
  exact ⟨_, heirHash_eq_ok.2 ⟨_, entryArena, List.getElem?_eq_getElem inRange, rfl⟩⟩

/-- A search of the index returns the heir with the hash. -/
theorem find_eq_some (indexed : HeirsIndexed chain) :
    blockchainFind chain hash = .ok (some ref) ↔
      ∃ heir, ref.arena = chain.arena ∧ chain.heirs[ref.slot]? = some heir ∧
        heir.hash = hash := by
  constructor
  · intro finds
    exact heirHash_eq_ok.1 (SearchTree.tfind_some finds).2
  · rintro ⟨heir, arena, stored, same⟩
    have distinct : SearchTree.Distinct chain.heirHash chain.searchRoot := by
      intro left _ right _ key leftKey rightKey
      obtain ⟨leftHeir, leftArena, leftStored, leftHash⟩ := heirHash_eq_ok.1 leftKey
      obtain ⟨rightHeir, rightArena, rightStored, rightHash⟩ := heirHash_eq_ok.1 rightKey
      have slots := indexed.slot_inj leftStored rightStored (leftHash.trans rightHash.symm)
      cases left
      cases right
      simp_all
    have inside : ref ∈ chain.searchRoot :=
      indexed.mem_searchRoot.2 ⟨arena, (List.getElem?_eq_some_iff.1 stored).1⟩
    exact SearchTree.tfind_of_mem indexed.live distinct inside
      (heirHash_eq_ok.2 ⟨heir, arena, stored, same⟩)

/-- A search of the index returns nothing for a hash that no heir has. -/
theorem find_eq_none (indexed : HeirsIndexed chain)
    (finds : blockchainFind chain hash = .ok none) : ∀ heir ∈ chain.heirs, heir.hash ≠ hash := by
  intro heir inside same
  obtain ⟨slot, stored⟩ := List.mem_iff_getElem?.1 inside
  have found := indexed.find_eq_some.2 ⟨heir, (rfl : (HeirRef.mk chain.arena slot).arena = _),
    stored, same⟩
  rw [finds] at found
  cases found

end HeirsIndexed

end Find

/-! ## Abandoned heirs -/

/-- The callbacks for heirs that leave, the last one first; `slot` is the slot of the first. -/
def removals (heirs : List (BlockchainHeir Hash)) (slot : Nat) : List (Callback Hash) :=
  ((heirs.zipIdx slot).map fun (heir, height) => .removeBlock heir.hash height).reverse

theorem removals_concat (heirs : List (BlockchainHeir Hash)) (last : BlockchainHeir Hash)
    (slot : Nat) : removals (heirs ++ [last]) slot =
      .removeBlock last.hash (slot + heirs.length) :: removals heirs slot := by
  simp [removals, List.zipIdx_append, Nat.add_comm]

variable [DecidableEq Hash] {env : ChainEnv Hash}

/-- What one or more abandoned heirs leave behind. `base` is an address no older node has. -/
structure Abandoned (base : Ptr) (before after : Blockchain Hash) : Prop where
  indexed : HeirsIndexed after
  arena : after.arena = before.arena
  links : after.candidatesList.Links
  next : before.candidatesList.next ≤ after.candidatesList.next
  searchRoot : after.candidatesList.searchRoot = before.candidatesList.searchRoot
  frame : ∀ p, p < base → after.candidatesList.nodes p = before.candidatesList.nodes p
  stored : Stored before → Stored after
  known : ∀ hash, Known after hash → Known before hash

/-- The last heir leaves and his index entry with him. -/
theorem HeirsIndexed.dropLast {chain : Blockchain Hash} {kept : List (BlockchainHeir Hash)}
    {last : BlockchainHeir Hash} (indexed : HeirsIndexed chain)
    (heirs : chain.heirs = kept ++ [last]) {found : Bool} {searchRoot : List HeirRef}
    (deletes : SearchTree.tdelete chain.heirHash chain.searchRoot ⟨chain.arena, kept.length⟩ =
      .ok (found, searchRoot)) (list : ActiveChainList Hash) (callbacks : List (Callback Hash)) :
    HeirsIndexed { chain with
      heirs := kept, searchRoot, candidatesList := list, callbacks } := by
  have stored : chain.heirs[kept.length]? = some last := by simp [heirs]
  have own : (⟨chain.arena, kept.length⟩ : HeirRef) ∈ chain.searchRoot := by
    refine indexed.mem_searchRoot.2 ⟨rfl, ?_⟩
    simp [heirs]
  obtain ⟨key, reads, outcome⟩ := SearchTree.tdelete_inversion deletes
  have erased : searchRoot = chain.searchRoot.erase ⟨chain.arena, kept.length⟩ := by
    rcases outcome with ⟨-, absent, -⟩ | ⟨-, other, -, otherKey, rfl⟩
    · exact absurd reads (absent _ own)
    · obtain ⟨heir, -, heirStored, heirHash⟩ := heirHash_eq_ok.1 reads
      obtain ⟨found, arena, foundStored, foundHash⟩ := heirHash_eq_ok.1 otherKey
      have slots := indexed.slot_inj foundStored heirStored (foundHash.trans heirHash.symm)
      cases other
      simp only at slots arena
      rw [slots, arena]
  constructor
  · rw [erased]
    have whole := indexed.index.erase (⟨chain.arena, kept.length⟩ : HeirRef)
    rw [heirs, List.length_append, List.length_singleton, List.range_succ, List.map_append] at whole
    have absent : (⟨chain.arena, kept.length⟩ : HeirRef) ∉
        (List.range kept.length).map (HeirRef.mk chain.arena) := by simp
    rw [List.erase_append_right _ absent] at whole
    simpa using whole
  · have distinct := indexed.distinct
    rw [heirs, List.map_append] at distinct
    exact (List.nodup_append.1 distinct).1

/-- One heir leaves: his block has a new address. -/
theorem abandonChild_inversion {chain after : Blockchain Hash} {parent heir : HeirRef}
    (returns : abandonChild env chain parent heir = .ok after) :
    ∃ current found searchRoot info,
      chain.heirAt heir = .ok current ∧
      SearchTree.tdelete chain.heirHash chain.searchRoot heir = .ok (found, searchRoot) ∧
      info.hash = current.hash ∧ info.hdr.isSome ∧
      after = { chain with
        searchRoot
        candidatesList := { chain.candidatesList with
          nodes := chain.candidatesList.nodes.write chain.candidatesList.next
            ⟨info, none, none, none⟩
          next := chain.candidatesList.next + 1 } } := by
  simp only [abandonChild, Exec.bind_eq_ok] at returns
  obtain ⟨parentHeir, -, current, reads, ⟨found, searchRoot⟩, deletes, returns⟩ := returns
  refine ⟨current, found, searchRoot, ⟨current.hash, some { env.zeroHdr with
      prevHash := parentHeir.hash
      bits := current.bits
      timestamp := current.timestamp.toUInt32 }, current.cumulativeDifficulty⟩,
    reads, deletes, rfl, rfl, ?_⟩
  cases returns
  simp only [blockInfoNew, ActiveChainList.calloc, Heap.write_write]

/-- The links `blockchain_abandon_inheritances` sets between the block of an heir and the
orphans below him. -/
def linkOrphans (nodes : Heap (BlockInfo Hash)) (current : Ptr) (orphans : Option Ptr) :
    Exec (Heap (BlockInfo Hash)) := do
  let cell ← nodes.read current
  let nodes := nodes.write current { cell with firstChild := orphans }
  match orphans with
  | none => .ok nodes
  | some orphan => do
      let cell ← nodes.read orphan
      .ok (nodes.write orphan { cell with parent := some current })

omit [DecidableEq Hash] in
theorem linkOrphans_relinked {nodes after : Heap (BlockInfo Hash)} {current : Ptr}
    {orphans : Option Ptr} (returns : linkOrphans nodes current orphans = .ok after) :
    Relinked nodes after ∧
      ∀ p, p ≠ current → orphans ≠ some p → after p = nodes p := by
  rw [linkOrphans, Exec.bind_eq_ok] at returns
  obtain ⟨cell, reads, returns⟩ := returns
  have live := Heap.read_eq_ok.1 reads
  cases orphans with
  | none =>
      cases returns
      exact ⟨relinked_setFirstChild live (fun _ _ _ points => nomatch points),
        fun p other _ => Heap.write_of_ne other⟩
  | some orphan =>
      simp only [Exec.bind_eq_ok] at returns
      obtain ⟨below, readsBelow, returns⟩ := returns
      have belowLive := Heap.read_eq_ok.1 readsBelow
      obtain ⟨earlier, orphanLive⟩ := live_of_write live belowLive
      cases returns
      have first : Relinked nodes (nodes.write current { cell with firstChild := some orphan }) := by
        refine relinked_setFirstChild live fun next links q points => ?_
        cases points
        exact (links orphan earlier orphanLive).self
      refine ⟨first.trans (relinked_setParent belowLive current), fun p other notOrphan => ?_⟩
      rw [Heap.write_of_ne fun same => notOrphan (congrArg some same.symm),
        Heap.write_of_ne other]

namespace Abandoned

variable {base : Ptr} {before middle after : Blockchain Hash}

omit [DecidableEq Hash] in
theorem refl (indexed : HeirsIndexed before) (links : before.candidatesList.Links) :
    Abandoned base before before where
  indexed := indexed
  arena := rfl
  links := links
  next := Nat.le_refl _
  searchRoot := rfl
  frame := fun _ _ => rfl
  stored := id
  known := fun _ => id

omit [DecidableEq Hash] in
theorem trans (left : Abandoned base before middle) (right : Abandoned base middle after) :
    Abandoned base before after where
  indexed := right.indexed
  arena := right.arena.trans left.arena
  links := right.links
  next := Nat.le_trans left.next right.next
  searchRoot := right.searchRoot.trans left.searchRoot
  frame := fun p below => (right.frame p below).trans (left.frame p below)
  stored := right.stored ∘ left.stored
  known := fun hash => left.known hash ∘ right.known hash

omit [DecidableEq Hash] in
/-- The last heir moves from the array to a new block. -/
theorem of_last {kept : List (BlockchainHeir Hash)} {last : BlockchainHeir Hash}
    {searchRoot : List HeirRef} {info : BlockInfo Hash} {nodes : Heap (BlockInfo Hash)}
    {callbacks : List (Callback Hash)} (links : before.candidatesList.Links)
    (heirs : before.heirs = kept ++ [last])
    (distinct : (before.heirs.map BlockchainHeir.hash).Nodup)
    (infoHash : info.hash = last.hash)
    (relinked : Relinked (before.candidatesList.nodes.write before.candidatesList.next
      ⟨info, none, none, none⟩) nodes)
    (frame : ∀ p, p < base → nodes p = before.candidatesList.nodes p)
    (indexed : HeirsIndexed { before with
      heirs := kept
      searchRoot
      candidatesList := { before.candidatesList with
        nodes, next := before.candidatesList.next + 1 }
      callbacks }) :
    Abandoned base before { before with
      heirs := kept
      searchRoot
      candidatesList := { before.candidatesList with
        nodes, next := before.candidatesList.next + 1 }
      callbacks } := by
  -- a block afterwards is the new one or was one before
  have origin : ∀ p hash, IsBlock nodes p hash →
      p = before.candidatesList.next ∧ hash = last.hash ∨
        IsBlock before.candidatesList.nodes p hash := by
    intro p hash isBlock
    obtain ⟨member, live, header, rfl⟩ := relinked.isBlock.1 isBlock
    by_cases new : p = before.candidatesList.next
    · rw [new, Heap.write_same] at live
      cases live
      exact .inl ⟨new, infoHash⟩
    · rw [Heap.write_of_ne new] at live
      exact .inr ⟨member, live, header, rfl⟩
  have lastMember : last ∈ before.heirs := by simp [heirs]
  have keptMember : ∀ heir ∈ kept, heir ∈ before.heirs := by
    intro heir inside
    simp [heirs, inside]
  constructor
  case indexed => exact indexed
  case arena => rfl
  case links =>
    exact ⟨relinked.links _ (links.nodes.writeNew info none),
      fun p entry => Nat.lt_succ_of_lt (links.entries p entry)⟩
  case next => exact Nat.le_succ _
  case searchRoot => rfl
  case frame => exact frame
  case stored =>
    intro stored
    refine ⟨fun p q hash first second => ?_, fun p heir inside isBlock => ?_⟩
    · rcases origin p hash first with ⟨pNew, hashLast⟩ | pOld
      · rcases origin q hash second with ⟨qNew, -⟩ | qOld
        · rw [pNew, qNew]
        · exact absurd (hashLast ▸ qOld) (stored.apart q last lastMember)
      · rcases origin q hash second with ⟨-, hashLast⟩ | qOld
        · exact absurd (hashLast ▸ pOld) (stored.apart p last lastMember)
        · exact stored.unique p q hash pOld qOld
    · rcases origin p heir.hash isBlock with ⟨-, same⟩ | old
      · rw [heirs, List.map_append, List.nodup_append] at distinct
        exact distinct.2.2 heir.hash (List.mem_map_of_mem inside) last.hash (by simp) same
      · exact stored.apart p heir (keptMember heir inside) old
  case known =>
    rintro hash (⟨p, isBlock⟩ | ⟨heir, inside, rfl⟩)
    · rcases origin p hash isBlock with ⟨-, same⟩ | old
      · exact .inr ⟨last, lastMember, same.symm⟩
      · exact .inl ⟨p, old⟩
    · exact .inr ⟨heir, keptMember heir inside, rfl⟩

end Abandoned

/-- One pass of the loop, with the links it sets. -/
theorem abandonLoop_succ {arena slot count : Nat} {chain : Blockchain Hash}
    {orphans : Option Ptr} :
    abandonLoop env arena slot (count + 1) chain orphans = (do
      let last ← chain.heirAt ⟨arena, slot + count + 1⟩
      let abandoned ← abandonChild env chain ⟨arena, slot + count⟩ ⟨arena, slot + count + 1⟩
      let nodes ← linkOrphans abandoned.candidatesList.nodes chain.candidatesList.next orphans
      abandonLoop env arena slot count
        { abandoned with
          heirs := abandoned.heirs.take (slot + count + 1)
          callbacks := abandoned.callbacks ++ [.removeBlock last.hash (slot + count + 1)]
          candidatesList := { abandoned.candidatesList with nodes } }
        (some chain.candidatesList.next)) := by
  rw [abandonLoop]
  refine Exec.bind_congr_of rfl fun last => Exec.bind_congr_of rfl fun abandoned => ?_
  simp only [linkOrphans, bind_assoc]
  refine Exec.bind_congr_of rfl fun cell => ?_
  cases orphans with
  | none => rfl
  | some orphan =>
      simp only [bind_assoc]
      rfl

/-- One pass of the loop. -/
theorem abandonLoop_inversion {arena slot count : Nat} {chain : Blockchain Hash}
    {orphans : Option Ptr} {result : Blockchain Hash × Option Ptr}
    (returns : abandonLoop env arena slot (count + 1) chain orphans = .ok result) :
    ∃ last abandoned nodes,
      chain.heirAt ⟨arena, slot + count + 1⟩ = .ok last ∧
      abandonChild env chain ⟨arena, slot + count⟩ ⟨arena, slot + count + 1⟩ = .ok abandoned ∧
      linkOrphans abandoned.candidatesList.nodes chain.candidatesList.next orphans = .ok nodes ∧
      abandonLoop env arena slot count
        { abandoned with
          heirs := abandoned.heirs.take (slot + count + 1)
          callbacks := abandoned.callbacks ++ [.removeBlock last.hash (slot + count + 1)]
          candidatesList := { abandoned.candidatesList with nodes } }
        (some chain.candidatesList.next) = .ok result := by
  simp only [abandonLoop_succ, Exec.bind_eq_ok] at returns
  obtain ⟨last, readsLast, abandoned, abandons, nodes, links, rest⟩ := returns
  exact ⟨last, abandoned, nodes, readsLast, abandons, links, rest⟩

/-- The heirs above a slot leave, the last one first. -/
theorem abandonLoop_abandoned {base : Ptr} {slot : Nat} {kept gone : List (BlockchainHeir Hash)}
    {chain after : Blockchain Hash} {orphans top : Option Ptr} (indexed : HeirsIndexed chain)
    (links : chain.candidatesList.Links) (basis : base ≤ chain.candidatesList.next)
    (above : ∀ p, orphans = some p → base ≤ p) (heirs : chain.heirs = kept ++ gone)
    (keptLength : kept.length = slot + 1)
    (returns : abandonLoop env chain.arena slot gone.length chain orphans = .ok (after, top)) :
    Abandoned base chain after ∧ after.heirs = kept ∧
      after.callbacks = chain.callbacks ++ removals gone (slot + 1) ∧
      (gone = [] → top = orphans) ∧ ∀ p, top = some p → base ≤ p := by
  induction gone using List.reverseRecOn generalizing chain orphans with
  | nil =>
      cases returns
      refine ⟨.refl indexed links, ?_, by simp [removals], fun _ => rfl, above⟩
      rw [heirs, List.append_nil]
  | append_singleton gone last inductionHypothesis =>
      rw [List.length_append, List.length_singleton] at returns
      obtain ⟨lastHeir, abandoned, nodes, readsLast, abandons, linked, rest⟩ :=
        abandonLoop_inversion returns
      obtain ⟨current, found, searchRoot, info, readsCurrent, deletes, infoHash, -, rfl⟩ :=
        abandonChild_inversion abandons
      have length : (kept ++ gone).length = slot + gone.length + 1 := by
        rw [List.length_append, keptLength]
        omega
      have split : chain.heirs = (kept ++ gone) ++ [last] := by rw [heirs, List.append_assoc]
      have isLast : chain.heirs[slot + gone.length + 1]? = some last := by
        rw [split, ← length]
        simp
      obtain ⟨-, lastStored⟩ := heirAt_eq_ok.1 readsLast
      obtain ⟨-, currentStored⟩ := heirAt_eq_ok.1 readsCurrent
      rw [isLast] at lastStored currentStored
      cases lastStored
      cases currentStored
      obtain ⟨relinked, frame⟩ := linkOrphans_relinked linked
      have kept' : chain.heirs.take (slot + gone.length + 1) = kept ++ gone := by
        rw [split, ← length, List.take_left']
        rfl
      simp only [kept'] at rest
      rw [← length] at deletes
      have unchanged : ∀ p, p < base → nodes p = chain.candidatesList.nodes p := by
        intro p below
        have notNew : p ≠ chain.candidatesList.next :=
          Nat.ne_of_lt (Nat.lt_of_lt_of_le below basis)
        rw [frame p notNew fun points => absurd (above p points) (Nat.not_le.2 below)]
        exact Heap.write_of_ne notNew
      have step : Abandoned base chain { chain with
          heirs := kept ++ gone
          searchRoot
          candidatesList := { chain.candidatesList with
            nodes, next := chain.candidatesList.next + 1 }
          callbacks := chain.callbacks ++ [.removeBlock last.hash (slot + gone.length + 1)] } :=
        .of_last links split indexed.distinct infoHash relinked unchanged
          (indexed.dropLast split deletes _ _)
      obtain ⟨others, heirs', callbacks, -, bound⟩ := inductionHypothesis step.indexed step.links
        (Nat.le_succ_of_le basis) (fun p points => by cases points; exact basis) rfl rest
      refine ⟨step.trans others, heirs', ?_, fun empty => absurd empty (by simp), bound⟩
      have height : slot + gone.length + 1 = slot + 1 + gone.length := by omega
      rw [callbacks, removals_concat, height, List.append_assoc, List.singleton_append]

/-- `blockchain_abandon_inheritances`. -/
theorem blockchainAbandonInheritances_abandoned {chain after : Blockchain Hash}
    {parent : HeirRef} {orphans : Option Ptr} (indexed : HeirsIndexed chain)
    (length : chain.heirs.length = chain.height + 1) (links : chain.candidatesList.Links)
    (arena : parent.arena = chain.arena)
    (returns : blockchainAbandonInheritances env chain parent = .ok (after, orphans)) :
    Abandoned chain.candidatesList.next chain after ∧
      after.heirs = chain.heirs.take (parent.slot + 1) ∧ after.height = parent.slot ∧
      after.callbacks =
        chain.callbacks ++ removals (chain.heirs.drop (parent.slot + 1)) (parent.slot + 1) ∧
      (parent.slot = chain.height → orphans = none ∧ after = chain) ∧
      ∀ p, orphans = some p → chain.candidatesList.next ≤ p := by
  rw [blockchainAbandonInheritances, Exec.bind_eq_ok] at returns
  obtain ⟨_, asserts, returns⟩ := returns
  have inside : parent.slot ≤ chain.height := Exec.assert_eq_ok.1 asserts
  by_cases isTip : parent.slot = chain.height
  · rw [if_pos isTip] at returns
    cases returns
    have whole : chain.heirs.take (parent.slot + 1) = chain.heirs :=
      List.take_of_length_le (by omega)
    have none : chain.heirs.drop (parent.slot + 1) = [] := List.drop_of_length_le (by omega)
    refine ⟨.refl indexed links, whole.symm, isTip.symm, ?_, fun _ => ⟨rfl, rfl⟩,
      (fun _ points => nomatch points)⟩
    rw [none]
    simp [removals]
  · rw [if_neg isTip, Exec.bind_eq_ok] at returns
    obtain ⟨⟨core, top⟩, loop, returns⟩ := returns
    cases returns
    have count : chain.height - parent.slot = (chain.heirs.drop (parent.slot + 1)).length := by
      rw [List.length_drop]
      omega
    rw [count, arena] at loop
    obtain ⟨abandoned, heirs, callbacks, -, above⟩ := abandonLoop_abandoned indexed links
      (Nat.le_refl _) (by intro p points; cases points) (List.take_append_drop _ _).symm
      (by rw [List.length_take]; omega) loop
    refine ⟨⟨⟨abandoned.indexed.index, abandoned.indexed.distinct⟩, abandoned.arena,
      abandoned.links, abandoned.next, abandoned.searchRoot, abandoned.frame,
      fun stored => ?_, abandoned.known⟩, heirs, rfl, callbacks, fun same => absurd same isTip,
      above⟩
    exact ⟨(abandoned.stored stored).unique, (abandoned.stored stored).apart⟩

/-! ## New heirs -/

/-- The heir `add_heir` writes for a block. -/
def heirOf (env : ChainEnv Hash) (hash : Hash) (hdr : SatoshiBlockHeader Hash) (parent : ℚ) :
    BlockchainHeir Hash :=
  ⟨hash, hdr.timestamp.toUInt64, hdr.bits, parent + env.compactUint256ToBdiff hdr.bits, hdr⟩

/-- A path of first children and the heirs it becomes above an heir with a cumulative
difficulty. -/
inductive HeirsAlong (env : ChainEnv Hash) (nodes : Heap (BlockInfo Hash)) :
    ℚ → Option Ptr → List Ptr → List (BlockchainHeir Hash) → Prop
  | nil (base : ℚ) : HeirsAlong env nodes base none [] []
  | cons {base : ℚ} {p : Ptr} {member : Member (BlockInfo Hash)} {path : List Ptr}
      {hdr : SatoshiBlockHeader Hash} {heirs : List (BlockchainHeir Hash)}
      (live : nodes p = some member) (header : member.val.hdr = some hdr)
      (rest : HeirsAlong env nodes (base + env.compactUint256ToBdiff hdr.bits) member.firstChild
        path heirs) :
      HeirsAlong env nodes base (some p) (p :: path) (heirOf env member.val.hash hdr base :: heirs)

/-- The callbacks for new heirs; `slot` is the slot of the first. -/
def additions (heirs : List (BlockchainHeir Hash)) (slot : Nat) : List (Callback Hash) :=
  (heirs.zipIdx slot).map fun (heir, height) => .addBlock heir.hash height heir.hdr

omit [DecidableEq Hash] in
/-- The array stays, or it is moved to a new allocation. -/
theorem blockchainResize_arena (env : ChainEnv Hash) (chain : Blockchain Hash) (size : Nat) :
    blockchainResize env chain size = chain ∨
      (blockchainResize env chain size).arena = chain.arena + 1 := by
  unfold blockchainResize
  dsimp only
  split
  · exact .inl rfl
  · exact .inr rfl

/-- `add_heir` behind the last heir. It does not return after the array was moved, because
`parent` still points to the old one. -/
theorem addHeir_inversion {chain after : Blockchain Hash} {slot : Nat} {child : Ptr}
    {parentHeir : BlockchainHeir Hash} (indexed : HeirsIndexed chain)
    (isLast : chain.heirs.length = slot + 1) (parentStored : chain.heirs[slot]? = some parentHeir)
    (returns : addHeir env chain ⟨chain.arena, slot⟩ child = .ok after) :
    ∃ member hdr searchRoot,
      chain.candidatesList.nodes child = some member ∧ member.val.hdr = some hdr ∧
      parentHeir.hash = hdr.prevHash ∧
      after = { chain with
        heirs := chain.heirs ++ [heirOf env member.val.hash hdr parentHeir.cumulativeDifficulty]
        searchRoot } ∧
      HeirsIndexed after := by
  simp only [addHeir, Exec.bind_eq_ok] at returns
  obtain ⟨parent, readsParent, member, readsChild, hdr, header, _, linked, again, readsAgain,
    written, writes, ⟨entry, searchRoot⟩, searches, same, asserts, returns⟩ := returns
  have stays : blockchainResize env chain (1 + chain.height + 1) = chain := by
    rcases blockchainResize_arena env chain (1 + chain.height + 1) with same | moved
    · exact same
    · have arena := (heirAt_eq_ok.1 readsAgain).1
      rw [moved] at arena
      exact absurd arena (Nat.succ_ne_self _).symm
  rw [stays] at readsAgain writes
  obtain ⟨-, stored⟩ := heirAt_eq_ok.1 readsParent
  obtain ⟨-, storedAgain⟩ := heirAt_eq_ok.1 readsAgain
  simp only [parentStored, Option.some.injEq] at stored storedAgain
  subst stored storedAgain
  have linkedHash := Exec.assert_eq_ok.1 linked
  have isEntry := Exec.assert_eq_ok.1 asserts
  simp only [Blockchain.setHeir, if_pos] at writes
  have inBounds : slot + 1 < chain.maxSize ∧ slot + 1 ≤ chain.heirs.length := by
    by_contra outside
    rw [if_neg outside] at writes
    cases writes
  have whole : chain.heirs.take (slot + 1) = chain.heirs :=
    List.take_of_length_le (Nat.le_of_eq isLast)
  rw [if_pos inBounds, whole] at writes
  cases writes
  cases returns
  refine ⟨member, hdr, searchRoot, Heap.read_eq_ok.1 readsChild, Exec.deref_eq_ok.1 header,
    linkedHash, rfl, ?_⟩
  obtain ⟨key, reads, outcome⟩ := SearchTree.tsearch_inversion searches
  have notIndexed : (⟨chain.arena, slot + 1⟩ : HeirRef) ∉ chain.searchRoot := by
    intro inside
    have range := (indexed.mem_searchRoot.1 inside).2
    simp only [isLast] at range
    omega
  rcases outcome with ⟨inside, -, -⟩ | ⟨-, absent, rfl⟩
  · exact absurd (isEntry ▸ inside) notIndexed
  · obtain ⟨heir, -, heirStored, rfl⟩ := heirHash_eq_ok.1 reads
    have isNew : heir = heirOf env member.val.hash hdr parentHeir.cumulativeDifficulty := by
      simp only [← isLast, List.getElem?_concat_length, Option.some.injEq] at heirStored
      exact heirStored.symm
    constructor
    · rw [List.length_append, List.length_singleton, List.range_succ, List.map_append, isLast]
      refine List.Perm.trans (List.Perm.cons _ ?_) (List.perm_append_singleton _ _).symm
      have old := indexed.index
      rwa [isLast] at old
    · rw [List.map_append, List.map_singleton, List.nodup_append]
      refine ⟨indexed.distinct, List.nodup_singleton _, ?_⟩
      intro hash inside last lastMember same
      obtain ⟨old, oldMember, rfl⟩ := List.mem_map.1 inside
      obtain ⟨oldSlot, oldStored⟩ := List.mem_iff_getElem?.1 oldMember
      have inRange := (List.getElem?_eq_some_iff.1 oldStored).1
      have entry : (⟨chain.arena, oldSlot⟩ : HeirRef) ∈ chain.searchRoot :=
        indexed.mem_searchRoot.2 ⟨rfl, inRange⟩
      refine absent _ entry (heirHash_eq_ok.2 ⟨old, rfl, ?_, ?_⟩)
      · rw [List.getElem?_append_left inRange]
        exact oldStored
      · rw [isNew]
        exact same.trans (List.mem_singleton.1 lastMember)

omit [DecidableEq Hash] in
theorem additions_cons (heir : BlockchainHeir Hash) (heirs : List (BlockchainHeir Hash))
    (slot : Nat) : additions (heir :: heirs) slot =
      .addBlock heir.hash slot heir.hdr :: additions heirs (slot + 1) := rfl

namespace HeirsAlong

variable {nodes : Heap (BlockInfo Hash)} {base : ℚ} {start : Option Ptr} {path : List Ptr}
  {heirs : List (BlockchainHeir Hash)}

omit [DecidableEq Hash] in
theorem firstChildPath (along : HeirsAlong env nodes base start path heirs) :
    FirstChildPath nodes start path := by
  induction along with
  | nil => exact .nil
  | cons live _ _ inductionHypothesis => exact .cons live inductionHypothesis

omit [DecidableEq Hash] in
/-- The nodes of the path have headers. -/
theorem isBlock (along : HeirsAlong env nodes base start path heirs) {p : Ptr} (onPath : p ∈ path)
    {member : Member (BlockInfo Hash)} (live : nodes p = some member) :
    IsBlock nodes p member.val.hash := by
  induction along with
  | nil => cases onPath
  | @cons base q first path hdr heirs firstLive header _ inductionHypothesis =>
      rcases List.mem_cons.1 onPath with rfl | later
      · rw [live] at firstLive
        cases firstLive
        exact ⟨member, live, by rw [header]; rfl, rfl⟩
      · exact inductionHypothesis later

omit [DecidableEq Hash] in
/-- A new heir has the hash of a block on the path. -/
theorem block_of_heir (along : HeirsAlong env nodes base start path heirs)
    {heir : BlockchainHeir Hash} (inside : heir ∈ heirs) :
    ∃ p ∈ path, IsBlock nodes p heir.hash := by
  induction along with
  | nil => cases inside
  | @cons base p member path hdr heirs live header _ inductionHypothesis =>
      rcases List.mem_cons.1 inside with rfl | later
      · exact ⟨p, List.mem_cons_self, member, live, by rw [header]; rfl, rfl⟩
      · obtain ⟨q, onPath, isBlock⟩ := inductionHypothesis later
        exact ⟨q, List.mem_cons_of_mem _ onPath, isBlock⟩

omit [DecidableEq Hash] in
/-- A block on the path has the hash of a new heir. -/
theorem heir_of_block (along : HeirsAlong env nodes base start path heirs) {p : Ptr}
    (onPath : p ∈ path) {hash : Hash} (isBlock : IsBlock nodes p hash) :
    ∃ heir ∈ heirs, heir.hash = hash := by
  induction along with
  | nil => cases onPath
  | @cons base q member path hdr heirs live header _ inductionHypothesis =>
      rcases List.mem_cons.1 onPath with rfl | later
      · obtain ⟨again, againLive, -, rfl⟩ := isBlock
        rw [live] at againLive
        cases againLive
        exact ⟨_, List.mem_cons_self, rfl⟩
      · obtain ⟨heir, inside, same⟩ := inductionHypothesis later
        exact ⟨heir, List.mem_cons_of_mem _ inside, same⟩

end HeirsAlong

/-- The loop of `blockchain_add_inheritances` appends the heirs along the first children. -/
theorem addInheritancesLoop_along {fuel slot height tip : Nat} {chain after : Blockchain Hash}
    {child : Option Ptr} {parentHeir : BlockchainHeir Hash} (indexed : HeirsIndexed chain)
    (isLast : chain.heirs.length = slot + 1) (parentStored : chain.heirs[slot]? = some parentHeir)
    (returns : addInheritancesLoop env fuel chain ⟨chain.arena, slot⟩ child height =
      .ok (after, tip)) :
    ∃ path heirs searchRoot,
      HeirsAlong env chain.candidatesList.nodes parentHeir.cumulativeDifficulty child path heirs ∧
      after = { chain with
        heirs := chain.heirs ++ heirs
        searchRoot
        callbacks := chain.callbacks ++ additions heirs (slot + 1) } ∧
      HeirsIndexed after ∧ tip = height + heirs.length := by
  induction fuel generalizing chain child slot height parentHeir with
  | zero => cases returns
  | succ fuel inductionHypothesis =>
      cases child with
      | none =>
          cases returns
          refine ⟨[], [], after.searchRoot, .nil _, ?_, indexed, rfl⟩
          simp [additions]
      | some child =>
          rw [addInheritancesLoop, Exec.bind_eq_ok] at returns
          obtain ⟨extended, adds, returns⟩ := returns
          obtain ⟨member, hdr, searchRoot, live, header, -, extendedEq, extendedIndexed⟩ :=
            addHeir_inversion indexed isLast parentStored adds
          subst extendedEq
          simp only [Exec.bind_eq_ok] at returns
          obtain ⟨cell, reads, again, readsHdr, rest⟩ := returns
          have cellLive := Heap.read_eq_ok.1 reads
          rw [live] at cellLive
          cases cellLive
          have sameHdr := Exec.deref_eq_ok.1 readsHdr
          rw [header] at sameHdr
          cases sameHdr
          have newIsLast : (chain.heirs ++
              [heirOf env member.val.hash hdr parentHeir.cumulativeDifficulty]).length =
                slot + 1 + 1 := by
            rw [List.length_append, isLast, List.length_singleton]
          have newStored : (chain.heirs ++
              [heirOf env member.val.hash hdr parentHeir.cumulativeDifficulty])[slot + 1]? =
                some (heirOf env member.val.hash hdr parentHeir.cumulativeDifficulty) := by
            rw [← isLast, List.getElem?_concat_length]
          have notified : HeirsIndexed (Blockchain.notify { chain with
              heirs := chain.heirs ++
                [heirOf env member.val.hash hdr parentHeir.cumulativeDifficulty]
              searchRoot } (.addBlock member.val.hash (slot + 1) hdr)) :=
            ⟨extendedIndexed.index, extendedIndexed.distinct⟩
          obtain ⟨path, heirs, root, along, afterEq, afterIndexed, tipEq⟩ :=
            inductionHypothesis notified newIsLast newStored rest
          refine ⟨child :: path, _, root, .cons live header along, ?_, afterIndexed, ?_⟩
          · rw [afterEq, additions_cons]
            simp [Blockchain.notify, heirOf]
          · rw [tipEq, List.length_cons]
            omega

omit [DecidableEq Hash] in
/-- The array has room for another heir. -/
theorem blockchainResize_room {chain : Blockchain Hash}
    (capacity : blockchainDefaultAllocSize ∣ chain.maxSize)
    (room : chain.height + 2 ≤ chain.maxSize) :
    blockchainResize env chain (1 + chain.height + 1) = chain := by
  have rounded : (1 + chain.height + 1 + blockchainDefaultAllocSize - 1) /
      blockchainDefaultAllocSize * blockchainDefaultAllocSize ≤ chain.maxSize := by
    obtain ⟨units, size⟩ := capacity
    rw [size] at room ⊢
    simp only [blockchainDefaultAllocSize] at room ⊢
    omega
  exact if_pos rounded

/-- `add_heir` behind the last heir returns for a block that names him. -/
theorem addHeir_returns (env : ChainEnv Hash) {chain : Blockchain Hash} {slot : Nat}
    {parentHeir : BlockchainHeir Hash} (indexed : HeirsIndexed chain)
    (isLast : chain.heirs.length = slot + 1)
    (parentStored : chain.heirs[slot]? = some parentHeir)
    (capacity : blockchainDefaultAllocSize ∣ chain.maxSize)
    (room : chain.height + 2 ≤ chain.maxSize) (inside : slot + 1 < chain.maxSize) {child : Ptr}
    {member : Member (BlockInfo Hash)} {hdr : SatoshiBlockHeader Hash}
    (live : chain.candidatesList.nodes child = some member) (header : member.val.hdr = some hdr)
    (linked : hdr.prevHash = parentHeir.hash)
    (isNew : ∀ heir ∈ chain.heirs, heir.hash ≠ member.val.hash) :
    ∃ after, addHeir env chain ⟨chain.arena, slot⟩ child = .ok after := by
  have parentReads : chain.heirAt ⟨chain.arena, slot⟩ = .ok parentHeir :=
    heirAt_eq_ok.2 ⟨rfl, parentStored⟩
  have inBounds : slot + 1 < chain.maxSize ∧ slot + 1 ≤ chain.heirs.length :=
    ⟨inside, Nat.le_of_eq isLast.symm⟩
  have whole : chain.heirs.take (slot + 1) = chain.heirs :=
    List.take_of_length_le (Nat.le_of_eq isLast)
  simp only [addHeir, parentReads, Heap.read_eq live, header, Exec.deref_some, Exec.ok_bind,
    blockchainResize_room capacity room, Exec.assert_of linked.symm]
  rw [Blockchain.setHeir, if_pos rfl, if_pos inBounds, whole, Exec.ok_bind]
  let extended : Blockchain Hash := { chain with
    heirs := chain.heirs ++ [heirOf env member.val.hash hdr parentHeir.cumulativeDifficulty] }
  have key : extended.heirHash ⟨chain.arena, slot + 1⟩ = .ok member.val.hash := by
    refine heirHash_eq_ok.2
      ⟨heirOf env member.val.hash hdr parentHeir.cumulativeDifficulty, rfl, ?_, rfl⟩
    rw [← isLast]
    exact List.getElem?_concat_length
  have old : ∀ ref ∈ chain.searchRoot, extended.heirHash ref = chain.heirHash ref := by
    intro ref entry
    obtain ⟨arena, inRange⟩ := indexed.mem_searchRoot.1 entry
    have stored := List.getElem?_eq_getElem inRange
    rw [heirHash_eq_ok.2 ⟨_, arena, stored, rfl⟩]
    exact heirHash_eq_ok.2 ⟨_, arena, (List.getElem?_append_left inRange).trans stored, rfl⟩
  have comparable : SearchTree.Live extended.heirHash chain.searchRoot := by
    intro ref entry
    rw [old ref entry]
    exact indexed.live ref entry
  have absent : ∀ ref ∈ chain.searchRoot, extended.heirHash ref ≠ .ok member.val.hash := by
    intro ref entry same
    rw [old ref entry] at same
    obtain ⟨heir, -, stored, hash⟩ := heirHash_eq_ok.1 same
    exact isNew heir (List.mem_of_getElem? stored) hash
  have searches := SearchTree.tsearch_of_absent comparable key absent
  refine ⟨{ extended with searchRoot := ⟨chain.arena, slot + 1⟩ :: chain.searchRoot }, ?_⟩
  show (SearchTree.tsearch extended.heirHash chain.searchRoot ⟨chain.arena, slot + 1⟩ >>= _) = _
  rw [searches, Exec.ok_bind]
  dsimp only
  rw [Exec.assert_of rfl, Exec.ok_bind]
  rfl

/-- Each heir names the one before him; `hash` is the hash before the first. -/
def HashLinked : Hash → List (BlockchainHeir Hash) → Prop
  | _, [] => True
  | hash, heir :: rest => heir.hdr.prevHash = hash ∧ HashLinked heir.hash rest

/-- The loop of `blockchain_add_inheritances` returns for blocks that name each other, with
hashes that no heir has, while they fit into the array. -/
theorem addInheritancesLoop_returns {fuel slot : Nat} {chain : Blockchain Hash}
    {start : Option Ptr} {path : List Ptr} {heirs : List (BlockchainHeir Hash)}
    {parentHeir : BlockchainHeir Hash} (height : Nat) (indexed : HeirsIndexed chain)
    (isLast : chain.heirs.length = slot + 1) (parentStored : chain.heirs[slot]? = some parentHeir)
    (capacity : blockchainDefaultAllocSize ∣ chain.maxSize)
    (room : chain.height + 2 ≤ chain.maxSize) (inside : slot + heirs.length < chain.maxSize)
    (along : HeirsAlong env chain.candidatesList.nodes parentHeir.cumulativeDifficulty start path
      heirs)
    (linked : HashLinked parentHeir.hash heirs)
    (fresh : ((chain.heirs ++ heirs).map BlockchainHeir.hash).Nodup)
    (enough : heirs.length < fuel) :
    ∃ result, addInheritancesLoop env fuel chain ⟨chain.arena, slot⟩ start height = .ok result := by
  induction heirs generalizing chain slot parentHeir start path height fuel with
  | nil =>
      cases along
      obtain ⟨fuel, rfl⟩ := Nat.exists_eq_succ_of_ne_zero (Nat.ne_of_gt enough)
      exact ⟨_, rfl⟩
  | cons heir rest inductionHypothesis =>
      rw [List.length_cons] at inside enough
      cases along with
      | @cons base child member path hdr heirs live header below =>
          cases fuel with
          | zero => omega
          | succ fuel =>
              let heir := heirOf env member.val.hash hdr parentHeir.cumulativeDifficulty
              have isNew : ∀ old ∈ chain.heirs, old.hash ≠ member.val.hash := by
                intro old isHeir same
                rw [List.map_append] at fresh
                exact (List.nodup_append.1 fresh).2.2 _ (List.mem_map_of_mem isHeir) _
                  List.mem_cons_self same
              obtain ⟨extended, adds⟩ := addHeir_returns env indexed isLast parentStored
                capacity room (by omega) live header linked.1 isNew
              obtain ⟨again, hdr', searchRoot, memberLive, header', -, rfl, extendedIndexed⟩ :=
                addHeir_inversion indexed isLast parentStored adds
              rw [live] at memberLive
              cases memberLive
              rw [header] at header'
              cases header'
              simp only [addInheritancesLoop, adds, Exec.ok_bind, Heap.read_eq live, header,
                Exec.deref_some]
              have newIsLast : (chain.heirs ++ [heir]).length = slot + 1 + 1 := by
                rw [List.length_append, isLast, List.length_singleton]
              have newStored : (chain.heirs ++ [heir])[slot + 1]? = some heir := by
                rw [← isLast, List.getElem?_concat_length]
              have stillFresh : (((chain.heirs ++ [heir]) ++ rest).map BlockchainHeir.hash).Nodup := by
                rw [List.append_assoc]
                exact fresh
              exact inductionHypothesis (height + 1)
                ⟨extendedIndexed.index, extendedIndexed.distinct⟩ newIsLast newStored capacity room
                (by change slot + 1 + rest.length < chain.maxSize; omega) below linked.2 stillFresh
                (Nat.lt_of_succ_lt_succ enough)

/-- `blockchain_add_inheritances` behind the last heir: no one is abandoned. -/
theorem blockchainAddInheritances_along {fuel : Nat} {chain after : Blockchain Hash}
    {child orphans : Option Ptr} {parentHeir : BlockchainHeir Hash} (indexed : HeirsIndexed chain)
    (length : chain.heirs.length = chain.height + 1)
    (parentStored : chain.heirs[chain.height]? = some parentHeir)
    (returns : blockchainAddInheritances fuel env chain ⟨chain.arena, chain.height⟩ child =
      .ok (after, orphans)) :
    ∃ path heirs searchRoot,
      HeirsAlong env chain.candidatesList.nodes parentHeir.cumulativeDifficulty child path heirs ∧
      after = { chain with
        heirs := chain.heirs ++ heirs
        height := chain.height + heirs.length
        searchRoot
        callbacks := chain.callbacks ++ additions heirs (chain.height + 1) } ∧
      HeirsIndexed after := by
  simp only [blockchainAddInheritances, Exec.bind_eq_ok] at returns
  obtain ⟨_, -, ⟨same, top⟩, abandons, ⟨extended, tip⟩, loop, returns⟩ := returns
  have atTip : blockchainAbandonInheritances env chain ⟨chain.arena, chain.height⟩ =
      .ok (chain, none) := by
    rw [blockchainAbandonInheritances, Exec.assert_of (Nat.le_refl _), Exec.ok_bind, if_pos rfl]
  rw [atTip] at abandons
  cases abandons
  cases returns
  obtain ⟨path, heirs, searchRoot, along, extendedEq, extendedIndexed, tipEq⟩ :=
    addInheritancesLoop_along indexed length parentStored loop
  subst extendedEq tipEq
  exact ⟨path, heirs, searchRoot, along, rfl, extendedIndexed.index, extendedIndexed.distinct⟩

end BitcoinClib.Chains
