import BitcoinClib.Chains.Linear

/-!
Contract: a list of chains each of which is a path.

Owns:
- `ChainRun`, a chain without forks, and `Lined`, a list of them with a path that is not in a
  chain yet;
- Rules I to III on such a list: each returns, and leaves such a list.

Does not own: the heirs.
-/

namespace BitcoinClib.Chains

open BitcoinClib.Lib

variable {Hash : Type}

/-- A chain without forks: its head and its blocks. -/
structure ChainRun (Hash : Type) where
  head : Ptr
  top : Ptr × SatoshiBlockHeader Hash
  below : Strand Hash

/-- The nodes of a strand with their hashes. -/
def Strand.rows (env : ChainEnv Hash) (strand : Strand Hash) : List (Ptr × Hash) :=
  strand.map fun block => (block.1, env.hash256 block.2)

namespace ChainRun

def blocks (run : ChainRun Hash) : Strand Hash := run.top :: run.below

def headers (run : ChainRun Hash) : List (SatoshiBlockHeader Hash) := run.blocks.map Prod.snd

/-- The hash of the block the run waits for. -/
def missing (run : ChainRun Hash) : Hash := run.top.2.prevHash

/-- The nodes of the chain with their hashes. -/
def rows (env : ChainEnv Hash) (run : ChainRun Hash) : List (Ptr × Hash) :=
  (run.head, run.missing) :: Strand.rows env run.blocks

/-- The nodes of the chain. -/
def pointers (run : ChainRun Hash) : List Ptr := run.head :: Strand.pointers run.blocks

/-- The chain in memory. -/
structure At (env : ChainEnv Hash) (list : ActiveChainList Hash) (run : ChainRun Hash) : Prop where
  head : list.nodes run.head = some ⟨⟨run.missing, none, 0⟩, none, some run.top.1, none⟩
  blocks : Strung env list.nodes (some run.head) run.blocks none
  chain : list.activeChains run.head = some ⟨Strand.last none run.blocks, true⟩

theorem At.congr {env : ChainEnv Hash} {list after : ActiveChainList Hash} {run : ChainRun Hash}
    (isAt : run.At env list) (nodes : ∀ p ∈ run.pointers, after.nodes p = list.nodes p)
    (chain : after.activeChains run.head = list.activeChains run.head) : run.At env after :=
  ⟨(nodes _ List.mem_cons_self).trans isAt.head,
    isAt.blocks.congr fun p inside => nodes p (List.mem_cons_of_mem _ inside),
    chain.trans isAt.chain⟩

end ChainRun

/-- Other nodes may change. -/
theorem runsAt_congr {env : ChainEnv Hash} {list after : ActiveChainList Hash}
    {runs : List (ChainRun Hash)} (isAt : ∀ run ∈ runs, run.At env list)
    (nodes : ∀ p ∈ runs.flatMap ChainRun.pointers, after.nodes p = list.nodes p)
    (chain : ∀ p ∈ runs.flatMap ChainRun.pointers, after.activeChains p = list.activeChains p) :
    ∀ run ∈ runs, run.At env after := by
  intro run inside
  have ofRun : ∀ p ∈ run.pointers, p ∈ runs.flatMap ChainRun.pointers :=
    fun p member => List.mem_flatMap.2 ⟨run, inside, member⟩
  exact (isAt run inside).congr (fun p member => nodes p (ofRun p member))
    (chain _ (ofRun _ List.mem_cons_self))

theorem nodeHash_congr {nodes after : Heap (BlockInfo Hash)} {p : Ptr}
    (same : after p = nodes p) : nodeHash after p = nodeHash nodes p := by
  unfold nodeHash Heap.read
  rw [same]

/-- The nodes of the list are those of the runs and of a loose path; the nodes of the runs and of
`indexed` are in the index. -/
structure Lined (env : ChainEnv Hash) (list : ActiveChainList Hash) (indexed loose : Strand Hash)
    (runs : List (ChainRun Hash)) : Prop where
  strung : Strung env list.nodes none loose none
  isAt : ∀ run ∈ runs, run.At env list
  isLoose : ∀ block ∈ indexed, block ∈ loose
  entries : list.searchRoot.Perm (indexed.pointers ++ runs.flatMap ChainRun.pointers)
  keys : ((indexed.rows env ++ runs.flatMap (ChainRun.rows env)).map Prod.snd).Nodup
  chains : list.chains.Perm (runs.map ChainRun.head)
  distinct : (loose.pointers ++ runs.flatMap ChainRun.pointers).Nodup
  below : ∀ p ∈ loose.pointers ++ runs.flatMap ChainRun.pointers, p < list.next

variable {env : ChainEnv Hash} {list : ActiveChainList Hash} {indexed loose : Strand Hash}
  {run : ChainRun Hash} {runs others : List (ChainRun Hash)} {fuel : Nat}

theorem Strand.rows_fst (strand : Strand Hash) :
    (strand.rows env).map Prod.fst = strand.pointers := by
  rw [Strand.rows, List.map_map]
  rfl

theorem rows_fst (runs : List (ChainRun Hash)) :
    (runs.flatMap (ChainRun.rows env)).map Prod.fst = runs.flatMap ChainRun.pointers := by
  rw [List.map_flatMap]
  refine congrArg runs.flatMap (funext fun run => ?_)
  rw [ChainRun.rows, List.map_cons, Strand.rows_fst]
  rfl

namespace Lined

theorem perm (lined : Lined env list indexed loose runs) (same : runs.Perm others) :
    Lined env list indexed loose others where
  strung := lined.strung
  isAt run inside := lined.isAt run (same.mem_iff.2 inside)
  isLoose := lined.isLoose
  entries := lined.entries.trans ((same.flatMap_right _).append_left _)
  keys := ((((same.flatMap_right _).append_left _).map _).nodup_iff).1 lined.keys
  chains := lined.chains.trans (same.map _)
  distinct := (((same.flatMap_right _).append_left _).nodup_iff).1 lined.distinct
  below p inside := lined.below p (((same.flatMap_right _).append_left _).mem_iff.2 inside)

/-- The index as a table. -/
theorem table (lined : Lined env list indexed loose runs) :
    SearchTree.Table (nodeHash list.nodes) list.searchRoot
      (indexed.rows env ++ runs.flatMap (ChainRun.rows env)) where
  entries := by
    rw [List.map_append, Strand.rows_fst, rows_fst]
    exact lined.entries
  keys := lined.keys
  reads row inside := by
    have ofBlock : ∀ {parent strand}, Strung env list.nodes parent strand none →
        ∀ block ∈ strand, nodeHash list.nodes block.1 = .ok (env.hash256 block.2) := by
      intro parent strand strung block member
      obtain ⟨node, live, hash, -⟩ := strung.live member
      exact nodeHash_eq_ok.2 ⟨node, live, hash⟩
    rcases List.mem_append.1 inside with ofLoose | ofRuns
    · obtain ⟨block, member, rfl⟩ := List.mem_map.1 ofLoose
      exact ofBlock lined.strung block (lined.isLoose block member)
    · obtain ⟨run, isRun, ofRun⟩ := List.mem_flatMap.1 ofRuns
      rcases List.mem_cons.1 ofRun with rfl | ofRun
      · exact nodeHash_eq_ok.2 ⟨_, (lined.isAt run isRun).head, rfl⟩
      · obtain ⟨block, member, rfl⟩ := List.mem_map.1 ofRun
        exact ofBlock (lined.isAt run isRun).blocks block member

theorem find [DecidableEq Hash] (lined : Lined env list indexed loose runs) {row : Ptr × Hash}
    (inside : row ∈ indexed.rows env ++ runs.flatMap (ChainRun.rows env)) :
    activeChainListFind list row.2 = .ok (some row.1) :=
  lined.table.tfind_of_row inside

theorem find_none [DecidableEq Hash] (lined : Lined env list indexed loose runs) {hash : Hash}
    (absent : hash ∉ (indexed.rows env ++ runs.flatMap (ChainRun.rows env)).map Prod.snd) :
    activeChainListFind list hash = .ok none :=
  lined.table.tfind_of_missing absent

/-- The next address is free. -/
theorem next_off (lined : Lined env list indexed loose runs) :
    list.next ∉ loose.pointers ++ runs.flatMap ChainRun.pointers :=
  fun inside => Nat.lt_irrefl _ (lined.below _ inside)

end Lined

/-! ## Rule I -/

/-- A new node is a loose path of its own. -/
theorem newOrphan_lined (lined : Lined env list [] [] runs) (hdr : SatoshiBlockHeader Hash) :
    Lined env (newOrphan env list (env.hash256 hdr) hdr) [] [(list.next, hdr)] runs := by
  have off : list.next ∉ runs.flatMap ChainRun.pointers := lined.next_off
  have unchanged : ∀ p, p ≠ list.next →
      (newOrphan env list (env.hash256 hdr) hdr).nodes p = list.nodes p := by
    intro p other
    exact (Heap.write_of_ne other).trans (Heap.write_of_ne other)
  refine ⟨⟨⟨0, Heap.write_same⟩, trivial⟩, runsAt_congr lined.isAt (fun p inside => unchanged p ?_)
    (fun _ _ => rfl), fun _ impossible => absurd impossible List.not_mem_nil, lined.entries,
    lined.keys, lined.chains, List.nodup_cons.2 ⟨off, lined.distinct⟩, fun p inside => ?_⟩
  · rintro rfl
    exact off inside
  · rcases List.mem_cons.1 inside with rfl | old
    · exact Nat.lt_succ_self _
    · exact Nat.lt_succ_of_lt (lined.below p old)

/-- The last chain takes the place of the one that leaves. -/
theorem dropChain_perm {chain : Ptr} {chains : List Ptr} (inside : chain ∈ chains) :
    chains.Perm (chain :: dropChain chain chains) := by
  obtain ⟨front, back, rfl, notBefore⟩ := List.eq_append_cons_of_mem inside
  have index : (front ++ chain :: back).idxOf chain = front.length := by
    rw [List.idxOf_append_of_notMem notBefore, List.idxOf_cons_self, Nat.add_zero]
  rw [dropChain, index, List.set_append_right _ _ (Nat.le_refl _), Nat.sub_self, List.set_cons_zero]
  cases back using List.reverseRecOn with
  | nil =>
      rw [List.dropLast_concat]
      exact List.perm_append_singleton _ _
  | append_singleton back last _ =>
      have isLast : (front ++ chain :: (back ++ [last])).getLastD chain = last := by
        rw [← List.cons_append, ← List.append_assoc, List.getLastD_concat]
      have shortened : (front ++ last :: (back ++ [last])).dropLast = front ++ last :: back := by
        rw [← List.cons_append, ← List.append_assoc, List.dropLast_concat]
      rw [isLast, shortened]
      refine List.perm_middle.trans (List.Perm.cons chain ?_)
      exact (List.perm_append_singleton last back).append_left front

/-- `list_remove` of a chain without blocks. -/
theorem listRemove_returns [DecidableEq Hash] {chain : Ptr} {fields : ActiveChain}
    {head : Member (BlockInfo Hash)} {found : Bool} {searchRoot : List Ptr}
    (listed : chain ∈ list.chains) (stored : list.activeChains chain = some fields)
    (hasRoot : fields.pSearchRoot = true) (live : list.nodes chain = some head)
    (childless : head.firstChild = none)
    (deletes : SearchTree.tdelete (nodeHash list.nodes) list.searchRoot chain =
      .ok (found, searchRoot)) (enough : 0 < fuel) :
    listRemove fuel list chain = .ok { list with
      nodes := list.nodes.release chain
      activeChains := fun p => if p = chain then none else list.activeChains p
      searchRoot
      chains := dropChain chain list.chains } := by
  obtain ⟨fuel, rfl⟩ := Nat.exists_eq_succ_of_ne_zero (Nat.ne_of_gt enough)
  rw [listRemove, if_pos listed, activeChainFree, stored, Exec.deref_some, Exec.ok_bind,
    Heap.read_eq live, Exec.ok_bind, if_pos hasRoot, childless]
  simp only [activeChainRemoveChildren, Exec.ok_bind, deletes, freeChildren]

theorem listSearchTreeRemove_returns [DecidableEq Hash] {node : Ptr} {searchRoot : List Ptr}
    (deletes : SearchTree.tdelete (nodeHash list.nodes) list.searchRoot node =
      .ok (true, searchRoot)) :
    listSearchTreeRemove list node = .ok { list with searchRoot } := by
  rw [listSearchTreeRemove, deletes, Exec.ok_bind]
  dsimp only
  rw [Exec.assert_of rfl, Exec.ok_bind]

/-- The missing parent of a run claims its blocks. -/
theorem chainSubRules_lined [DecidableEq Hash] {hdr : SatoshiBlockHeader Hash}
    (lined : Lined env list [] [] (run :: others))
    (positive : ∀ block ∈ (list.next, hdr) :: run.blocks,
      0 < env.compactUint256ToBdiff block.2.bits)
    (enough : run.blocks.length + 1 < fuel) :
    ∃ after, chainSubRules fuel env list run.head (env.hash256 hdr) hdr = .ok after ∧
      Lined env after run.blocks ((list.next, hdr) :: run.blocks) others := by
  have isAt := lined.isAt run List.mem_cons_self
  -- addresses
  have distinct : (run.head :: (run.blocks.pointers ++ others.flatMap ChainRun.pointers)).Nodup :=
    lined.distinct
  obtain ⟨headOff, distinctRest⟩ := List.nodup_cons.1 distinct
  have nextOff : list.next ∉
      run.head :: (run.blocks.pointers ++ others.flatMap ChainRun.pointers) := lined.next_off
  have notNext : run.head ≠ list.next := fun same => nextOff (same ▸ List.mem_cons_self)
  have nextOffRest := fun inside => nextOff (List.mem_cons_of_mem run.head inside)
  -- the head leaves the index
  have table : SearchTree.Table (nodeHash list.nodes) list.searchRoot
      ((run.head, run.missing) :: (run.blocks.rows env ++ others.flatMap (ChainRun.rows env))) :=
    lined.table
  obtain ⟨deletes, tableRest⟩ := table.tdelete (List.Perm.refl _)
  -- the new node and the run below it
  let searchRoot := list.searchRoot.erase run.head
  let entered := newOrphan env { list with searchRoot } (env.hash256 hdr) hdr
  have enteredSame : ∀ p, p ≠ list.next → entered.nodes p = list.nodes p :=
    fun p other => (Heap.write_of_ne other).trans (Heap.write_of_ne other)
  have blocksThere : Strung env entered.nodes (some run.head) run.blocks none := by
    refine isAt.blocks.congr fun p inside => enteredSame p ?_
    rintro rfl
    exact nextOffRest (List.mem_append_left _ inside)
  have orphanThere : Strung env entered.nodes none [(list.next, hdr)] none :=
    ⟨⟨0, Heap.write_same⟩, trivial⟩
  have apart : (Strand.pointers ((list.next, hdr) :: run.blocks)).Nodup :=
    List.nodup_cons.2 ⟨fun inside => nextOffRest (List.mem_append_left _ inside),
      (List.nodup_append.1 distinctRest).1⟩
  obtain ⟨claimed, claims, claimedStrung, claimedSame⟩ :=
    claimChildren_strung orphanThere blocksThere apart (show 1 < fuel by omega)
  have noLongest : Offerable claimed ((list.next, hdr) :: run.blocks) 0 none := by
    intro heir same
    cases same
  obtain ⟨updated, updates, strung, updatedSame⟩ :=
    blockInfoUpdate_strung positive claimedStrung noLongest enough
  rw [Strand.first_cons] at updates
  -- the head is empty, and it is released
  have same : ∀ p, p ∉ Strand.pointers ((list.next, hdr) :: run.blocks) →
      updated p = list.nodes p := by
    intro p outside
    rw [updatedSame p outside, claimedSame p outside]
    exact enteredSame p fun same => outside (same ▸ List.mem_cons_self)
  have headOutside : run.head ∉ Strand.pointers ((list.next, hdr) :: run.blocks) := by
    rw [Strand.pointers_cons, List.mem_cons, not_or]
    exact ⟨notNext, fun inside => headOff (List.mem_append_left _ inside)⟩
  have headUpdated := (same _ headOutside).trans isAt.head
  have headEntered := (enteredSame _ notNext).trans isAt.head
  let emptied := updated.write run.head ⟨⟨run.missing, none, 0⟩, none, none, none⟩
  have releasedSame : ∀ p, p ≠ run.head → emptied.release run.head p = updated p :=
    fun p other => (Heap.release_of_ne other).trans (Heap.write_of_ne other)
  have othersOff : ∀ p ∈ others.flatMap ChainRun.pointers, p ≠ run.head ∧
      p ∉ Strand.pointers ((list.next, hdr) :: run.blocks) := by
    intro p inside
    refine ⟨fun same => headOff (List.mem_append_right _ (same ▸ inside)), fun outside => ?_⟩
    rcases List.mem_cons.1 outside with rfl | ofRun
    · exact nextOffRest (List.mem_append_right _ inside)
    · exact (List.nodup_append.1 distinctRest).2.2 p ofRun p inside rfl
  have result : Lined env { entered with
      nodes := emptied.release run.head
      activeChains := fun p => if p = run.head then none else list.activeChains p
      chains := dropChain run.head list.chains } run.blocks ((list.next, hdr) :: run.blocks)
      others := by
    refine ⟨strung.congr fun p inside => releasedSame p ?_, ?_,
      fun block inside => List.mem_cons_of_mem _ inside, ?_, tableRest.keys, ?_,
      List.nodup_cons.2 ⟨nextOffRest, distinctRest⟩, fun p inside => ?_⟩
    · rintro rfl
      exact headOutside inside
    · refine runsAt_congr (fun other inside => lined.isAt other (List.mem_cons_of_mem _ inside))
        (fun p inside => ?_) (fun p inside => if_neg (othersOff p inside).1)
      obtain ⟨notHead, outside⟩ := othersOff p inside
      exact (releasedSame p notHead).trans (same p outside)
    · have entries := tableRest.entries
      rw [List.map_append, Strand.rows_fst, rows_fst] at entries
      exact entries
    · have listed := lined.chains.mem_iff.2 List.mem_cons_self
      exact ((dropChain_perm listed).symm.trans lined.chains).cons_inv
    · rcases List.mem_cons.1 inside with rfl | old
      · exact Nat.lt_succ_self _
      · exact Nat.lt_succ_of_lt (lined.below p (List.mem_cons_of_mem _ old))
  have emptiedTable : SearchTree.Table (nodeHash emptied) searchRoot
      (run.blocks.rows env ++ others.flatMap (ChainRun.rows env)) := by
    refine result.table.congr fun row inside => ?_
    have member := List.mem_map_of_mem (f := Prod.fst) inside
    rw [List.map_append, Strand.rows_fst, rows_fst] at member
    refine nodeHash_congr (Heap.release_of_ne ?_).symm
    intro same
    rw [same] at member
    exact headOff member
  have notThere := emptiedTable.tdelete_of_missing (nodeHash_eq_ok.2 ⟨_, Heap.write_same, rfl⟩)
    (List.nodup_cons.1 table.keys).1
  have removes : listRemove fuel { entered with nodes := emptied } run.head = _ :=
    listRemove_returns (lined.chains.mem_iff.2 List.mem_cons_self) isAt.chain rfl Heap.write_same
      rfl notThere (show 0 < fuel by omega)
  refine ⟨_, ?_, result⟩
  rw [chainSubRules, listSearchTreeRemove_returns deletes, Exec.ok_bind]
  dsimp only
  rw [Heap.read_eq headEntered, Exec.ok_bind]
  dsimp only
  rw [claims, Exec.ok_bind, updates, Exec.ok_bind]
  dsimp only
  rw [Heap.read_eq headUpdated, Exec.ok_bind]
  exact removes

/-- The first block of the loose path enters the index. -/
theorem listSearchTreeAdd_lined [DecidableEq Hash] {block : Ptr × SatoshiBlockHeader Hash}
    (lined : Lined env list indexed (block :: indexed) runs)
    (absent : env.hash256 block.2 ∉
      (indexed.rows env ++ runs.flatMap (ChainRun.rows env)).map Prod.snd) :
    ∃ searchRoot, listSearchTreeAdd list block.1 = .ok { list with searchRoot } ∧
      Lined env { list with searchRoot } (block :: indexed) (block :: indexed) runs := by
  obtain ⟨node, live, hash, -⟩ := lined.strung.live List.mem_cons_self
  obtain ⟨searches, table⟩ := lined.table.tsearch absent (nodeHash_eq_ok.2 ⟨node, live, hash⟩)
  refine ⟨block.1 :: list.searchRoot, ?_, lined.strung,
    runsAt_congr lined.isAt (fun _ _ => rfl) (fun _ _ => rfl), fun _ inside => inside,
    lined.entries.cons block.1, table.keys, lined.chains, lined.distinct, lined.below⟩
  rw [listSearchTreeAdd, searches, Exec.ok_bind]
  dsimp only
  rw [Exec.assert_of rfl, Exec.ok_bind]

/-! ## Rules II and III -/

/-- A path that joins a run is moved behind the blocks of the run. -/
theorem joined_perm {α : Type} (head : α) (moved blocks others : List α) :
    (moved ++ head :: (blocks ++ others)).Perm (head :: (blocks ++ moved ++ others)) := by
  refine List.perm_middle.trans (List.Perm.cons head ?_)
  rw [← List.append_assoc]
  exact List.perm_append_comm.append_right others

/-- The loose path joins a run. -/
theorem ruleII_lined [DecidableEq Hash] {block : Ptr × SatoshiBlockHeader Hash}
    {rest : Strand Hash} {last : Ptr}
    (lined : Lined env list (block :: rest) (block :: rest) (run :: others))
    (isLast : Strand.last none run.blocks = some last)
    (positive : ∀ b ∈ block :: rest, 0 < env.compactUint256ToBdiff b.2.bits)
    (enough : (run.blocks ++ block :: rest).length < fuel) :
    ∃ after, ruleII fuel env list last block.1 = .ok (after, run.head) ∧
      Lined env after [] [] (⟨run.head, run.top, run.below ++ block :: rest⟩ :: others) := by
  have isAt := lined.isAt run List.mem_cons_self
  have lengths : (run.blocks ++ block :: rest).length =
      run.blocks.length + (block :: rest).length := List.length_append
  -- addresses
  have distinct : (run.head :: ((run.blocks.pointers ++ Strand.pointers (block :: rest)) ++
      others.flatMap ChainRun.pointers)).Nodup :=
    ((joined_perm _ _ _ _).nodup_iff).1 lined.distinct
  obtain ⟨headOff, distinctRest⟩ := List.nodup_cons.1 distinct
  obtain ⟨distinctJoined, -, apart⟩ := List.nodup_append.1 distinctRest
  rw [← Strand.pointers_append] at headOff distinctJoined apart
  have blocksOff : ∀ p ∈ run.blocks.pointers, p ∉ Strand.pointers (block :: rest) := by
    intro p inside joining
    rw [Strand.pointers_append] at distinctJoined
    exact (List.nodup_append.1 distinctJoined).2.2 p inside p joining rfl
  have lastInside : last ∈ run.blocks.pointers := by
    obtain ⟨p, inside, endsAt⟩ := Strand.last_mem run.top run.below none
    cases isLast.symm.trans endsAt
    exact inside
  -- the path hangs on the last block, with new difficulties
  obtain ⟨joined, adds, joinedStrung, joinedSame⟩ :=
    blockInfoAddChild_strung fuel isAt.blocks isLast lined.strung distinctJoined
  obtain ⟨front, back⟩ := strung_append.1 joinedStrung
  obtain ⟨lastCell, lastLive⟩ : ∃ cell, joined last = some cell := by
    obtain ⟨b, member, rfl⟩ := List.mem_map.1 lastInside
    obtain ⟨cell, live, -⟩ := front.live member
    exact ⟨cell, live⟩
  have noLongest : Offerable joined (block :: rest) lastCell.val.cumulativeDifficulty
      (some none) := by
    intro heir same
    cases same
  obtain ⟨updated, updates, backNow, updatedSame⟩ :=
    blockInfoUpdate_strung positive back noLongest
      (show (block :: rest).length < fuel by omega)
  have frontNow := front.congr fun p inside => updatedSame p (blocksOff p inside)
  have whole := strung_append.2 ⟨frontNow, backNow⟩
  have same : ∀ p, p ∉ Strand.pointers (run.blocks ++ block :: rest) →
      updated p = list.nodes p := by
    intro p outside
    refine (updatedSame p fun inside => outside ?_).trans (joinedSame p outside)
    rw [Strand.pointers_append]
    exact List.mem_append_right _ inside
  have headLive := (same _ fun inside => headOff (List.mem_append_left _ inside)).trans isAt.head
  -- the end of the path is the longest end
  obtain ⟨longestEnd, endInside, isEnd⟩ := Strand.last_mem block rest none
  have notLast : longestEnd ≠ last := by
    rintro rfl
    exact blocksOff _ lastInside endInside
  have climbs : getCurrentChain fuel list.nodes last = .ok run.head :=
    getCurrentChain_strung isAt.head rfl isAt.blocks (by omega) last isLast
  have wholeEnd : Strand.last (some run.head) (run.blocks ++ block :: rest) = some longestEnd := by
    rw [Strand.last_append]
    exact isEnd
  have declares : blockInfoDeclareInheritance fuel updated longestEnd = .ok updated :=
    blockInfoDeclareInheritance_strung headLive rfl rfl whole enough longestEnd wholeEnd
  obtain ⟨nowCell, nowLive⟩ : ∃ cell, updated last = some cell := by
    obtain ⟨b, member, rfl⟩ := List.mem_map.1 lastInside
    obtain ⟨cell, live, -⟩ := frontNow.live member
    exact ⟨cell, live⟩
  let fields : ActiveChain := ⟨some longestEnd, true⟩
  refine ⟨({ list with nodes := updated } : ActiveChainList Hash).setActiveChain run.head fields,
    ?_, ?_⟩
  · rw [Strand.first_cons, Option.map_some, isEnd] at updates
    rw [ruleII, climbs, Exec.ok_bind, adds, Exec.ok_bind, Heap.read_eq lastLive, Exec.ok_bind,
      updates, Exec.ok_bind, isAt.chain, Exec.deref_some]
    dsimp only
    rw [Exec.ok_bind, isLast]
    dsimp only
    rw [checkPointer, Heap.read_eq nowLive, Exec.ok_bind, Exec.ok_bind,
      if_neg fun same => notLast (Option.some.inj same), declares, Exec.ok_bind]
  · refine ⟨trivial, List.forall_mem_cons.2 ⟨⟨headLive, whole, ?_⟩, ?_⟩,
      fun _ impossible => absurd impossible List.not_mem_nil, ?_, ?_, lined.chains, ?_, ?_⟩
    · show (if run.head = run.head then some fields else _) = some ⟨_, true⟩
      rw [if_pos rfl]
      exact congrArg (fun last => some (ActiveChain.mk last true)) wholeEnd.symm
    · refine runsAt_congr (fun other inside => lined.isAt other (List.mem_cons_of_mem _ inside))
        (fun p inside => ?_) (fun p inside => if_neg ?_)
      · refine same p fun joining => apart p joining p inside rfl
      · rintro rfl
        exact headOff (List.mem_append_right _ inside)
    · have entries := lined.entries.trans (joined_perm _ _ _ _)
      rw [← Strand.pointers_append] at entries
      exact entries
    · have rows := ((joined_perm (run.head, run.missing) (Strand.rows env (block :: rest))
        (run.blocks.rows env) (others.flatMap (ChainRun.rows env))).map Prod.snd).nodup_iff.1
          lined.keys
      rw [Strand.rows, Strand.rows, ← List.map_append] at rows
      exact rows
    · rw [← Strand.pointers_append] at distinct
      exact distinct
    · intro p inside
      refine lined.below p ((joined_perm _ _ _ _).mem_iff.2 ?_)
      rw [← Strand.pointers_append]
      exact inside

/-- `active_chain_new` without a search root puts a head above the loose path. -/
theorem activeChainNew_strung {block : Ptr × SatoshiBlockHeader Hash} {rest : Strand Hash}
    [DecidableEq Hash] (strung : Strung env list.nodes none (block :: rest) none)
    (nextOff : list.next ∉ Strand.pointers (block :: rest))
    (enough : (block :: rest).length < fuel) :
    ∃ nodes, activeChainNew fuel list block.1 false = .ok { list with
        nodes
        activeChains := fun p => if p = list.next then
          some ⟨Strand.last none (block :: rest), false⟩ else list.activeChains p
        next := list.next + 1 } ∧
      nodes list.next = some ⟨⟨block.2.prevHash, none, 0⟩, none, some block.1, none⟩ ∧
      Strung env nodes (some list.next) (block :: rest) none ∧
      ∀ p, p ∉ Strand.pointers (block :: rest) → p ≠ list.next → nodes p = list.nodes p := by
  obtain ⟨cumulativeDifficulty, live⟩ := strung.1
  have notNext : block.1 ≠ list.next := fun same => nextOff (same ▸ List.mem_cons_self)
  let headed := list.nodes.write list.next ⟨⟨block.2.prevHash, none, 0⟩, none, some block.1, none⟩
  let hanging := headed.write block.1 ⟨⟨env.hash256 block.2, some block.2, cumulativeDifficulty⟩,
    some list.next, Strand.first rest none, none⟩
  have headedLive : headed block.1 = some ⟨⟨env.hash256 block.2, some block.2,
      cumulativeDifficulty⟩, none, Strand.first rest none, none⟩ :=
    (Heap.write_of_ne notNext).trans live
  have hung : Strung env hanging (some list.next) (block :: rest) none :=
    (strung.write nextOff).hang headedLive
  obtain ⟨last, ends, isLast⟩ := firstChildEnd_strung hung (Nat.lt_of_succ_lt enough)
  refine ⟨hanging, ?_, ?_, hung, fun p outside notHead => ?_⟩
  · rw [activeChainNew, Heap.read_eq live, Exec.ok_bind]
    dsimp only
    rw [Heap.read_eq headedLive, Exec.ok_bind]
    dsimp only
    rw [ends, Exec.ok_bind, if_neg Bool.false_ne_true, Exec.ok_bind, ← isLast]
    rfl
  · exact (Heap.write_of_ne notNext.symm).trans Heap.write_same
  · have notBlock : p ≠ block.1 := fun same => outside (same ▸ List.mem_cons_self)
    exact (Heap.write_of_ne notBlock).trans (Heap.write_of_ne notHead)

/-- The loose path becomes a chain of its own. -/
theorem ruleIII_lined [DecidableEq Hash] {block : Ptr × SatoshiBlockHeader Hash}
    {rest : Strand Hash} (lined : Lined env list (block :: rest) (block :: rest) runs)
    (absent : block.2.prevHash ∉
      (Strand.rows env (block :: rest) ++ runs.flatMap (ChainRun.rows env)).map Prod.snd)
    (positive : ∀ b ∈ block :: rest, 0 < env.compactUint256ToBdiff b.2.bits)
    (enough : (block :: rest).length < fuel) :
    ∃ after, ruleIII fuel env list block.1 = .ok (after, list.next) ∧
      Lined env after [] [] (⟨list.next, block, rest⟩ :: runs) := by
  have nextOff := lined.next_off
  rw [List.mem_append, not_or] at nextOff
  obtain ⟨nextOffLoose, nextOffRuns⟩ := nextOff
  have apart := (List.nodup_append.1 lined.distinct).2.2
  obtain ⟨headed, makes, headLive, hung, headedSame⟩ :=
    activeChainNew_strung lined.strung nextOffLoose enough
  -- the head enters the index
  have headedTable : SearchTree.Table (nodeHash headed) list.searchRoot
      (Strand.rows env (block :: rest) ++ runs.flatMap (ChainRun.rows env)) := by
    refine lined.table.congr fun row inside => ?_
    rcases List.mem_append.1 inside with ofLoose | ofRuns
    · obtain ⟨b, member, rfl⟩ := List.mem_map.1 ofLoose
      obtain ⟨node, live, hash, -⟩ := hung.live member
      obtain ⟨old, oldLive, oldHash, -⟩ := lined.strung.live member
      rw [nodeHash_eq_ok.2 ⟨node, live, hash⟩, nodeHash_eq_ok.2 ⟨old, oldLive, oldHash⟩]
    · have member := List.mem_map_of_mem (f := Prod.fst) ofRuns
      rw [rows_fst] at member
      refine nodeHash_congr (headedSame _ (fun joining => apart _ joining _ member rfl) ?_)
      intro same
      exact nextOffRuns (same ▸ member)
  obtain ⟨searches, table⟩ := headedTable.tsearch absent
    (nodeHash_eq_ok.2 ⟨_, headLive, rfl⟩ : nodeHash headed list.next = .ok block.2.prevHash)
  -- the longest end stays the end of the path
  obtain ⟨last, lastInside, isLast⟩ := Strand.last_mem block rest none
  have offerable : Offerable headed (block :: rest) 0 (some (some last)) := by
    intro heir same
    cases same
    exact .inl isLast
  obtain ⟨updated, updates, strung, updatedSame⟩ :=
    blockInfoUpdate_strung positive hung offerable enough
  rw [Strand.first_cons] at updates
  let fields : ActiveChain := ⟨some last, true⟩
  let after : ActiveChainList Hash := { list with
    nodes := updated
    activeChains := fun p => if p = list.next then some fields else list.activeChains p
    next := list.next + 1
    chains := list.chains ++ [list.next]
    searchRoot := list.next :: list.searchRoot }
  refine ⟨after, ?_, ?_⟩
  · rw [ruleIII, makes, Exec.ok_bind]
    dsimp only
    rw [if_pos rfl, Exec.deref_some, Exec.ok_bind, listSearchTreeAdd]
    dsimp only [ActiveChainList.setActiveChain]
    rw [searches, Exec.ok_bind]
    dsimp only
    rw [Exec.assert_of rfl, Exec.ok_bind, Exec.ok_bind, listAdd]
    dsimp only
    rw [if_pos rfl, Exec.deref_some, Exec.ok_bind, if_pos rfl, Exec.ok_bind]
    dsimp only
    rw [if_pos rfl, Exec.deref_some, Exec.ok_bind]
    dsimp only
    rw [isLast, updates, Exec.ok_bind]
    dsimp only [Option.map_some]
    refine congrArg (fun activeChains => Exec.ok (({ after with activeChains } :
      ActiveChainList Hash), list.next)) (funext fun p => ?_)
    by_cases isNext : p = list.next
    · rw [if_pos isNext, if_pos isNext]
      exact congrArg (fun longestEnd => some (ActiveChain.mk longestEnd true)) isLast
    · simp only [if_neg isNext]
  · have nextUpdated := (updatedSame _ nextOffLoose).trans headLive
    refine ⟨trivial, List.forall_mem_cons.2 ⟨⟨nextUpdated, strung, ?_⟩, ?_⟩,
      fun _ impossible => absurd impossible List.not_mem_nil, ?_, ?_, ?_, ?_, ?_⟩
    · apply (if_pos rfl).trans
      exact congrArg (fun longestEnd => some (ActiveChain.mk longestEnd true)) isLast.symm
    · refine runsAt_congr lined.isAt (fun p inside => ?_) (fun p inside => if_neg ?_)
      · have outside := fun joining => apart p joining p inside rfl
        refine (updatedSame p outside).trans (headedSame p outside ?_)
        rintro rfl
        exact nextOffRuns inside
      · rintro rfl
        exact nextOffRuns inside
    · exact lined.entries.cons list.next
    · exact table.keys
    · exact (List.perm_append_singleton _ _).trans (lined.chains.cons list.next)
    · exact List.nodup_cons.2 ⟨lined.next_off, lined.distinct⟩
    · intro p inside
      rcases List.mem_cons.1 inside with rfl | old
      · exact Nat.lt_succ_self _
      · exact Nat.lt_succ_of_lt (lined.below p old)

end BitcoinClib.Chains
