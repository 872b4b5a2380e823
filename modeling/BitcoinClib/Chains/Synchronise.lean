import BitcoinClib.Chains.Runs
import BitcoinClib.Chains.Calls

/-!
Contract: fork-free synchronisation in any order.

Owns:
- a call of `blockchain_add` on a list of runs: which runs a header joins or claims, and the run
  that becomes heirs;
- the heirs and the runs after any of the calls that pass the headers of one chain.

Does not own: chains with forks.
-/

namespace BitcoinClib.Chains

open BitcoinClib.Lib

variable {Hash : Type} [DecidableEq Hash] {env : ChainEnv Hash} {list : ActiveChainList Hash}
  {run : ChainRun Hash} {runs others : List (ChainRun Hash)} {chain : Blockchain Hash} {fuel : Nat}

/-! ## Rules I to III -/

/-- A header enters the list with the path that waited for it. -/
def entering (fuel : Nat) (env : ChainEnv Hash) (entered : ActiveChainList Hash) (orphan : Ptr)
    (hdr : SatoshiBlockHeader Hash) : Exec (Option (ActiveChainList Hash × Ptr)) := do
  let placed ← placeOrphan fuel env entered orphan hdr
  .ok (some placed)

/-- The header is the missing parent of a run. -/
theorem letIn_claims {hdr : SatoshiBlockHeader Hash}
    (lined : Lined env chain.candidatesList [] [] (run :: others))
    (noHeir : blockchainFind chain (env.hash256 hdr) = .ok none)
    (isParent : run.missing = env.hash256 hdr)
    (positive : ∀ block ∈ (chain.candidatesList.next, hdr) :: run.blocks,
      0 < env.compactUint256ToBdiff block.2.bits)
    (enough : run.blocks.length + 1 < fuel) :
    ∃ entered, letIn fuel env chain hdr =
        entering fuel env entered chain.candidatesList.next hdr ∧
      Lined env entered run.blocks ((chain.candidatesList.next, hdr) :: run.blocks) others := by
  obtain ⟨entered, claims, enteredLined⟩ := chainSubRules_lined lined positive enough
  refine ⟨entered, ?_, enteredLined⟩
  have found : activeChainListFind chain.candidatesList (env.hash256 hdr) =
      .ok (some run.head) := by
    rw [← isParent]
    have row : (run.head, run.missing) ∈ Strand.rows env [] ++
        (run :: others).flatMap (ChainRun.rows env) := List.mem_cons_self
    exact lined.find row
  have isAt := lined.isAt run List.mem_cons_self
  simp only [letIn, noHeir, Exec.ok_bind, found, Heap.read_eq isAt.head, Option.isSome_none,
    Bool.false_eq_true, if_false, claims, entering]

/-- No run waits for the header. -/
theorem letIn_alone (fuel : Nat) {hdr : SatoshiBlockHeader Hash}
    (lined : Lined env chain.candidatesList [] [] runs)
    (noHeir : blockchainFind chain (env.hash256 hdr) = .ok none)
    (absent : env.hash256 hdr ∉ (runs.flatMap (ChainRun.rows env)).map Prod.snd) :
    ∃ entered, letIn fuel env chain hdr =
        entering fuel env entered chain.candidatesList.next hdr ∧
      Lined env entered [] [(chain.candidatesList.next, hdr)] runs := by
  refine ⟨_, ?_, newOrphan_lined lined hdr⟩
  simp only [letIn, noHeir, Exec.ok_bind, lined.find_none absent, entering]

/-- The header names the last block of a run. -/
theorem entering_joins {orphan last : Ptr × SatoshiBlockHeader Hash} {rest front : Strand Hash}
    (lined : Lined env list rest (orphan :: rest) (run :: others))
    (absent : env.hash256 orphan.2 ∉
      (rest.rows env ++ (run :: others).flatMap (ChainRun.rows env)).map Prod.snd)
    (isLast : run.blocks = front ++ [last]) (linked : orphan.2.prevHash = env.hash256 last.2)
    (positive : ∀ b ∈ orphan :: rest, 0 < env.compactUint256ToBdiff b.2.bits)
    (enough : (run.blocks ++ orphan :: rest).length < fuel) :
    ∃ placed, entering fuel env list orphan.1 orphan.2 = .ok (some (placed, run.head)) ∧
      Lined env placed [] [] (⟨run.head, run.top, run.below ++ orphan :: rest⟩ :: others) := by
  obtain ⟨searchRoot, adds, added⟩ := listSearchTreeAdd_lined lined absent
  have ends : Strand.last none run.blocks = some last.1 := by
    rw [isLast, Strand.last_append]
    rfl
  obtain ⟨placed, joins, placedLined⟩ := ruleII_lined added ends positive enough
  refine ⟨placed, ?_, placedLined⟩
  have lastRow : (last.1, env.hash256 last.2) ∈ Strand.rows env (orphan :: rest) ++
      (run :: others).flatMap (ChainRun.rows env) := by
    have onRun : last ∈ run.blocks := by
      rw [isLast]
      exact List.mem_append_right _ List.mem_cons_self
    refine List.mem_append_right _ (List.mem_flatMap.2 ⟨run, List.mem_cons_self, ?_⟩)
    exact List.mem_cons_of_mem _ (List.mem_map_of_mem (f := fun b => (b.1, env.hash256 b.2)) onRun)
  have found := added.find lastRow
  rw [entering, placeOrphan, adds, Exec.ok_bind, linked, found, Exec.ok_bind]
  dsimp only
  rw [joins, Exec.ok_bind]

/-- No block has the hash the header names. -/
theorem entering_alone {orphan : Ptr × SatoshiBlockHeader Hash} {rest : Strand Hash}
    (lined : Lined env list rest (orphan :: rest) runs)
    (absent : env.hash256 orphan.2 ∉
      (rest.rows env ++ runs.flatMap (ChainRun.rows env)).map Prod.snd)
    (unlinked : orphan.2.prevHash ∉
      (Strand.rows env (orphan :: rest) ++ runs.flatMap (ChainRun.rows env)).map Prod.snd)
    (positive : ∀ b ∈ orphan :: rest, 0 < env.compactUint256ToBdiff b.2.bits)
    (enough : (orphan :: rest).length < fuel) :
    ∃ placed, entering fuel env list orphan.1 orphan.2 = .ok (some (placed, list.next)) ∧
      Lined env placed [] [] (⟨list.next, orphan, rest⟩ :: runs) := by
  obtain ⟨searchRoot, adds, added⟩ := listSearchTreeAdd_lined lined absent
  obtain ⟨placed, makes, placedLined⟩ := ruleIII_lined added unlinked positive enough
  refine ⟨placed, ?_, placedLined⟩
  rw [entering, placeOrphan, adds, Exec.ok_bind, added.find_none unlinked, Exec.ok_bind]
  dsimp only
  rw [makes, Exec.ok_bind]

/-! ## Rule IV -/

/-- The blocks of a path leave the index one after the other. -/
theorem removeFirstChildren_strung {parent : Option Ptr} {strand : Strand Hash}
    {table : List (Ptr × Hash)} (strung : Strung env list.nodes parent strand none)
    (holds : SearchTree.Table (nodeHash list.nodes) list.searchRoot (strand.rows env ++ table))
    (enough : strand.length < fuel) :
    ∃ searchRoot, removeFirstChildren fuel list (Strand.first strand none) =
        .ok { list with searchRoot } ∧
      SearchTree.Table (nodeHash list.nodes) searchRoot table := by
  induction strand generalizing parent list fuel with
  | nil =>
      obtain ⟨fuel, rfl⟩ := Nat.exists_eq_succ_of_ne_zero (Nat.ne_of_gt enough)
      exact ⟨list.searchRoot, rfl, holds⟩
  | cons block rest inductionHypothesis =>
      obtain ⟨⟨cumulativeDifficulty, live⟩, below⟩ := strung
      obtain ⟨deletes, left⟩ := holds.tdelete (List.Perm.refl _)
      cases fuel with
      | zero => cases enough
      | succ fuel =>
          let shrunk : ActiveChainList Hash :=
            { list with searchRoot := list.searchRoot.erase block.1 }
          have shrunkBelow : Strung env shrunk.nodes (some block.1) rest none := below
          obtain ⟨searchRoot, removes, final⟩ :=
            inductionHypothesis shrunkBelow left (Nat.lt_of_succ_lt_succ enough)
          refine ⟨searchRoot, ?_, final⟩
          rw [Strand.first_cons, removeFirstChildren, listSearchTreeRemove_returns deletes,
            Exec.ok_bind]
          dsimp only
          rw [Heap.read_eq live, Exec.ok_bind]
          exact removes

/-- The steps with which a run leaves the list. -/
theorem leaving_lined (lined : Lined env list [] [] (run :: others))
    (enough : run.blocks.length < fuel) :
    ∃ removed left searchRoot nodes after top emptied,
      removeFirstChildren fuel list (Strand.first run.below none) = .ok removed ∧
      leaveChain fuel removed run.head run.top.1 none = .ok left ∧
      left.nodes run.top.1 = some top ∧ top.firstChild = Strand.first run.below none ∧
      abandonSiblings fuel left (Strand.first run.below none) = .ok left ∧
      SearchTree.tdelete (nodeHash left.nodes) left.searchRoot run.top.1 =
        .ok (true, searchRoot) ∧
      blockInfoFree fuel left.nodes (some run.top.1) = .ok nodes ∧
      nodes run.head = some emptied ∧ emptied.firstChild = none ∧
      listRemove fuel { left with nodes, searchRoot } run.head = .ok after ∧
      Lined env after [] [] others := by
  have isAt := lined.isAt run List.mem_cons_self
  obtain ⟨topDifficulty, topLive⟩ := isAt.blocks.1
  have belowStrung := isAt.blocks.2
  have shorter : run.below.length < fuel := Nat.lt_of_succ_lt enough
  -- addresses
  have distinct : (run.head :: (run.blocks.pointers ++ others.flatMap ChainRun.pointers)).Nodup :=
    lined.distinct
  obtain ⟨headOff, distinctRest⟩ := List.nodup_cons.1 distinct
  have headOffBlocks : run.head ∉ run.blocks.pointers :=
    fun inside => headOff (List.mem_append_left _ inside)
  have apart := (List.nodup_append.1 distinctRest).2.2
  have othersOff : ∀ p ∈ others.flatMap ChainRun.pointers, p ≠ run.head :=
    fun p inside same => headOff (List.mem_append_right _ (same ▸ inside))
  -- the blocks below the first one leave the index
  have table : SearchTree.Table (nodeHash list.nodes) list.searchRoot
      (Strand.rows env run.below ++ ((run.head, run.missing) ::
        (run.top.1, env.hash256 run.top.2) :: others.flatMap (ChainRun.rows env))) := by
    refine lined.table.perm ?_
    exact (List.perm_middle.trans (List.perm_middle.cons _)).symm
  obtain ⟨removedRoot, removes, removedTable⟩ := removeFirstChildren_strung belowStrung table
    shorter
  -- the head has no child any more
  let emptied : Member (BlockInfo Hash) := ⟨⟨run.missing, none, 0⟩, none, none, none⟩
  let left : ActiveChainList Hash := { list with
    nodes := list.nodes.write run.head emptied
    searchRoot := removedRoot }
  have leaves : leaveChain fuel { list with searchRoot := removedRoot } run.head run.top.1 none =
      .ok left := by
    rw [leaveChain]
    dsimp only
    rw [Heap.read_eq topLive, Exec.ok_bind, Heap.read_eq isAt.head, Exec.ok_bind]
  have leftStrung : Strung env left.nodes (some run.head) run.blocks none :=
    isAt.blocks.write headOffBlocks
  have topNotHead : run.top.1 ≠ run.head := by
    intro same
    rw [← same] at headOffBlocks
    exact headOffBlocks List.mem_cons_self
  have leftTop : left.nodes run.top.1 = some ⟨⟨env.hash256 run.top.2, some run.top.2,
      topDifficulty⟩, some run.head, Strand.first run.below none, none⟩ :=
    (Heap.write_of_ne topNotHead).trans topLive
  have splits : abandonSiblings fuel left (Strand.first run.below none) = .ok left :=
    abandonSiblings_strung leftStrung.2 shorter
  -- the first block leaves the index and all are released
  have leftTable : SearchTree.Table (nodeHash left.nodes) left.searchRoot
      ((run.top.1, env.hash256 run.top.2) :: (run.head, run.missing) ::
        others.flatMap (ChainRun.rows env)) := by
    refine (removedTable.perm (List.Perm.swap _ _ _)).congr fun row inside => ?_
    rcases List.mem_cons.1 inside with rfl | inside
    · exact nodeHash_congr (Heap.write_of_ne topNotHead)
    · rcases List.mem_cons.1 inside with rfl | ofOthers
      · rw [nodeHash_eq_ok.2 ⟨_, isAt.head, rfl⟩]
        exact nodeHash_eq_ok.2 ⟨emptied, Heap.write_same, rfl⟩
      · have member := List.mem_map_of_mem (f := Prod.fst) ofOthers
        rw [rows_fst] at member
        exact nodeHash_congr (Heap.write_of_ne (othersOff _ member))
  obtain ⟨deletes, deletedTable⟩ := leftTable.tdelete (List.Perm.refl _)
  obtain ⟨nodes, frees, freedSame⟩ := blockInfoFree_strung leftStrung enough
  have emptiedLive : nodes run.head = some emptied :=
    (freedSame _ headOffBlocks).trans Heap.write_same
  -- the head leaves the index and the list
  have freedTable : SearchTree.Table (nodeHash nodes) (left.searchRoot.erase run.top.1)
      ((run.head, run.missing) :: others.flatMap (ChainRun.rows env)) := by
    refine deletedTable.congr fun row inside => nodeHash_congr (freedSame _ ?_)
    rcases List.mem_cons.1 inside with rfl | ofOthers
    · exact headOffBlocks
    · have member := List.mem_map_of_mem (f := Prod.fst) ofOthers
      rw [rows_fst] at member
      exact fun joining => apart _ joining _ member rfl
  obtain ⟨headDeletes, finalTable⟩ := freedTable.tdelete (List.Perm.refl _)
  have listed := lined.chains.mem_iff.2 List.mem_cons_self
  have drops : listRemove fuel
      { left with nodes, searchRoot := left.searchRoot.erase run.top.1 } run.head = _ :=
    listRemove_returns listed isAt.chain rfl emptiedLive rfl headDeletes (Nat.zero_lt_of_lt enough)
  refine ⟨_, left, _, nodes, _, _, emptied, removes, leaves, leftTop, rfl, splits, deletes, frees,
    emptiedLive, rfl, drops, ?_⟩
  refine ⟨trivial, ?_, fun _ impossible => absurd impossible List.not_mem_nil, ?_, finalTable.keys,
    ?_, (List.nodup_append.1 distinctRest).2.1, fun p inside => ?_⟩
  · refine runsAt_congr (fun other inside => lined.isAt other (List.mem_cons_of_mem _ inside))
      (fun p inside => ?_) (fun p inside => if_neg (othersOff p inside))
    have notHead := othersOff p inside
    have outside := fun joining => apart p joining p inside rfl
    exact ((Heap.release_of_ne notHead).trans (freedSame p outside)).trans
      (Heap.write_of_ne notHead)
  · have entries := finalTable.entries
    rw [rows_fst] at entries
    exact entries
  · exact ((dropChain_perm listed).symm.trans lined.chains).cons_inv
  · exact lined.below p (List.mem_cons_of_mem _ (List.mem_append_right _ inside))

omit [DecidableEq Hash] in
/-- The difficulties of a run may change. -/
theorem Lined.renode {nodes : Heap (BlockInfo Hash)}
    (lined : Lined env list [] [] (run :: others))
    (strung : Strung env nodes (some run.head) run.blocks none)
    (unchanged : ∀ p, p ∉ run.blocks.pointers → nodes p = list.nodes p) :
    Lined env { list with nodes } [] [] (run :: others) := by
  have isAt := lined.isAt run List.mem_cons_self
  have distinct : (run.head :: (run.blocks.pointers ++ others.flatMap ChainRun.pointers)).Nodup :=
    lined.distinct
  obtain ⟨headOff, distinctRest⟩ := List.nodup_cons.1 distinct
  have headLive := (unchanged _ fun inside => headOff (List.mem_append_left _ inside)).trans
    isAt.head
  refine ⟨trivial, List.forall_mem_cons.2 ⟨⟨headLive, strung, isAt.chain⟩, ?_⟩, lined.isLoose,
    lined.entries, lined.keys, lined.chains, lined.distinct, lined.below⟩
  refine runsAt_congr (fun other inside => lined.isAt other (List.mem_cons_of_mem _ inside))
    (fun p inside => unchanged p fun joining => ?_) (fun _ _ => rfl)
  exact (List.nodup_append.1 distinctRest).2.2 p joining p inside rfl

/-- A run above the last heir becomes heirs. -/
theorem ruleIV_promotes {tip : BlockchainHeir Hash}
    (lined : Lined env chain.candidatesList [] [] (run :: others)) (indexed : HeirsIndexed chain)
    (length : chain.heirs.length = chain.height + 1)
    (tipStored : chain.heirs[chain.height]? = some tip) (isTip : tip.hash = run.missing)
    (capacity : chain.maxSize = blockchainDefaultAllocSize)
    (room : chain.height + run.blocks.length < blockchainDefaultAllocSize)
    (linked : Follows env tip.hash run.headers)
    (fresh : (chain.heirs.map BlockchainHeir.hash ++
      run.blocks.map fun block => env.hash256 block.2).Nodup)
    (positive : ∀ block ∈ run.blocks, 0 < env.compactUint256ToBdiff block.2.bits)
    (enough : run.blocks.length < fuel) :
    ∃ after, ruleIV fuel env chain run.head = .ok after ∧
      Lined env after.candidatesList [] [] others ∧ HeirsIndexed after ∧
      after.heirs = chain.heirs ++ heirsOf env tip.cumulativeDifficulty run.headers ∧
      after.height = chain.height + run.blocks.length ∧ after.maxSize = chain.maxSize := by
  have isAt := lined.isAt run List.mem_cons_self
  obtain ⟨nodes, updates, strung, unchanged, raised⟩ :=
    updateFirstChild_strung tip.cumulativeDifficulty positive isAt.blocks enough
  obtain ⟨last, lastInside, isLast⟩ := Strand.last_mem run.top run.below none
  obtain ⟨lastCell, lastLive, wins⟩ := raised last isLast
  let raisedChain : Blockchain Hash := { chain with
    candidatesList := { chain.candidatesList with nodes } }
  have raisedLined : Lined env raisedChain.candidatesList [] [] (run :: others) :=
    lined.renode strung unchanged
  have raisedAt := raisedLined.isAt run List.mem_cons_self
  have raisedIndexed : HeirsIndexed raisedChain := ⟨indexed.index, indexed.distinct⟩
  obtain ⟨inherited, inherits, heirRoot, callbacks, inheritedEq, inheritedIndexed⟩ :=
    blockchainAddInheritances_strung raisedIndexed length tipStored capacity room raisedAt.blocks
      linked fresh enough
  obtain ⟨removed, left, searchRoot, freed, after, top, emptied, removes, leaves, topLive, topChild,
    splits, deletes, frees, emptiedLive, childless, drops, afterLined⟩ :=
    leaving_lined raisedLined enough
  obtain ⟨topDifficulty, topRaised⟩ := raisedAt.blocks.1
  have tipReads : chain.heirAt ⟨chain.arena, chain.height⟩ = .ok tip :=
    heirAt_eq_ok.2 ⟨rfl, tipStored⟩
  have found : blockchainFind chain run.missing = .ok (some ⟨chain.arena, chain.height⟩) :=
    indexed.find_eq_some.2 ⟨tip, rfl, tipStored, isTip⟩
  have round : winRound fuel env raisedChain run.head ⟨chain.arena, chain.height⟩ =
      .ok { inherited with candidatesList := after } := by
    have stays : blockchainAbandonInheritances env raisedChain ⟨chain.arena, chain.height⟩ =
        .ok (raisedChain, none) := by
      rw [blockchainAbandonInheritances, Exec.assert_of (Nat.le_refl _), Exec.ok_bind, if_pos rfl]
    have sameList : inherited.candidatesList = raisedChain.candidatesList := by rw [inheritedEq]
    rw [winRound, stays, Exec.ok_bind]
    dsimp only
    rw [Heap.read_eq raisedAt.head, Exec.ok_bind]
    dsimp only
    rw [inherits, Exec.ok_bind]
    dsimp only
    rw [Exec.deref_some, Exec.ok_bind, sameList, Heap.read_eq topRaised, Exec.ok_bind]
    dsimp only
    rw [removes, Exec.ok_bind, leaves, Exec.ok_bind, Heap.read_eq topLive, Exec.ok_bind, topChild,
      splits, Exec.ok_bind, deletes, Exec.ok_bind]
    dsimp only
    rw [frees, Exec.ok_bind, Heap.read_eq emptiedLive, Exec.ok_bind, childless,
      if_pos Option.isNone_none, drops, Exec.ok_bind]
  refine ⟨{ inherited with candidatesList := after }, ?_, afterLined,
    ⟨inheritedIndexed.index, inheritedIndexed.distinct⟩, ?_, ?_, ?_⟩
  · rw [ruleIV]
    dsimp only
    rw [Heap.read_eq isAt.head, Exec.ok_bind]
    dsimp only
    rw [found, Exec.ok_bind]
    dsimp only
    rw [ChainRun.blocks, Strand.first_cons] at updates
    have endsAt : Strand.last none run.blocks = some last := isLast
    rw [tipReads, Exec.ok_bind, updates, Exec.ok_bind, Exec.ok_bind, isAt.chain,
      Exec.deref_some, Exec.ok_bind]
    dsimp only
    rw [endsAt, Exec.deref_some, Exec.ok_bind, Heap.read_eq lastLive, Exec.ok_bind, if_pos wins]
    exact round
  · rw [inheritedEq]
    rfl
  · rw [inheritedEq]
    rfl
  · rw [inheritedEq]

/-- A run behind a missing block changes nothing. -/
theorem ruleIV_waits (lined : Lined env chain.candidatesList [] [] (run :: others))
    (noHeir : blockchainFind chain run.missing = .ok none) :
    ruleIV fuel env chain run.head = .ok chain := by
  have isAt := lined.isAt run List.mem_cons_self
  rw [ruleIV]
  dsimp only
  rw [Heap.read_eq isAt.head, Exec.ok_bind]
  dsimp only
  rw [noHeir, Exec.ok_bind]

end BitcoinClib.Chains
