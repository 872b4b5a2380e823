import BitcoinClib.Chains.Calls

/-!
Contract: a chain that wins the round above the last heir with an only child.

Owns:
- for every operation of a call, that chains keep their search root;
- for the departure of an only child, that the list loses nothing but the path and that
  its index stays searchable.

All rules speak about operations that returned.
-/

namespace BitcoinClib.Chains

open BitcoinClib.Lib

variable {Hash : Type} [DecidableEq Hash]

/-! ## Search roots -/

section Rooted

variable {fuel : Nat} {env : ChainEnv Hash} {list after : ActiveChainList Hash} {chain : Ptr}

omit [DecidableEq Hash] in
theorem ActiveChainList.Rooted.of_subset (rooted : list.Rooted)
    (subset : ∀ chain fields, after.activeChains chain = some fields →
      list.activeChains chain = some fields) : after.Rooted :=
  fun chain fields stored => rooted chain fields (subset chain fields stored)

omit [DecidableEq Hash] in
/-- The end of a chain is written. -/
theorem ActiveChainList.Rooted.setLongestEnd {fields : ActiveChain} {longestEnd : Option Ptr}
    (rooted : list.Rooted) (stored : list.activeChains chain = some fields) :
    (list.setActiveChain chain { fields with longestEnd }).Rooted := by
  intro other found reads
  rw [ActiveChainList.setActiveChain] at reads
  by_cases here : other = chain
  · simp only [if_pos here] at reads
    cases reads
    exact rooted chain fields stored
  · simp only [if_neg here] at reads
    exact rooted other found reads

theorem listRemove_rooted (rooted : list.Rooted) (returns : listRemove fuel list chain = .ok after) :
    after.Rooted := by
  rw [listRemove] at returns
  by_cases listed : chain ∈ list.chains
  · simp only [if_pos listed, Exec.bind_eq_ok] at returns
    obtain ⟨freed, frees, returns⟩ := returns
    cases returns
    simp only [activeChainFree, Exec.bind_eq_ok] at frees
    obtain ⟨fields, -, head, -, frees⟩ := frees
    refine rooted.of_subset fun other found stored => ?_
    have freedChains : freed.activeChains =
        fun p => if p = chain then none else list.activeChains p := by
      by_cases hasRoot : fields.pSearchRoot = true
      · simp only [if_pos hasRoot, Exec.bind_eq_ok] at frees
        obtain ⟨_, -, _, -, _, -, _, -, frees⟩ := frees
        cases frees
        rfl
      · simp only [if_neg hasRoot, Exec.ok_bind, Exec.bind_eq_ok] at frees
        obtain ⟨_, -, frees⟩ := frees
        cases frees
        rfl
    simp only [freedChains] at stored
    split at stored
    · cases stored
    · exact stored
  · rw [if_neg listed] at returns
    cases returns
    exact rooted

theorem chainSubRules_rooted {head : Ptr} {hash : Hash} {hdr : SatoshiBlockHeader Hash}
    (rooted : list.Rooted) (returns : chainSubRules fuel env list head hash hdr = .ok after) :
    after.Rooted := by
  simp only [chainSubRules, Exec.bind_eq_ok] at returns
  obtain ⟨removed, removes, _, -, claimed, -, ⟨updated, _⟩, -, _, -, rest⟩ := returns
  simp only [listSearchTreeRemove, Exec.bind_eq_ok] at removes
  obtain ⟨_, -, _, -, removes⟩ := removes
  cases removes
  refine listRemove_rooted ?_ rest
  exact rooted

omit [DecidableEq Hash] in
theorem ruleII_rooted {parent orphan : Ptr} (rooted : list.Rooted)
    (returns : ruleII fuel env list parent orphan = .ok (after, chain)) : after.Rooted := by
  simp only [ruleII, Exec.bind_eq_ok] at returns
  obtain ⟨found, -, joined, -, cell, -, ⟨updated, longest⟩, -, fields, reads, _, -, returns⟩ :=
    returns
  have stored := Exec.deref_eq_ok.1 reads
  cases longest with
  | none => cases returns
  | some longest =>
      cases longest with
      | none => cases returns
      | some longestEnd =>
          simp only at returns
          by_cases same : some longestEnd = fields.longestEnd
          · rw [if_pos same] at returns
            cases returns
            exact rooted
          · simp only [if_neg same, Exec.bind_eq_ok] at returns
            obtain ⟨declared, -, returns⟩ := returns
            cases returns
            exact ActiveChainList.Rooted.setLongestEnd
              (rooted.of_subset fun _ _ reads => reads) stored

theorem ruleIII_rooted {orphan : Ptr} (links : list.Links) (rooted : list.Rooted)
    (returns : ruleIII fuel env list orphan = .ok (after, chain)) : after.Rooted := by
  simp only [ruleIII, Exec.bind_eq_ok] at returns
  obtain ⟨created, creates, fields, -, indexed, indexes, added, adds, stored, reads,
    ⟨updated, longest⟩, -, returns⟩ := returns
  obtain ⟨-, -, -, -, newFields, createdChains⟩ := activeChainNew_grown links creates
  have createdRooted :
      (created.setActiveChain list.next { fields with pSearchRoot := true }).Rooted := by
    intro other found otherStored
    simp only [ActiveChainList.setActiveChain, createdChains] at otherStored
    by_cases isNew : other = list.next
    · rw [if_pos isNew] at otherStored
      cases otherStored
      rfl
    · rw [if_neg isNew, if_neg isNew] at otherStored
      exact rooted other found otherStored
  simp only [listSearchTreeAdd, Exec.bind_eq_ok] at indexes
  obtain ⟨_, -, _, -, indexes⟩ := indexes
  cases indexes
  have addedEq := listAdd_of_searchRoot (if_pos rfl) rfl adds
  have addedRooted : added.Rooted := by
    rw [addedEq]
    exact createdRooted
  cases longest with
  | none => cases returns
  | some longestEnd =>
      cases returns
      exact ActiveChainList.Rooted.setLongestEnd
        (addedRooted.of_subset fun _ _ reads => reads) (Exec.deref_eq_ok.1 reads)

theorem placeOrphan_rooted {orphan : Ptr} {hdr : SatoshiBlockHeader Hash} (links : list.Links)
    (rooted : list.Rooted)
    (returns : placeOrphan fuel env list orphan hdr = .ok (after, chain)) : after.Rooted := by
  simp only [placeOrphan, Exec.bind_eq_ok] at returns
  obtain ⟨indexed, indexes, found, -, returns⟩ := returns
  obtain ⟨grown, -, indexedEq⟩ := grown_listSearchTreeAdd links indexes
  have indexedRooted : indexed.Rooted := by
    rw [indexedEq]
    exact rooted
  cases found with
  | some parent => exact ruleII_rooted indexedRooted returns
  | none => exact ruleIII_rooted grown.links indexedRooted returns

theorem letIn_rooted {before : Blockchain Hash} {hdr : SatoshiBlockHeader Hash}
    (links : before.candidatesList.Links) (rooted : before.candidatesList.Rooted)
    (returns : letIn fuel env before hdr = .ok (some (after, chain))) : after.Rooted := by
  obtain ⟨entered, -, ⟨-, rfl⟩ | ⟨head, cell, live, -, headHash, -, claims⟩, places⟩ :=
    letIn_steps returns
  · have enters : Entered (env.hash256 hdr) hdr (fun _ => False) before.candidatesList
        (newOrphan env before.candidatesList (env.hash256 hdr) hdr) :=
      newOrphan_entered links
    refine placeOrphan_rooted enters.links ?_ places
    exact rooted
  · have enters := chainSubRules_entered links live headHash claims
    exact placeOrphan_rooted enters.links (chainSubRules_rooted rooted claims) places

end Rooted

/-! ## An only child -/

variable {fuel : Nat} {list after : ActiveChainList Hash} {chain : Ptr}

/-- After the loop over a path no entry has the hash of one of its nodes. -/
theorem removeFirstChildren_absent {child : Option Ptr} {path : List Ptr}
    (searchable : list.Searchable) (onPath : FirstChildPath list.nodes child path)
    (returns : removeFirstChildren fuel list child = .ok after) :
    ∀ p ∈ after.searchRoot, ∀ member, list.nodes p = some member →
      ¬ OnPath list.nodes path member.val.hash := by
  induction fuel generalizing list child path with
  | zero => cases returns
  | succ fuel inductionHypothesis =>
      cases onPath with
      | nil =>
          rintro p - member - ⟨q, inside, -⟩
          exact absurd inside List.not_mem_nil
      | @cons head first path live others =>
          simp only [removeFirstChildren, Exec.bind_eq_ok] at returns
          obtain ⟨removed, removes, cell, reads, rest⟩ := returns
          have absent := listSearchTreeRemove_absent searchable live removes
          have removedSearchable := listSearchTreeRemove_searchable live removes searchable
          obtain ⟨-, removedEq⟩ := listSearchTreeRemove_pruned live removes
          have sameNodes : removed.nodes = list.nodes := by rw [removedEq]
          have cellLive := Heap.read_eq_ok.1 reads
          rw [sameNodes, live] at cellLive
          cases cellLive
          have restPath := sameNodes ▸ others
          have later := inductionHypothesis removedSearchable restPath rest
          rw [sameNodes] at later
          obtain ⟨pruned, -⟩ := removeFirstChildren_pruned restPath rest
          rintro p entry member memberLive ⟨q, inside, found, foundLive, same⟩
          rcases List.mem_cons.1 inside with rfl | onRest
          · rw [live] at foundLive
            cases foundLive
            exact absent p (pruned.subset p entry) member memberLive same.symm
          · exact later p entry member memberLive ⟨q, onRest, found, foundLive, same⟩

/-- A chain without children leaves a searchable list. -/
theorem listRemove_searchable {head : Member (BlockInfo Hash)} (searchable : list.Searchable)
    (rooted : list.Rooted) (live : list.nodes chain = some head)
    (childless : head.firstChild = none) (returns : listRemove fuel list chain = .ok after) :
    after.Searchable := by
  rw [listRemove] at returns
  by_cases listed : chain ∈ list.chains
  · simp only [if_pos listed, Exec.bind_eq_ok] at returns
    obtain ⟨freed, frees, returns⟩ := returns
    cases returns
    simp only [activeChainFree, Exec.bind_eq_ok] at frees
    obtain ⟨fields, stored, cell, reads, frees⟩ := frees
    have cellLive := Heap.read_eq_ok.1 reads
    rw [live] at cellLive
    cases cellLive
    rw [childless, if_pos (rooted chain fields (Exec.deref_eq_ok.1 stored))] at frees
    simp only [Exec.bind_eq_ok] at frees
    obtain ⟨removed, removes, ⟨found, searchRoot⟩, deletes, _, result, nodes, released, frees⟩ :=
      frees
    cases activeChainRemoveChildren_none removes
    cases freeChildren_none released
    cases result
    cases frees
    have absent := tdelete_hash_absent searchable live deletes
    refine searchable.transfer (SearchTree.tdelete_sublist deletes).1 fun p entry old oldLive => ?_
    have other : p ≠ chain := by
      rintro rfl
      exact absent p entry old oldLive (by
        rw [live] at oldLive
        cases oldLive
        rfl)
    exact ⟨old, (Heap.release_of_ne other).trans oldLive, rfl⟩
  · rw [if_neg listed] at returns
    cases returns
    exact searchable

/-- Without orphans the swap writes the first child of the head and nothing else. -/
theorem leaveChain_alone {left : ActiveChainList Hash} {successor : Ptr}
    (returns : leaveChain fuel list chain successor none = .ok left) :
    SameSiblings list.nodes left.nodes ∧ left = { list with nodes := left.nodes } := by
  simp only [leaveChain, Exec.bind_eq_ok] at returns
  obtain ⟨cell, -, head, readsHead, returns⟩ := returns
  cases returns
  exact ⟨.write (Heap.read_eq_ok.1 readsHead) rfl, rfl⟩

/-- The swap with an only child gives no node a sibling. -/
theorem leaveChain_lone {left : ActiveChainList Hash} {successor : Ptr} {orphans : Option Ptr}
    {cell : Member (BlockInfo Hash)} (live : list.nodes successor = some cell)
    (only : cell.nextSibling = none)
    (returns : leaveChain fuel list chain successor orphans = .ok left) :
    ∀ p member, list.nodes p = some member → member.nextSibling = none →
      ∃ now, left.nodes p = some now ∧ now.nextSibling = none := by
  cases orphans with
  | none =>
      intro p member memberLive sibling
      obtain ⟨now, nowLive, same⟩ := (leaveChain_alone returns).1 p member memberLive
      exact ⟨now, nowLive, same.trans sibling⟩
  | some orphan =>
      simp only [leaveChain, searchTreeTraverseBFS, Exec.bind_eq_ok] at returns
      obtain ⟨searchRoot, -, again, reads, top, readsTop, head, readsHead, returns⟩ := returns
      cases returns
      rw [Heap.read_eq_ok, live] at reads
      cases reads
      have claimed : ∀ p member, list.nodes p = some member → member.nextSibling = none →
          ∃ now, list.nodes.write orphan { top with nextSibling := cell.nextSibling } p =
            some now ∧ now.nextSibling = none := by
        intro p member memberLive sibling
        by_cases isTop : p = orphan
        · exact ⟨{ top with nextSibling := cell.nextSibling }, isTop ▸ Heap.write_same, only⟩
        · exact ⟨member, (Heap.write_of_ne isTop).trans memberLive, sibling⟩
      intro p member memberLive sibling
      obtain ⟨now, nowLive, none⟩ := claimed p member memberLive sibling
      obtain ⟨last, lastLive, same⟩ := SameLink.write (Heap.read_eq_ok.1 readsHead)
        (rfl : ({ head with firstChild := some orphan } : Member (BlockInfo Hash)).nextSibling =
          head.nextSibling) p now nowLive
      exact ⟨last, lastLive, same.trans none⟩

/-- The successor keeps his first child, and so the path below him stays one. -/
theorem leaving_path {left : ActiveChainList Hash} {successor : Ptr} {orphans : Option Ptr}
    {path : List Ptr} {cell node : Member (BlockInfo Hash)} (links : list.Links)
    (live : list.nodes successor = some cell)
    (onPath : FirstChildPath list.nodes cell.firstChild path) (chainOff : chain ∉ successor :: path)
    (leaves : leaveChain fuel list chain successor orphans = .ok left)
    (nodeLive : left.nodes successor = some node) :
    FirstChildPath left.nodes node.firstChild path := by
  obtain ⟨-, leftChildren⟩ := leaveChain_grown links leaves
  obtain ⟨again, againLive, sameChild⟩ := leftChildren successor cell
    (fun same => chainOff (same ▸ List.mem_cons_self)) live
  rw [nodeLive] at againLive
  cases againLive
  rw [sameChild]
  exact onPath.congr fun p inside member memberLive => leftChildren p member
    (fun same => chainOff (same ▸ List.mem_cons_of_mem _ inside)) memberLive

/-- An only child is released with the path below him, and nothing else. -/
theorem departing_alone {left split : ActiveChainList Hash} {successor : Ptr}
    {orphans : Option Ptr} {path : List Ptr} {cell node : Member (BlockInfo Hash)}
    {nodes : Heap (BlockInfo Hash)} (links : list.Links)
    (live : list.nodes successor = some cell)
    (onPath : FirstChildPath list.nodes cell.firstChild path) (chainOff : chain ∉ successor :: path)
    (only : cell.nextSibling = none)
    (leaves : leaveChain fuel list chain successor orphans = .ok left)
    (nodeLive : left.nodes successor = some node)
    (splits : abandonSiblings fuel left node.firstChild = .ok split)
    (frees : blockInfoFree fuel split.nodes (some successor) = .ok nodes) :
    ∀ p, p ∉ successor :: path → nodes p = split.nodes p := by
  obtain ⟨leftGrown, leftChildren⟩ := leaveChain_grown links leaves
  have whole : FirstChildPath list.nodes (some successor) (successor :: path) := .cons live onPath
  have leftPath := leaving_path links live onPath chainOff leaves nodeLive
  obtain ⟨splitAlone, -, -⟩ := abandonSiblings_alone leftGrown.links leftPath splits
  have splitPath := departing_path links whole chainOff leaves splits
  -- no node of the path has a sibling when the path is released
  refine blockInfoFree_alone splitPath (fun p inside member memberLive => ?_) frees
  have isAlone : ∃ between, left.nodes p = some between ∧
      (p ∈ path ∨ between.nextSibling = none) := by
    rcases List.mem_cons.1 inside with rfl | later
    · obtain ⟨between, betweenLive, sibling⟩ := leaveChain_lone live only leaves p cell live only
      exact ⟨between, betweenLive, .inr sibling⟩
    · obtain ⟨old, oldLive⟩ := onPath.live later
      obtain ⟨between, betweenLive, -⟩ := leftChildren p old
        (fun same => chainOff (same ▸ inside)) oldLive
      exact ⟨between, betweenLive, .inl later⟩
  obtain ⟨between, betweenLive, either⟩ := isAlone
  obtain ⟨now, nowLive, none⟩ := splitAlone p between betweenLive either
  rw [memberLive] at nowLive
  cases nowLive
  exact none

/-- The departure of an only child loses nothing but the path and perhaps the head of the
chain. -/
theorem Departure.kept {whole : List Ptr} {head : Member (BlockInfo Hash)} {orphans : Option Ptr}
    (departure : Departure fuel list after chain head orphans whole) (links : list.Links)
    (alone : ∀ successor cell, head.firstChild = some successor →
      list.nodes successor = some cell → cell.nextSibling = none) :
    ∀ p old, p ∉ whole → p ≠ chain → list.nodes p = some old →
      ∃ now, after.nodes p = some now ∧ SameBlock old now := by
  obtain @⟨removed, left, split, successor, path, cell, node, now, found, searchRoot, nodes,
    headLive, isFirst, live, onPath, removes, leaves, nodeLive, splits, deletes, frees, nowLive,
    settles⟩ := departure
  obtain ⟨pruned, removedEq⟩ := removeFirstChildren_pruned onPath removes
  have sameNodes : removed.nodes = list.nodes := by rw [removedEq]
  have removedLinks : removed.Links := by
    rw [removedEq]
    exact ⟨links.nodes, fun p entry => links.entries p (pruned.subset p entry)⟩
  have leftGrown := (leaveChain_grown removedLinks leaves).1
  have grown := leftGrown.trans (abandonSiblings_grown leftGrown.links splits).1
  have whole : FirstChildPath list.nodes (some successor) (successor :: path) := .cons live onPath
  have released := departing_alone removedLinks (sameNodes ▸ live) (sameNodes ▸ onPath)
    (whole.not_mem_of_above headLive isFirst) (alone successor cell isFirst live) leaves nodeLive
    splits frees
  intro p old off notChain oldLive
  obtain ⟨member, memberLive, same⟩ := grown.live removedLinks (sameNodes ▸ oldLive)
  have freed : nodes p = some member := (released p off).trans memberLive
  rcases settles with ⟨childless, removal⟩ | ⟨-, rfl⟩
  · obtain ⟨others, -⟩ := listRemove_childless nowLive childless removal
    exact ⟨member, (others p notChain).trans freed, same⟩
  · exact ⟨member, freed, same⟩

/-- The list lost nothing but the path and perhaps the head of the chain, and its index stays
searchable. -/
structure Settled (chain : Ptr) (path : List Ptr) (before after : ActiveChainList Hash) : Prop where
  live : ∀ p old, p ∉ path → p ≠ chain → before.nodes p = some old →
    ∃ now, after.nodes p = some now ∧ SameBlock old now
  searchable : after.Searchable
  rooted : after.Rooted

/-- The departure of an only child, when no heir was abandoned. -/
theorem Departure.settled {whole : List Ptr} {head : Member (BlockInfo Hash)}
    (departure : Departure fuel list after chain head none whole) (links : list.Links)
    (searchable : list.Searchable) (rooted : list.Rooted)
    (alone : ∀ successor cell, head.firstChild = some successor →
      list.nodes successor = some cell → cell.nextSibling = none) :
    Settled chain whole list after := by
  have kept := departure.kept links alone
  obtain @⟨removed, left, split, successor, path, cell, node, now, found, searchRoot, nodes,
    headLive, isFirst, live, onPath, removes, leaves, nodeLive, splits, deletes, frees, nowLive,
    settles⟩ := departure
  obtain ⟨pruned, removedEq⟩ := removeFirstChildren_pruned onPath removes
  have absent := removeFirstChildren_absent searchable onPath removes
  have sameNodes : removed.nodes = list.nodes := by rw [removedEq]
  have removedLinks : removed.Links := by
    rw [removedEq]
    exact ⟨links.nodes, fun p entry => links.entries p (pruned.subset p entry)⟩
  have removedSearchable : removed.Searchable := by
    rw [removedEq]
    exact searchable.transfer pruned.sublist fun p _ old oldLive => ⟨old, oldLive, rfl⟩
  obtain ⟨leftGrown, -⟩ := leaveChain_grown removedLinks leaves
  obtain ⟨-, leftEq⟩ := leaveChain_alone leaves
  have whole : FirstChildPath list.nodes (some successor) (successor :: path) := .cons live onPath
  have chainOff := whole.not_mem_of_above headLive isFirst
  have leftPath := leaving_path removedLinks (sameNodes ▸ live) (sameNodes ▸ onPath) chainOff
    leaves nodeLive
  obtain ⟨-, splitEntries, splitRooted⟩ := abandonSiblings_alone leftGrown.links leftPath splits
  have splitGrown := (abandonSiblings_grown leftGrown.links splits).1
  have grown := leftGrown.trans splitGrown
  have released := departing_alone removedLinks (sameNodes ▸ live) (sameNodes ▸ onPath) chainOff
    (alone successor cell isFirst live) leaves nodeLive splits frees
  -- no entry of the index points to the path
  have entriesOff : ∀ p ∈ searchRoot, p ∉ successor :: path := by
    intro p entry inside
    obtain ⟨old, oldLive⟩ := whole.live inside
    obtain ⟨member, memberLive, same⟩ := grown.live removedLinks (sameNodes ▸ oldLive)
    have inUse : p < left.next := by
      rw [leftEq, removedEq]
      exact (links.nodes p old oldLive).self
    have entered : p ∈ removed.searchRoot := by
      have inSplit := (SearchTree.tdelete_sublist deletes).1.subset entry
      have inLeft := (splitEntries p inSplit).resolve_right (Nat.not_le.2 inUse)
      rw [leftEq] at inLeft
      exact inLeft
    rcases List.mem_cons.1 inside with rfl | later
    · exact tdelete_hash_absent (grown.searchable removedSearchable) memberLive deletes p entry
        member memberLive rfl
    · exact absent p entered old oldLive ⟨p, later, old, oldLive, rfl⟩
  have freed : ({ split with nodes, searchRoot } : ActiveChainList Hash).Searchable := by
    refine (grown.searchable removedSearchable).transfer
      (SearchTree.tdelete_sublist deletes).1 fun p entry old oldLive => ⟨old, ?_, rfl⟩
    exact (released p (entriesOff p entry)).trans oldLive
  have freedRooted : ({ split with nodes, searchRoot } : ActiveChainList Hash).Rooted := by
    apply splitRooted
    rw [leftEq, removedEq]
    exact rooted
  rcases settles with ⟨childless, removal⟩ | ⟨-, rfl⟩
  · exact ⟨kept, listRemove_searchable freed freedRooted nowLive childless removal,
      listRemove_rooted freedRooted removal⟩
  · exact ⟨kept, freed, freedRooted⟩

end BitcoinClib.Chains
