import BitcoinClib.Chains.Heirs

/-!
Contract: what a chain that wins the round does to the heirs and to the list of chains.

Owns:
- `Departed`, a list of chains that lost the nodes of a path;
- `Reorganised`, a block chain whose heirs above a slot were replaced by the first children
  of a chain, with the callbacks for it;
- that `winRound` reorganises the block chain.

All rules speak about operations that returned.
-/

namespace BitcoinClib.Chains

open BitcoinClib.Lib

variable {Hash : Type} [DecidableEq Hash]

/-! ## The swap of the successor -/

/-- A breadth-first traversal adds nodes to the index. -/
theorem traverseLoop_grown {fuel : Nat} {list : ActiveChainList Hash} {queue : ClibQueue Ptr}
    {searchRoot : List Ptr} (links : list.Links)
    (returns : traverseLoop .add list.nodes fuel queue list.searchRoot = .ok searchRoot) :
    Grown list { list with searchRoot } := by
  induction fuel generalizing list queue with
  | zero => cases returns
  | succ fuel inductionHypothesis =>
      rw [traverseLoop, Exec.bind_eq_ok] at returns
      obtain ⟨⟨node, queue⟩, -, returns⟩ := returns
      cases node with
      | none =>
          simp only [Exec.bind_eq_ok] at returns
          obtain ⟨_, -, returns⟩ := returns
          cases returns
          exact .refl links
      | some node =>
          simp only [traverseAction, Exec.bind_eq_ok] at returns
          obtain ⟨_, ⟨⟨entry, entered⟩, searches, result⟩, cell, -, entering, -, _, -, rest⟩ :=
            returns
          cases result
          have grown := (grown_tsearch links searches).1
          exact grown.trans (inductionHypothesis grown.links rest)

/-- The chain gets another first child: the list grows, and the other nodes keep theirs. -/
theorem leaveChain_grown {fuel : Nat} {list after : ActiveChainList Hash} {chain successor : Ptr}
    {orphans : Option Ptr} (links : list.Links)
    (returns : leaveChain fuel list chain successor orphans = .ok after) :
    Grown list after ∧ ∀ p member, p ≠ chain → list.nodes p = some member →
      ∃ now, after.nodes p = some now ∧ now.firstChild = member.firstChild := by
  cases orphans with
  | none =>
      simp only [leaveChain, Exec.bind_eq_ok] at returns
      obtain ⟨cell, reads, head, readsHead, returns⟩ := returns
      cases returns
      have relinked := relinked_setFirstChild (Heap.read_eq_ok.1 readsHead)
        fun next below q points => (below successor cell (Heap.read_eq_ok.1 reads)).sibling q points
      refine ⟨.of_relinked links relinked rfl rfl, fun p member other live => ?_⟩
      exact ⟨member, (Heap.write_of_ne other).trans live, rfl⟩
  | some orphan =>
      simp only [leaveChain, searchTreeTraverseBFS, Exec.bind_eq_ok] at returns
      obtain ⟨searchRoot, ⟨_, -, _, -, traverses⟩, cell, reads, top, readsTop, head, readsHead,
        returns⟩ := returns
      cases returns
      have topLive := Heap.read_eq_ok.1 readsTop
      have claimed : Relinked list.nodes
          (list.nodes.write orphan { top with nextSibling := cell.nextSibling }) :=
        relinked_setNextSibling topLive fun next below q points =>
          (below successor cell (Heap.read_eq_ok.1 reads)).sibling q points
      have first : Relinked _ (Heap.write _ chain { head with firstChild := some orphan }) :=
        relinked_setFirstChild (Heap.read_eq_ok.1 readsHead) fun next below q points => by
          cases points
          exact (below orphan _ Heap.write_same).self
      have grown := traverseLoop_grown links traverses
      refine ⟨grown.trans (.of_relinked grown.links (claimed.trans first) rfl rfl),
        fun p member other live => ?_⟩
      obtain ⟨now, nowLive, same⟩ := SameLink.write topLive
        (rfl : ({ top with nextSibling := cell.nextSibling } :
          Member (BlockInfo Hash)).firstChild = top.firstChild) p member live
      exact ⟨now, (Heap.write_of_ne other).trans nowLive, same⟩

/-! ## The departure of a path -/

/-- The nodes of a path left a list. What is left of the blocks was there before, and the
index lost at most entries with the hash of a node on the path or of the head. -/
structure Departed (path : List Ptr) (head : Hash) (before after : ActiveChainList Hash) :
    Prop where
  next : before.next ≤ after.next
  links : after.Links
  origin : ∀ p member, after.nodes p = some member → member.val.hdr.isSome →
    p ∉ path ∧ ∃ old, before.nodes p = some old ∧ SameBlock old member
  kept : ∀ p ∈ before.searchRoot, (∀ member, before.nodes p = some member →
    ¬ OnPath before.nodes path member.val.hash ∧ member.val.hash ≠ head) → p ∈ after.searchRoot

/-- The steps of a chain that wins the round: the first children leave the index, the chain gets
another first child, siblings are split off, the path is released, and the head if nothing is
left below him. -/
inductive Departure (fuel : Nat) (list after : ActiveChainList Hash) (chain : Ptr)
    (head : Member (BlockInfo Hash)) (orphans : Option Ptr) : List Ptr → Prop
  | intro {removed left split : ActiveChainList Hash} {successor : Ptr} {path : List Ptr}
      {cell node now : Member (BlockInfo Hash)} {found : Bool} {searchRoot : List Ptr}
      {nodes : Heap (BlockInfo Hash)}
      (headLive : list.nodes chain = some head) (isFirst : head.firstChild = some successor)
      (live : list.nodes successor = some cell)
      (onPath : FirstChildPath list.nodes cell.firstChild path)
      (removes : removeFirstChildren fuel list cell.firstChild = .ok removed)
      (leaves : leaveChain fuel removed chain successor orphans = .ok left)
      (nodeLive : left.nodes successor = some node)
      (splits : abandonSiblings fuel left node.firstChild = .ok split)
      (deletes : SearchTree.tdelete (nodeHash split.nodes) split.searchRoot successor =
        .ok (found, searchRoot))
      (frees : blockInfoFree fuel split.nodes (some successor) = .ok nodes)
      (nowLive : nodes chain = some now)
      (settles : now.firstChild = none ∧
          listRemove fuel { split with nodes, searchRoot } chain = .ok after ∨
        now.firstChild.isSome ∧ after = { split with nodes, searchRoot }) :
      Departure fuel list after chain head orphans (successor :: path)

/-- The path that is released is still one after the swap and the split. -/
theorem departing_path {fuel : Nat} {list left split : ActiveChainList Hash}
    {chain successor : Ptr} {orphans start child : Option Ptr} {path : List Ptr}
    (links : list.Links) (onPath : FirstChildPath list.nodes start path) (chainOff : chain ∉ path)
    (leaves : leaveChain fuel list chain successor orphans = .ok left)
    (splits : abandonSiblings fuel left child = .ok split) :
    FirstChildPath split.nodes start path := by
  obtain ⟨leftGrown, leftChildren⟩ := leaveChain_grown links leaves
  obtain ⟨-, splitChildren⟩ := abandonSiblings_grown leftGrown.links splits
  refine onPath.congr fun p inside member memberLive => ?_
  obtain ⟨between, betweenLive, first⟩ :=
    leftChildren p member (fun same => chainOff (same ▸ inside)) memberLive
  obtain ⟨now, nowLive, second⟩ := splitChildren p between betweenLive
  exact ⟨now, nowLive, second.trans first⟩

/-- What the winner of a round leaves behind in the list of chains. -/
theorem Departure.departed {fuel : Nat} {list after : ActiveChainList Hash} {chain : Ptr}
    {orphans : Option Ptr} {whole : List Ptr} {head : Member (BlockInfo Hash)}
    (departure : Departure fuel list after chain head orphans whole) (links : list.Links) :
    Departed whole head.val.hash list after := by
  obtain @⟨removed, left, split, successor, path, cell, node, now, found, searchRoot, nodes,
    headLive, isFirst, live, onPath, removes, leaves, -, splits, deletes, frees, nowLive,
    settles⟩ := departure
  obtain ⟨pruned, removedEq⟩ := removeFirstChildren_pruned onPath removes
  have sameNodes : removed.nodes = list.nodes := by rw [removedEq]
  have removedLinks : removed.Links := by
    rw [removedEq]
    exact ⟨links.nodes, fun p entry => links.entries p (pruned.subset p entry)⟩
  have leftGrown := (leaveChain_grown removedLinks leaves).1
  have splitGrown := (abandonSiblings_grown leftGrown.links splits).1
  have grown := leftGrown.trans splitGrown
  have whole : FirstChildPath list.nodes (some successor) (successor :: path) := .cons live onPath
  have splitPath := departing_path removedLinks (sameNodes ▸ whole)
    (whole.not_mem_of_above headLive isFirst) leaves splits
  have gone := blockInfoFree_path (fun p member memberLive => ⟨member, memberLive, rfl⟩)
    splitPath frees
  have remains := (blockInfoFree_remains frees).1
  -- the last step forgets the head of the chain, or nothing
  have settled : Remains nodes after.nodes ∧ after.next = split.next ∧
      Pruned nodes (· = now.val.hash) searchRoot after.searchRoot := by
    rcases settles with ⟨childless, removal⟩ | ⟨-, rfl⟩
    · obtain ⟨-, rest, next, index⟩ := listRemove_childless nowLive childless removal
      exact ⟨rest, next, index⟩
    · exact ⟨fun _ _ same => same, rfl, .refl _ _ _⟩
  obtain ⟨settledRemains, settledNext, settledIndex⟩ := settled
  obtain ⟨splitSuccessor, splitLive, sameSuccessor⟩ := grown.live removedLinks (sameNodes ▸ live)
  have deleted := Pruned.of_tdelete splitLive deletes
  have subset : ∀ p ∈ after.searchRoot, p ∈ split.searchRoot := fun p entry =>
    deleted.subset p (settledIndex.subset p entry)
  have after_split : ∀ p member, after.nodes p = some member → split.nodes p = some member :=
    fun p member memberLive => remains p member (settledRemains p member memberLive)
  have headSame : now.val.hash = head.val.hash := by
    obtain ⟨old, oldLive, same⟩ := grown.live removedLinks (sameNodes ▸ headLive)
    rw [remains chain now nowLive] at oldLive
    cases oldLive
    exact same.hash
  constructor
  case next =>
    rw [settledNext]
    have first := grown.next
    rwa [removedEq] at first
  case links =>
    refine ⟨fun p member memberLive => ?_, fun p entry => ?_⟩
    · rw [settledNext]
      exact splitGrown.links.nodes p member (after_split p member memberLive)
    · rw [settledNext]
      exact splitGrown.links.entries p (subset p entry)
  case origin =>
    intro p member memberLive isBlock
    refine ⟨fun inside => ?_, ?_⟩
    · have stillLive := settledRemains p member memberLive
      rw [gone p inside] at stillLive
      cases stillLive
    · obtain ⟨old, oldLive, same⟩ := grown.origin (after_split p member memberLive) isBlock
      exact ⟨old, sameNodes ▸ oldLive, same⟩
  case kept =>
    intro p entry stays
    have inUse : p < removed.next := by
      rw [removedEq]
      exact links.entries p entry
    have origin : ∀ member, split.nodes p = some member →
        ¬ OnPath list.nodes (successor :: path) member.val.hash ∧
          member.val.hash ≠ head.val.hash := by
      intro member memberLive
      obtain ⟨old, oldLive, same⟩ := grown.originOld inUse memberLive
      rw [same.hash]
      exact stays old (sameNodes ▸ oldLive)
    have first := pruned.kept p entry fun member memberLive ⟨q, inside, onIt⟩ =>
      (stays member memberLive).1 ⟨q, List.mem_cons_of_mem _ inside, onIt⟩
    have second := deleted.kept p (grown.kept p first) fun member memberLive clash =>
      (origin member memberLive).1
        ⟨successor, List.mem_cons_self, cell, live, (clash.trans sameSuccessor.hash).symm⟩
    exact settledIndex.kept p second fun member memberLive clash =>
      (origin member (remains p member memberLive)).2 (clash.trans headSame)

/-! ## The winner of a round -/

variable {fuel : Nat} {env : ChainEnv Hash} {before after : Blockchain Hash} {chain : Ptr}
  {ref : HeirRef} {parentHeir : BlockchainHeir Hash}

/-- The steps of a chain that wins: heirs are abandoned, the first children become heirs, and
their nodes leave the list. -/
theorem winRound_steps (indexed : HeirsIndexed before)
    (length : before.heirs.length = before.height + 1) (links : before.candidatesList.Links)
    (arena : ref.arena = before.arena)
    (parentStored : before.heirs[ref.slot]? = some parentHeir)
    (returns : winRound fuel env before chain ref = .ok after) :
    ∃ abandoned orphans head path heirs searchRoot,
      blockchainAbandonInheritances env before ref = .ok (abandoned, orphans) ∧
      abandoned.candidatesList.nodes chain = some head ∧
      HeirsAlong env abandoned.candidatesList.nodes parentHeir.cumulativeDifficulty
        head.firstChild path heirs ∧ head.firstChild.isSome ∧
      Departure fuel abandoned.candidatesList after.candidatesList chain head orphans path ∧
      after = { abandoned with
        heirs := abandoned.heirs ++ heirs
        height := abandoned.height + heirs.length
        searchRoot
        candidatesList := after.candidatesList
        callbacks := abandoned.callbacks ++ additions heirs (abandoned.height + 1) } ∧
      HeirsIndexed after := by
  simp only [winRound, Exec.bind_eq_ok] at returns
  obtain ⟨⟨abandoned, orphans⟩, abandons, head, readsHead, ⟨inherited, _⟩, inherits, successor,
    isFirst, cell, readsCell, removed, removes, left, leaves, node, readsNode, split, splits,
    ⟨found, searchRoot⟩, deletes, nodes, frees, now, readsNow, returns⟩ := returns
  obtain ⟨final, settles, returns⟩ : ∃ final,
      (now.firstChild = none ∧
          listRemove fuel { split with nodes, searchRoot } chain = .ok final ∨
        now.firstChild.isSome ∧ final = { split with nodes, searchRoot }) ∧
      after = { inherited with candidatesList := final } := by
    cases child : now.firstChild with
    | none =>
        simp only [child, Option.isNone_none, if_true, Exec.bind_eq_ok] at returns
        obtain ⟨final, removes, returns⟩ := returns
        exact ⟨final, .inl ⟨rfl, removes⟩, (Exec.ok.inj returns).symm⟩
    | some first =>
        simp only [child, Option.isNone_some, Bool.false_eq_true, if_false, Exec.ok_bind]
          at returns
        exact ⟨_, .inr ⟨rfl, rfl⟩, (Exec.ok.inj returns).symm⟩
  obtain ⟨abandonedRule, abandonedHeirs, abandonedHeight, -, -, -⟩ :=
    blockchainAbandonInheritances_abandoned indexed length links arena abandons
  have inRange : ref.slot < before.heirs.length := (List.getElem?_eq_some_iff.1 parentStored).1
  have isTip : (⟨abandoned.arena, abandoned.height⟩ : HeirRef) = ref := by
    rw [abandonedRule.arena, abandonedHeight, ← arena]
  have abandonedLength : abandoned.heirs.length = abandoned.height + 1 := by
    rw [abandonedHeirs, abandonedHeight, List.length_take]
    omega
  have tipStored : abandoned.heirs[abandoned.height]? = some parentHeir := by
    rw [abandonedHeirs, abandonedHeight, List.getElem?_take_of_lt (Nat.lt_succ_self _)]
    exact parentStored
  rw [← isTip] at inherits
  obtain ⟨path, heirs, root, along, inheritedEq, inheritedIndexed⟩ :=
    blockchainAddInheritances_along abandonedRule.indexed abandonedLength tipStored inherits
  have sameList : inherited.candidatesList = abandoned.candidatesList := by rw [inheritedEq]
  rw [sameList] at readsCell removes
  have isFirst := Exec.deref_eq_ok.1 isFirst
  have headLive := Heap.read_eq_ok.1 readsHead
  have cellLive := Heap.read_eq_ok.1 readsCell
  obtain ⟨rest, pathEq, onPath⟩ : ∃ rest, path = successor :: rest ∧
      FirstChildPath abandoned.candidatesList.nodes cell.firstChild rest := by
    have whole := along.firstChildPath
    rw [isFirst] at whole
    cases whole with
    | cons live rest =>
        rw [cellLive] at live
        cases live
        exact ⟨_, rfl, rest⟩
  have departure :
      Departure fuel abandoned.candidatesList final chain head orphans path := by
    rw [pathEq]
    exact .intro headLive isFirst cellLive onPath removes leaves (Heap.read_eq_ok.1 readsNode)
      splits deletes frees (Heap.read_eq_ok.1 readsNow) settles
  subst inheritedEq returns
  exact ⟨abandoned, orphans, head, path, heirs, root, abandons, headLive, along,
    by rw [isFirst]; rfl, departure, rfl, inheritedIndexed.index, inheritedIndexed.distinct⟩

/-- The heirs above a slot were replaced by new ones. -/
structure Reorganised (slot : Nat) (promoted : List (BlockchainHeir Hash))
    (before after : Blockchain Hash) : Prop where
  heirs : after.heirs = before.heirs.take (slot + 1) ++ promoted
  callbacks : after.callbacks = before.callbacks ++
    (removals (before.heirs.drop (slot + 1)) (slot + 1) ++ additions promoted (slot + 1))
  indexed : HeirsIndexed after
  length : after.heirs.length = after.height + 1
  arena : after.arena = before.arena
  links : after.candidatesList.Links
  entered : ∃ heir ∈ promoted, ∃ p, IsBlock before.candidatesList.nodes p heir.hash
  stored : Stored before → Stored after
  known : ∀ hash, Known after hash → Known before hash

omit [DecidableEq Hash] in
/-- A block that is left was there before the path departed, off the path. -/
theorem Departed.isBlock {path : List Ptr} {head hash : Hash} {list left : ActiveChainList Hash}
    (departed : Departed path head list left) {p : Ptr} (isBlock : IsBlock left.nodes p hash) :
    p ∉ path ∧ IsBlock list.nodes p hash := by
  obtain ⟨member, live, header, rfl⟩ := isBlock
  obtain ⟨offPath, old, oldLive, same⟩ := departed.origin p member live header
  exact ⟨offPath, old, oldLive, same.hdr ▸ header, same.hash.symm⟩

/-- A chain that wins the round reorganises the block chain. -/
theorem winRound_reorganised {head : Member (BlockInfo Hash)} (indexed : HeirsIndexed before)
    (length : before.heirs.length = before.height + 1) (links : before.candidatesList.Links)
    (arena : ref.arena = before.arena)
    (parentStored : before.heirs[ref.slot]? = some parentHeir)
    (live : before.candidatesList.nodes chain = some head)
    (returns : winRound fuel env before chain ref = .ok after) :
    ∃ promoted, Reorganised ref.slot promoted before after := by
  obtain ⟨abandoned, orphans, now, path, promoted, searchRoot, abandons, nowLive, along, hasChild,
    departure, afterEq, afterIndexed⟩ :=
      winRound_steps indexed length links arena parentStored returns
  obtain ⟨rule, heirs, height, callbacks, -, -⟩ :=
    blockchainAbandonInheritances_abandoned indexed length links arena abandons
  have departed := departure.departed rule.links
  have inRange : ref.slot < before.heirs.length := (List.getElem?_eq_some_iff.1 parentStored).1
  have heirsEq : after.heirs = before.heirs.take (ref.slot + 1) ++ promoted := by
    rw [afterEq, heirs]
  have heightEq : after.height = ref.slot + promoted.length := by rw [afterEq, height]
  refine ⟨promoted, heirsEq, ?_, afterIndexed, ?_, ?_, departed.links, ?_, ?_, ?_⟩
  case refine_1 => rw [afterEq, callbacks, height, List.append_assoc]
  case refine_2 =>
    rw [heirsEq, heightEq, List.length_append, List.length_take]
    omega
  case refine_3 => rw [afterEq, rule.arena]
  case refine_4 =>
    -- the successor is older than the abandoned heirs
    have below := links.nodes chain head live
    rw [rule.frame chain below.self, live] at nowLive
    cases nowLive
    generalize child : head.firstChild = start at along hasChild
    cases along with
    | nil => cases hasChild
    | @cons _ successor member rest hdr heirs successorLive header _ =>
        rw [rule.frame successor (below.child successor child)] at successorLive
        exact ⟨_, List.mem_cons_self, successor, member, successorLive, by rw [header]; rfl, rfl⟩
  case refine_5 =>
    intro stored
    have middle := rule.stored stored
    refine ⟨fun p q hash first second => ?_, fun p heir inside isBlock => ?_⟩
    · exact middle.unique p q hash (departed.isBlock first).2 (departed.isBlock second).2
    · obtain ⟨offPath, old⟩ := departed.isBlock isBlock
      rw [afterEq] at inside
      rcases List.mem_append.1 inside with stays | isNew
      · exact middle.apart p heir stays old
      · obtain ⟨q, onPath, promotedBlock⟩ := along.block_of_heir isNew
        exact offPath (middle.unique p q heir.hash old promotedBlock ▸ onPath)
  case refine_6 =>
    rintro hash (⟨p, isBlock⟩ | ⟨heir, inside, rfl⟩)
    · exact rule.known hash (.inl ⟨p, (departed.isBlock isBlock).2⟩)
    · rw [afterEq] at inside
      rcases List.mem_append.1 inside with stays | isNew
      · exact rule.known _ (.inr ⟨heir, stays, rfl⟩)
      · obtain ⟨q, -, promotedBlock⟩ := along.block_of_heir isNew
        exact rule.known _ (.inl ⟨q, promotedBlock⟩)

end BitcoinClib.Chains
