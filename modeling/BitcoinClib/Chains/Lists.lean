import BitcoinClib.Chains.Links

/-!
Contract: what the operations on the list of chains leave alone.

Owns:
- `Grown`, a list that gained heads of chains, whose other nodes are relinked and
  whose index lost nothing;
- for the rules that place a node and for `abandon_siblings`, that they grow the list;
- `Pruned`, an index that lost entries with some hashes, for the removals;
- `Entered`, a list that gained one block, for the creation of a node and for the
  sub-rule of a chain.

All rules speak about operations that returned.
-/

namespace BitcoinClib.Chains

open BitcoinClib.Lib

variable {Hash : Type}

theorem nodeHash_eq_ok {nodes : Heap (BlockInfo Hash)} {p : Ptr} {hash : Hash} :
    nodeHash nodes p = .ok hash ↔ ∃ member, nodes p = some member ∧ member.val.hash = hash := by
  rw [nodeHash, Exec.bind_eq_ok]
  constructor
  · rintro ⟨member, reads, result⟩
    exact ⟨member, Heap.read_eq_ok.1 reads, Exec.ok.inj result⟩
  · rintro ⟨member, live, rfl⟩
    exact ⟨member, Heap.read_eq live, rfl⟩

namespace ActiveChainList

/-- Every address in use lies below the next one. -/
structure Links (list : ActiveChainList Hash) : Prop where
  nodes : LinksBelow list.next list.nodes
  entries : ∀ p ∈ list.searchRoot, p < list.next

theorem Links.free {list : ActiveChainList Hash} (links : list.Links) :
    list.nodes list.next = none := by
  cases live : list.nodes list.next with
  | none => rfl
  | some member => exact absurd (links.nodes _ member live).self (Nat.lt_irrefl _)

/-- The index has no dangling entry and no entry twice, and no two entries have the same
hash. -/
structure Searchable (list : ActiveChainList Hash) : Prop where
  nodup : list.searchRoot.Nodup
  live : ∀ p ∈ list.searchRoot, ∃ member, list.nodes p = some member
  distinct : ∀ p ∈ list.searchRoot, ∀ q ∈ list.searchRoot, ∀ member other,
    list.nodes p = some member → list.nodes q = some other →
    member.val.hash = other.val.hash → p = q

/-- Every chain has its search root. -/
def Rooted (list : ActiveChainList Hash) : Prop :=
  ∀ chain fields, list.activeChains chain = some fields → fields.pSearchRoot = true

/-- A smaller index is searchable as long as its entries stay live with the same hash. -/
theorem Searchable.transfer {before after : ActiveChainList Hash} (searchable : before.Searchable)
    (sublist : after.searchRoot.Sublist before.searchRoot)
    (kept : ∀ p ∈ after.searchRoot, ∀ old, before.nodes p = some old →
      ∃ member, after.nodes p = some member ∧ member.val.hash = old.val.hash) :
    after.Searchable := by
  refine ⟨searchable.nodup.sublist sublist, fun p entry => ?_, ?_⟩
  · obtain ⟨old, oldLive⟩ := searchable.live p (sublist.subset entry)
    obtain ⟨member, live, -⟩ := kept p entry old oldLive
    exact ⟨member, live⟩
  · intro p pEntry q qEntry member other pLive qLive same
    obtain ⟨first, firstLive⟩ := searchable.live p (sublist.subset pEntry)
    obtain ⟨second, secondLive⟩ := searchable.live q (sublist.subset qEntry)
    obtain ⟨now, nowLive, nowHash⟩ := kept p pEntry first firstLive
    obtain ⟨then', thenLive, thenHash⟩ := kept q qEntry second secondLive
    rw [pLive] at nowLive
    rw [qLive] at thenLive
    cases nowLive
    cases thenLive
    exact searchable.distinct p (sublist.subset pEntry) q (sublist.subset qEntry) first second
      firstLive secondLive (nowHash.symm.trans (same.trans thenHash))

/-- The index of the list can be compared, and has no hash twice. -/
theorem Searchable.index {list : ActiveChainList Hash}
    (searchable : list.Searchable) : SearchTree.Live (nodeHash list.nodes) list.searchRoot ∧
      SearchTree.Distinct (nodeHash list.nodes) list.searchRoot := by
  refine ⟨fun p entry => ?_, fun p pEntry q qEntry hash pHash qHash => ?_⟩
  · obtain ⟨member, live⟩ := searchable.live p entry
    exact ⟨member.val.hash, nodeHash_eq_ok.2 ⟨member, live, rfl⟩⟩
  · obtain ⟨first, firstLive, firstHash⟩ := nodeHash_eq_ok.1 pHash
    obtain ⟨second, secondLive, secondHash⟩ := nodeHash_eq_ok.1 qHash
    exact searchable.distinct p pEntry q qEntry first second firstLive secondLive
      (firstHash.trans secondHash.symm)

end ActiveChainList

/-! ## Grown lists -/

/-- Heads of chains are new; the other nodes differ in links and difficulties, and the index
still holds what it held. -/
structure Grown (before after : ActiveChainList Hash) : Prop where
  next : before.next ≤ after.next
  old : ∀ p, p < before.next → Option.Rel SameBlock (before.nodes p) (after.nodes p)
  heads : ∀ p member, before.next ≤ p → after.nodes p = some member → member.val.hdr = none
  links : after.Links
  kept : ∀ p ∈ before.searchRoot, p ∈ after.searchRoot
  searchable : before.Searchable → after.Searchable

namespace Grown

variable {before middle after : ActiveChainList Hash}

/-- Only links, difficulties and the fields of chains changed. -/
theorem of_relinked (links : before.Links) (relinked : Relinked before.nodes after.nodes)
    (next : after.next = before.next) (searchRoot : after.searchRoot = before.searchRoot) :
    Grown before after where
  next := Nat.le_of_eq next.symm
  old := fun p _ => relinked.blocks p
  heads := by
    intro p member beyond live
    obtain ⟨old, oldLive, -⟩ := relinked.origin live
    exact absurd (links.nodes p old oldLive).self (Nat.not_lt.2 beyond)
  links := by
    constructor
    · rw [next]
      exact relinked.links _ links.nodes
    · rw [next, searchRoot]
      exact links.entries
  kept := by
    intro p entry
    rwa [searchRoot]
  searchable := by
    intro searchable
    refine searchable.transfer (searchRoot ▸ List.Sublist.refl _) fun p entry old oldLive => ?_
    obtain ⟨member, live, same⟩ := relinked.live oldLive
    exact ⟨member, live, same.hash⟩

theorem trans (left : Grown before middle) (right : Grown middle after) :
    Grown before after where
  next := Nat.le_trans left.next right.next
  old := by
    intro p below
    have first := left.old p below
    have second := right.old p (Nat.lt_of_lt_of_le below left.next)
    generalize before.nodes p = start, middle.nodes p = shared, after.nodes p = last
      at first second
    cases first with
    | none =>
        cases second with
        | none => exact .none
    | some same =>
        cases second with
        | some next => exact .some (same.trans next)
  heads := by
    intro p member beyond live
    by_cases inside : p < middle.next
    · have same := right.old p inside
      rw [live] at same
      generalize earlier : middle.nodes p = cell at same
      cases same with
      | some same => rw [same.hdr, left.heads p _ beyond earlier]
    · exact right.heads p member (Nat.not_lt.1 inside) live
  links := right.links
  kept := fun p entry => right.kept p (left.kept p entry)
  searchable := right.searchable ∘ left.searchable

theorem refl (links : before.Links) : Grown before before :=
  of_relinked links (.refl _) rfl rfl

/-- A node that was live still is. -/
theorem live (grown : Grown before after) (links : before.Links) {p : Ptr}
    {old : Member (BlockInfo Hash)} (lives : before.nodes p = some old) :
    ∃ new, after.nodes p = some new ∧ SameBlock old new := by
  have same := grown.old p (links.nodes p old lives).self
  rw [lives] at same
  generalize after.nodes p = now at same
  cases same with
  | some same => exact ⟨_, rfl, same⟩

/-- A live node at an old address was live before. -/
theorem originOld (grown : Grown before after) {p : Ptr} {new : Member (BlockInfo Hash)}
    (inside : p < before.next) (lives : after.nodes p = some new) :
    ∃ old, before.nodes p = some old ∧ SameBlock old new := by
  have same := grown.old p inside
  rw [lives] at same
  generalize before.nodes p = earlier at same
  cases same with
  | some same => exact ⟨_, rfl, same⟩

/-- A block, a node with a header, was there before. -/
theorem origin (grown : Grown before after) {p : Ptr} {new : Member (BlockInfo Hash)}
    (lives : after.nodes p = some new) (isBlock : new.val.hdr.isSome) :
    ∃ old, before.nodes p = some old ∧ SameBlock old new := by
  by_cases inside : p < before.next
  · exact grown.originOld inside lives
  · rw [grown.heads p new (Nat.not_lt.1 inside) lives] at isBlock
    cases isBlock

end Grown

variable [DecidableEq Hash]

/-- An insertion into the index. -/
theorem grown_tsearch {list : ActiveChainList Hash} {node found : Ptr} {searchRoot : List Ptr}
    (links : list.Links)
    (returns : SearchTree.tsearch (nodeHash list.nodes) list.searchRoot node =
      .ok (found, searchRoot)) :
    Grown list { list with searchRoot } ∧ (found = node → node ∈ searchRoot) := by
  obtain ⟨key, reads, outcome⟩ := SearchTree.tsearch_inversion returns
  have base := Grown.refl links
  rcases outcome with ⟨inside, -, rfl⟩ | ⟨-, absent, rfl⟩
  · exact ⟨base, fun same => same ▸ inside⟩
  · obtain ⟨cell, cellLive, cellHash⟩ := nodeHash_eq_ok.1 reads
    refine ⟨⟨base.next, base.old, base.heads, ⟨links.nodes, ?_⟩, ?_, ?_⟩,
      fun _ => List.mem_cons_self⟩
    · intro p entry
      rcases List.mem_cons.1 entry with rfl | old
      · exact (links.nodes p cell cellLive).self
      · exact links.entries p old
    · exact fun p entry => List.mem_cons_of_mem _ entry
    · intro searchable
      refine ⟨List.nodup_cons.2 ⟨fun inside => absent _ inside reads, searchable.nodup⟩,
        fun p entry => ?_, ?_⟩
      · rcases List.mem_cons.1 entry with rfl | old
        · exact ⟨cell, cellLive⟩
        · exact searchable.live p old
      intro p pEntry q qEntry member other pLive qLive same
      rcases List.mem_cons.1 pEntry with rfl | pOld
      · rcases List.mem_cons.1 qEntry with rfl | qOld
        · rfl
        · rw [cellLive] at pLive
          cases pLive
          exact absurd (nodeHash_eq_ok.2 ⟨other, qLive, same.symm.trans cellHash⟩) (absent q qOld)
      · rcases List.mem_cons.1 qEntry with rfl | qOld
        · rw [cellLive] at qLive
          cases qLive
          exact absurd (nodeHash_eq_ok.2 ⟨member, pLive, same.trans cellHash⟩) (absent p pOld)
        · exact searchable.distinct p pOld q qOld member other pLive qLive same

/-- `list_search_tree_add` adds the node itself. -/
theorem grown_listSearchTreeAdd {list after : ActiveChainList Hash} {node : Ptr}
    (links : list.Links) (returns : listSearchTreeAdd list node = .ok after) :
    Grown list after ∧ node ∈ after.searchRoot ∧
      after = { list with searchRoot := after.searchRoot } := by
  simp only [listSearchTreeAdd, Exec.bind_eq_ok] at returns
  obtain ⟨⟨entry, searchRoot⟩, searches, same, asserts, returns⟩ := returns
  cases returns
  obtain ⟨grown, inside⟩ := grown_tsearch links searches
  exact ⟨grown, inside (Exec.assert_eq_ok.1 asserts), rfl⟩

theorem tsearchHead_grown {list after : ActiveChainList Hash} {chain : Ptr} (links : list.Links)
    (returns : tsearchHead list chain = .ok after) :
    Grown list after ∧ after = { list with searchRoot := after.searchRoot } ∧
      ∀ p ∈ after.searchRoot, p ∈ list.searchRoot ∨ p = chain := by
  simp only [tsearchHead, Exec.bind_eq_ok] at returns
  obtain ⟨⟨entry, searchRoot⟩, searches, returns⟩ := returns
  cases returns
  refine ⟨(grown_tsearch links searches).1, rfl, fun p inside => ?_⟩
  obtain ⟨key, -, outcome⟩ := SearchTree.tsearch_inversion searches
  rcases outcome with ⟨-, -, rfl⟩ | ⟨-, -, rfl⟩
  · exact .inl inside
  · rcases List.mem_cons.1 inside with same | old
    · exact .inr same
    · exact .inl old

/-! ## New chains -/

variable {fuel : Nat} {env : ChainEnv Hash} {list after : ActiveChainList Hash}

omit [DecidableEq Hash] in
/-- A new head of a chain that does not enter the index. -/
theorem grown_head {orphan : Ptr} {hash : Hash} (links : list.Links) (inUse : orphan < list.next) :
    Grown list { list with
      nodes := list.nodes.write list.next ⟨⟨hash, none, 0⟩, none, some orphan, none⟩
      next := list.next + 1 } where
  next := Nat.le_succ _
  old := by
    intro p below
    have other : p ≠ list.next := Nat.ne_of_lt below
    simp only [Heap.write_of_ne other]
    exact (Relinked.refl _).blocks p
  heads := by
    intro p member beyond live
    dsimp only at live
    by_cases isHead : p = list.next
    · rw [isHead, Heap.write_same] at live
      cases live
      rfl
    · rw [Heap.write_of_ne isHead] at live
      exact absurd (links.nodes p member live).self (Nat.not_lt.2 beyond)
  links := by
    refine ⟨fun p member live => ?_, fun p entry => Nat.lt_succ_of_lt (links.entries p entry)⟩
    dsimp only at live
    by_cases isHead : p = list.next
    · rw [isHead, Heap.write_same] at live
      cases live
      rw [isHead]
      refine ⟨Nat.lt_succ_self _, fun q points => ?_, fun q points => nomatch points⟩
      cases points
      exact Nat.lt_succ_of_lt inUse
    · rw [Heap.write_of_ne isHead] at live
      exact (links.nodes.mono (Nat.le_succ _)) p member live
  kept := fun _ entry => entry
  searchable := by
    intro searchable
    refine searchable.transfer (List.Sublist.refl _) fun p entry old live => ⟨old, ?_, rfl⟩
    exact (Heap.write_of_ne (Nat.ne_of_lt (links.entries p entry))).trans live

/-- A new chain without a search root: its head is new and the orphan gets a parent. -/
theorem activeChainNew_grown {orphan : Ptr} (links : list.Links)
    (returns : activeChainNew fuel list orphan false = .ok after) :
    Grown list after ∧
      (SameChildren list.nodes after.nodes ∧ SameSiblings list.nodes after.nodes) ∧
      after.searchRoot = list.searchRoot ∧
      (∃ member, after.nodes orphan = some member ∧ member.parent = some list.next) ∧
      ∃ fields, after.activeChains =
        fun p => if p = list.next then some fields else list.activeChains p := by
  rw [activeChainNew, Exec.bind_eq_ok] at returns
  obtain ⟨cell, reads, returns⟩ := returns
  have orphanLive := Heap.read_eq_ok.1 reads
  cases header : cell.val.hdr with
  | none =>
      rw [header] at returns
      cases returns
  | some hdr =>
      simp only [header, Bool.false_eq_true, if_false, Exec.ok_bind, Exec.bind_eq_ok] at returns
      obtain ⟨again, readsAgain, longestEnd, -, returns⟩ := returns
      cases returns
      have inUse := (links.nodes orphan cell orphanLive).self
      have againLive := Heap.read_eq_ok.1 readsAgain
      have head : Grown list { list with
          nodes := list.nodes.write list.next ⟨⟨hdr.prevHash, none, 0⟩, none, some orphan, none⟩
          next := list.next + 1 } := grown_head links inUse
      have parent := relinked_setParent againLive list.next
      exact ⟨head.trans (.of_relinked head.links parent rfl rfl),
        ⟨(SameLink.writeNew links.free).trans (.write againLive rfl),
          (SameLink.writeNew links.free).trans (.write againLive rfl)⟩,
        rfl, ⟨_, Heap.write_same, rfl⟩, _, rfl⟩

/-- `list_add` of a chain that has a search root. -/
theorem listAdd_of_searchRoot {chain : Ptr} {fields : ActiveChain}
    (stored : list.activeChains chain = some fields) (hasRoot : fields.pSearchRoot = true)
    (returns : listAdd fuel list chain = .ok after) :
    after = { list with chains := list.chains ++ [chain] } := by
  rw [listAdd, stored, Exec.deref_some, Exec.ok_bind, if_pos hasRoot] at returns
  exact (Exec.ok.inj returns).symm

/-! ## Rules II and III -/

omit [DecidableEq Hash] in
/-- The orphan joins a chain: he has a parent, and the list is relinked. -/
theorem ruleII_grown {parent orphan chain : Ptr} (links : list.Links)
    (returns : ruleII fuel env list parent orphan = .ok (after, chain)) :
    Grown list after ∧ ∃ member, after.nodes orphan = some member ∧ member.parent.isSome := by
  simp only [ruleII, Exec.bind_eq_ok] at returns
  obtain ⟨found, -, joined, joins, cell, -, ⟨updated, longest⟩, updates, fields, -, _, -,
    returns⟩ := returns
  obtain ⟨joinedRelinked, member, live, above⟩ := blockInfoAddChild_relinked joins
  have updatedRelinked := joinedRelinked.trans (blockInfoUpdate_relinked.1 updates)
  have parentKept : ∀ nodes : Heap (BlockInfo Hash), Relinked joined nodes →
      ∃ member, nodes orphan = some member ∧ member.parent.isSome := by
    intro nodes relinked
    obtain ⟨now, nowLive, same⟩ := relinked.live live
    exact ⟨now, nowLive, same.parent (by rw [above]; rfl)⟩
  cases longest with
  | none => cases returns
  | some longest =>
      cases longest with
      | none => cases returns
      | some longestEnd =>
          simp only at returns
          by_cases same : some longestEnd = fields.longestEnd
          · rw [if_pos same] at returns
            cases returns
            exact ⟨.of_relinked links updatedRelinked rfl rfl,
              parentKept _ (blockInfoUpdate_relinked.1 updates)⟩
          · simp only [if_neg same, Exec.bind_eq_ok] at returns
            obtain ⟨declared, declares, returns⟩ := returns
            cases returns
            have declaredRelinked := blockInfoDeclareInheritance_relinked declares
            exact ⟨.of_relinked links (updatedRelinked.trans declaredRelinked) rfl rfl,
              parentKept _ ((blockInfoUpdate_relinked.1 updates).trans declaredRelinked)⟩

/-- The orphan gets a chain of his own. -/
theorem ruleIII_grown {orphan chain : Ptr} (links : list.Links)
    (returns : ruleIII fuel env list orphan = .ok (after, chain)) :
    Grown list after ∧ ∃ member, after.nodes orphan = some member ∧ member.parent.isSome := by
  simp only [ruleIII, Exec.bind_eq_ok] at returns
  obtain ⟨created, creates, fields, -, indexed, indexes, added, adds, stored, -,
    ⟨updated, longest⟩, updates, returns⟩ := returns
  obtain ⟨createdGrown, -, -, ⟨member, live, above⟩, -⟩ := activeChainNew_grown links creates
  have rooted : Grown created (created.setActiveChain list.next { fields with pSearchRoot := true }) :=
    .of_relinked createdGrown.links (.refl _) rfl rfl
  obtain ⟨indexedGrown, -, indexedEq⟩ := grown_listSearchTreeAdd rooted.links indexes
  have addedEq := listAdd_of_searchRoot
    (by
      rw [indexedEq]
      exact if_pos rfl) rfl adds
  have addedGrown : Grown indexed added := by
    rw [addedEq]
    exact .of_relinked indexedGrown.links (.refl _) rfl rfl
  have updatedRelinked := blockInfoUpdate_relinked.1 updates
  have whole := ((createdGrown.trans rooted).trans indexedGrown).trans addedGrown
  have sameNodes : added.nodes = created.nodes := by
    rw [addedEq, indexedEq]
    rfl
  obtain ⟨now, nowLive, same⟩ := updatedRelinked.live (sameNodes ▸ live)
  cases longest with
  | none => cases returns
  | some longestEnd =>
      cases returns
      exact ⟨whole.trans (.of_relinked whole.links updatedRelinked rfl rfl), now, nowLive,
        same.parent (by rw [above]; rfl)⟩

/-- Rules I to III: the orphan enters the index and gets a parent. -/
theorem placeOrphan_grown {orphan chain : Ptr} {hdr : SatoshiBlockHeader Hash}
    (links : list.Links)
    (returns : placeOrphan fuel env list orphan hdr = .ok (after, chain)) :
    Grown list after ∧ orphan ∈ after.searchRoot ∧
      ∃ member, after.nodes orphan = some member ∧ member.parent.isSome := by
  simp only [placeOrphan, Exec.bind_eq_ok] at returns
  obtain ⟨indexed, indexes, found, -, returns⟩ := returns
  obtain ⟨indexedGrown, entered, -⟩ := grown_listSearchTreeAdd links indexes
  cases found with
  | some parent =>
      obtain ⟨grown, placed⟩ := ruleII_grown indexedGrown.links returns
      exact ⟨indexedGrown.trans grown, grown.kept orphan entered, placed⟩
  | none =>
      obtain ⟨grown, placed⟩ := ruleIII_grown indexedGrown.links returns
      exact ⟨indexedGrown.trans grown, grown.kept orphan entered, placed⟩

/-! ## Split siblings -/

/-- The part of `abandon_siblings` that leads the siblings behind a node to a new chain. -/
def splitSiblings (fuel : Nat) (list : ActiveChainList Hash) :
    Option Ptr → Exec (ActiveChainList Hash)
  | none => .ok list
  | some sibling => do
      let chain := list.next
      let list ← activeChainNew fuel list sibling false
      let list ← tsearchHead list chain
      let fields ← Exec.deref (list.activeChains chain)
      let list := list.setActiveChain chain { fields with pSearchRoot := true }
      listAdd fuel list chain

/-- One node of `abandon_siblings`: his siblings are split off, he forgets them, and his first
child does the same. -/
theorem abandonSiblings_inversion {successor : Ptr}
    (returns : abandonSiblings (fuel + 1) list (some successor) = .ok after) :
    ∃ cell split node, list.nodes successor = some cell ∧
      splitSiblings fuel list cell.nextSibling = .ok split ∧
      split.nodes successor = some node ∧
      abandonSiblings fuel { split with
        nodes := split.nodes.write successor { node with nextSibling := none } }
        node.firstChild = .ok after := by
  rw [abandonSiblings, Exec.bind_eq_ok] at returns
  obtain ⟨cell, reads, returns⟩ := returns
  have live := Heap.read_eq_ok.1 reads
  cases next : cell.nextSibling with
  | none =>
      simp only [next, Exec.ok_bind, Exec.bind_eq_ok] at returns
      obtain ⟨node, readsNode, rest⟩ := returns
      exact ⟨cell, list, node, live, by rw [next, splitSiblings], Heap.read_eq_ok.1 readsNode,
        rest⟩
  | some sibling =>
      simp only [next, Exec.bind_eq_ok] at returns
      obtain ⟨created, creates, headed, heads, fields, reads, split, adds, node, readsNode, rest⟩ :=
        returns
      refine ⟨cell, split, node, live, ?_, Heap.read_eq_ok.1 readsNode, rest⟩
      rw [next, splitSiblings, creates, Exec.ok_bind, heads, Exec.ok_bind, reads, Exec.ok_bind]
      exact adds

/-- The siblings get a head of their own; no link to a first child or a sibling changes. -/
theorem splitSiblings_grown {sibling : Option Ptr} (links : list.Links)
    (returns : splitSiblings fuel list sibling = .ok after) :
    Grown list after ∧ SameChildren list.nodes after.nodes ∧
      SameSiblings list.nodes after.nodes ∧
      (∀ p ∈ after.searchRoot, p ∈ list.searchRoot ∨ list.next ≤ p) ∧
      (list.Rooted → after.Rooted) := by
  cases sibling with
  | none =>
      cases returns
      exact ⟨.refl links, .refl _ _, .refl _ _, fun _ => .inl, id⟩
  | some sibling =>
      simp only [splitSiblings, Exec.bind_eq_ok] at returns
      obtain ⟨created, creates, headed, heads, fields, -, adds⟩ := returns
      obtain ⟨createdGrown, ⟨children, siblings⟩, createdRoot, -, newFields, createdChains⟩ :=
        activeChainNew_grown links creates
      obtain ⟨headedGrown, headedEq, entries⟩ := tsearchHead_grown createdGrown.links heads
      have addedEq := listAdd_of_searchRoot (if_pos rfl) rfl adds
      have addedGrown : Grown headed after := by
        rw [addedEq]
        exact .of_relinked headedGrown.links (.refl _) rfl rfl
      have sameNodes : after.nodes = created.nodes := by
        rw [addedEq, headedEq]
        rfl
      rw [← sameNodes] at children siblings
      refine ⟨(createdGrown.trans headedGrown).trans addedGrown, children, siblings,
        fun p entry => ?_, fun rooted chain found stored => ?_⟩
      · have headedEntry : p ∈ headed.searchRoot := by
          rw [addedEq] at entry
          exact entry
        rcases entries p headedEntry with old | new
        · exact .inl (createdRoot ▸ old)
        · exact .inr (Nat.le_of_eq new.symm)
      · rw [addedEq, headedEq] at stored
        simp only [ActiveChainList.setActiveChain, createdChains] at stored
        by_cases isNew : chain = list.next
        · rw [if_pos isNew] at stored
          cases stored
          rfl
        · rw [if_neg isNew, if_neg isNew] at stored
          exact rooted chain found stored

/-- `abandon_siblings` along a path: new heads, and pointers to first children stay. -/
theorem abandonSiblings_grown {successor : Option Ptr} (links : list.Links)
    (returns : abandonSiblings fuel list successor = .ok after) :
    Grown list after ∧ SameChildren list.nodes after.nodes := by
  induction fuel generalizing list successor with
  | zero => cases returns
  | succ fuel inductionHypothesis =>
      cases successor with
      | none =>
          cases returns
          exact ⟨.refl links, .refl _ _⟩
      | some successor =>
          obtain ⟨cell, split, node, -, splits, nodeLive, rest⟩ :=
            abandonSiblings_inversion returns
          obtain ⟨splitGrown, splitChildren, -⟩ := splitSiblings_grown links splits
          have alone : Grown split { split with
              nodes := split.nodes.write successor { node with nextSibling := none } } :=
            .of_relinked splitGrown.links (relinked_setNextSibling nodeLive
              fun _ _ _ points => nomatch points) rfl rfl
          obtain ⟨grown, children⟩ := inductionHypothesis alone.links rest
          have stays : SameChildren split.nodes
              (split.nodes.write successor { node with nextSibling := none }) :=
            .write nodeLive rfl
          exact ⟨(splitGrown.trans alone).trans grown,
            (splitChildren.trans stays).trans children⟩

/-- After `abandon_siblings` the nodes of the path have no siblings; the index gained heads
only. -/
theorem abandonSiblings_alone {successor : Option Ptr} {path : List Ptr} (links : list.Links)
    (onPath : FirstChildPath list.nodes successor path)
    (returns : abandonSiblings fuel list successor = .ok after) :
    (∀ p member, list.nodes p = some member → p ∈ path ∨ member.nextSibling = none →
      ∃ now, after.nodes p = some now ∧ now.nextSibling = none) ∧
      (∀ p ∈ after.searchRoot, p ∈ list.searchRoot ∨ list.next ≤ p) ∧
      (list.Rooted → after.Rooted) := by
  induction fuel generalizing list successor path with
  | zero => cases returns
  | succ fuel inductionHypothesis =>
      cases onPath with
      | nil =>
          cases returns
          refine ⟨fun p member live alone => ⟨member, live, ?_⟩, fun _ => .inl, id⟩
          exact alone.resolve_left List.not_mem_nil
      | @cons successor member path live others =>
          obtain ⟨cell, split, node, -, splits, nodeLive, rest⟩ :=
            abandonSiblings_inversion returns
          obtain ⟨splitGrown, splitChildren, splitSiblings, splitEntries, splitRooted⟩ :=
            splitSiblings_grown links splits
          have alone : Grown split { split with
              nodes := split.nodes.write successor { node with nextSibling := none } } :=
            .of_relinked splitGrown.links (relinked_setNextSibling nodeLive
              fun _ _ _ points => nomatch points) rfl rfl
          have stays : SameChildren split.nodes
              (split.nodes.write successor { node with nextSibling := none }) :=
            .write nodeLive rfl
          obtain ⟨same, sameLive, sameChild⟩ := splitChildren successor member live
          rw [nodeLive] at sameLive
          cases sameLive
          have restPath : FirstChildPath
              (split.nodes.write successor { node with nextSibling := none }) node.firstChild
              path := by
            have moved := others.congr fun p _ => (splitChildren.trans stays) p
            rwa [← sameChild] at moved
          obtain ⟨aloneRest, entries, rooted⟩ := inductionHypothesis alone.links restPath rest
          refine ⟨fun p old oldLive isAlone => ?_, fun p entry => ?_, fun base =>
            rooted (splitRooted base)⟩
          · obtain ⟨between, betweenLive, betweenSibling⟩ := splitSiblings p old oldLive
            by_cases here : p = successor
            · rw [here]
              exact aloneRest successor _ Heap.write_same (.inr rfl)
            · apply aloneRest p between ((Heap.write_of_ne here).trans betweenLive)
              rcases isAlone with inside | none
              · exact .inl ((List.mem_cons.1 inside).resolve_left here)
              · exact .inr (betweenSibling.trans none)
          · rcases entries p entry with old | new
            · exact splitEntries p old
            · exact .inr (Nat.le_trans splitGrown.next new)

/-! ## Removals -/

/-- The index lost entries, but only some whose hash is one of those given. -/
structure Pruned (nodes : Heap (BlockInfo Hash)) (gone : Hash → Prop)
    (before after : List Ptr) : Prop where
  sublist : after.Sublist before
  kept : ∀ p ∈ before, (∀ member, nodes p = some member → ¬ gone member.val.hash) → p ∈ after

namespace Pruned

variable {nodes : Heap (BlockInfo Hash)} {gone also : Hash → Prop}
  {before middle after : List Ptr}

omit [DecidableEq Hash] in
theorem refl (nodes : Heap (BlockInfo Hash)) (gone : Hash → Prop) (root : List Ptr) :
    Pruned nodes gone root root := ⟨List.Sublist.refl _, fun _ inside _ => inside⟩

omit [DecidableEq Hash] in
theorem trans (left : Pruned nodes gone before middle) (right : Pruned nodes also middle after)
    {both : Hash → Prop} (gones : ∀ hash, gone hash → both hash)
    (alsos : ∀ hash, also hash → both hash) : Pruned nodes both before after :=
  ⟨right.sublist.trans left.sublist, fun p inside stays =>
    right.kept p (left.kept p inside fun member live => stays member live ∘ gones _)
      fun member live => stays member live ∘ alsos _⟩

omit [DecidableEq Hash] in
theorem subset (pruned : Pruned nodes gone before after) : ∀ p ∈ after, p ∈ before :=
  fun _ inside => pruned.sublist.subset inside

/-- `tdelete` by the hash of a node. -/
theorem of_tdelete {node : Ptr} {member : Member (BlockInfo Hash)} {found : Bool}
    (live : nodes node = some member)
    (returns : SearchTree.tdelete (nodeHash nodes) before node = .ok (found, after)) :
    Pruned nodes (· = member.val.hash) before after := by
  obtain ⟨sublist, kept⟩ := SearchTree.tdelete_sublist returns
  refine ⟨sublist, fun p inside differs => kept p inside fun same => ?_⟩
  rw [nodeHash_eq_ok.2 ⟨member, live, rfl⟩] at same
  obtain ⟨cell, cellLive, cellHash⟩ := nodeHash_eq_ok.1 same
  exact differs cell cellLive cellHash

end Pruned

/-- `list_search_tree_remove`. -/
theorem listSearchTreeRemove_pruned {node : Ptr} {member : Member (BlockInfo Hash)}
    (live : list.nodes node = some member) (returns : listSearchTreeRemove list node = .ok after) :
    Pruned list.nodes (· = member.val.hash) list.searchRoot after.searchRoot ∧
      after = { list with searchRoot := after.searchRoot } := by
  simp only [listSearchTreeRemove, Exec.bind_eq_ok] at returns
  obtain ⟨⟨found, searchRoot⟩, deletes, _, -, returns⟩ := returns
  cases returns
  exact ⟨.of_tdelete live deletes, rfl⟩

theorem listSearchTreeRemove_searchable {node : Ptr} {member : Member (BlockInfo Hash)}
    (live : list.nodes node = some member) (returns : listSearchTreeRemove list node = .ok after)
    (searchable : list.Searchable) : after.Searchable := by
  obtain ⟨pruned, removedEq⟩ := listSearchTreeRemove_pruned live returns
  rw [removedEq]
  exact searchable.transfer pruned.sublist fun p entry old oldLive => ⟨old, oldLive, rfl⟩

/-- After a `tdelete` no entry has the hash. -/
theorem tdelete_hash_absent {node : Ptr} {member : Member (BlockInfo Hash)} {found : Bool}
    {searchRoot : List Ptr} (searchable : list.Searchable) (live : list.nodes node = some member)
    (returns : SearchTree.tdelete (nodeHash list.nodes) list.searchRoot node =
      .ok (found, searchRoot)) :
    ∀ p ∈ searchRoot, ∀ other, list.nodes p = some other → other.val.hash ≠ member.val.hash := by
  intro p inside other otherLive same
  apply SearchTree.tdelete_absent searchable.nodup searchable.index.2 returns p inside
  rw [nodeHash_eq_ok.2 ⟨other, otherLive, rfl⟩, nodeHash_eq_ok.2 ⟨member, live, rfl⟩, same]

theorem listSearchTreeRemove_absent {node : Ptr} {member : Member (BlockInfo Hash)}
    (searchable : list.Searchable) (live : list.nodes node = some member)
    (returns : listSearchTreeRemove list node = .ok after) :
    ∀ p ∈ after.searchRoot, ∀ other, list.nodes p = some other →
      other.val.hash ≠ member.val.hash := by
  simp only [listSearchTreeRemove, Exec.bind_eq_ok] at returns
  obtain ⟨⟨found, searchRoot⟩, deletes, _, -, returns⟩ := returns
  cases returns
  exact tdelete_hash_absent searchable live deletes

/-- The hashes of the nodes of a path. -/
def OnPath (nodes : Heap (BlockInfo Hash)) (path : List Ptr) (hash : Hash) : Prop :=
  ∃ p ∈ path, ∃ member, nodes p = some member ∧ member.val.hash = hash

/-- The nodes of a path leave the index. -/
theorem removeFirstChildren_pruned {child : Option Ptr} {path : List Ptr}
    (onPath : FirstChildPath list.nodes child path)
    (returns : removeFirstChildren fuel list child = .ok after) :
    Pruned list.nodes (OnPath list.nodes path) list.searchRoot after.searchRoot ∧
      after = { list with searchRoot := after.searchRoot } := by
  induction fuel generalizing list child path with
  | zero => cases returns
  | succ fuel inductionHypothesis =>
      cases onPath with
      | nil =>
          cases returns
          exact ⟨.refl _ _ _, rfl⟩
      | @cons p member path live rest =>
          simp only [removeFirstChildren, Exec.bind_eq_ok] at returns
          obtain ⟨removed, removes, cell, reads, others⟩ := returns
          obtain ⟨first, removedEq⟩ := listSearchTreeRemove_pruned live removes
          have sameNodes : removed.nodes = list.nodes := by rw [removedEq]
          have cellLive := Heap.read_eq_ok.1 reads
          rw [sameNodes, live] at cellLive
          cases cellLive
          obtain ⟨second, afterEq⟩ := inductionHypothesis (sameNodes ▸ rest) others
          rw [sameNodes] at second
          refine ⟨first.trans second ?_ ?_, ?_⟩
          · rintro hash rfl
            exact ⟨p, List.mem_cons_self, member, live, rfl⟩
          · rintro hash ⟨q, inside, found⟩
            exact ⟨q, List.mem_cons_of_mem _ inside, found⟩
          · rw [afterEq, removedEq]

omit [DecidableEq Hash] in
theorem freeChildren_none {nodes freed : Heap (BlockInfo Hash)}
    (returns : freeChildren fuel nodes none = .ok freed) : freed = nodes := by
  cases fuel <;> cases returns
  rfl

theorem activeChainRemoveChildren_none {nodes : Heap (BlockInfo Hash)}
    {searchRoot removed : List Ptr}
    (returns : activeChainRemoveChildren fuel nodes none searchRoot = .ok removed) :
    removed = searchRoot := by
  cases fuel <;> cases returns
  rfl

/-- What `active_chain_free` does to a chain without children. -/
theorem activeChainFree_childless {chain : Ptr} {head : Member (BlockInfo Hash)}
    (live : list.nodes chain = some head) (childless : head.firstChild = none)
    (returns : activeChainFree fuel list chain = .ok after) :
    after.nodes = list.nodes.release chain ∧ after.next = list.next ∧
      after.chains = list.chains ∧
      Pruned list.nodes (· = head.val.hash) list.searchRoot after.searchRoot := by
  simp only [activeChainFree, Exec.bind_eq_ok] at returns
  obtain ⟨fields, -, cell, reads, returns⟩ := returns
  have cellLive := Heap.read_eq_ok.1 reads
  rw [live] at cellLive
  cases cellLive
  rw [childless] at returns
  by_cases hasRoot : fields.pSearchRoot = true
  · simp only [if_pos hasRoot, Exec.bind_eq_ok] at returns
    obtain ⟨removed, removes, ⟨found, searchRoot⟩, deletes, _, pruned, freed, frees, returns⟩ :=
      returns
    cases activeChainRemoveChildren_none removes
    cases freeChildren_none frees
    cases pruned
    cases returns
    exact ⟨rfl, rfl, rfl, .of_tdelete live deletes⟩
  · simp only [if_neg hasRoot, Exec.ok_bind, Exec.bind_eq_ok] at returns
    obtain ⟨freed, frees, returns⟩ := returns
    cases freeChildren_none frees
    cases returns
    exact ⟨rfl, rfl, rfl, .refl _ _ _⟩

/-- What `list_remove` does to a chain without children. -/
theorem listRemove_childless {chain : Ptr} {head : Member (BlockInfo Hash)}
    (live : list.nodes chain = some head) (childless : head.firstChild = none)
    (returns : listRemove fuel list chain = .ok after) :
    (∀ p, p ≠ chain → after.nodes p = list.nodes p) ∧ Remains list.nodes after.nodes ∧
      after.next = list.next ∧
      Pruned list.nodes (· = head.val.hash) list.searchRoot after.searchRoot := by
  rw [listRemove] at returns
  by_cases listed : chain ∈ list.chains
  · simp only [if_pos listed, Exec.bind_eq_ok] at returns
    obtain ⟨freed, frees, returns⟩ := returns
    cases returns
    obtain ⟨nodes, next, -, pruned⟩ := activeChainFree_childless live childless frees
    simp only [nodes, next]
    exact ⟨fun p other => Heap.release_of_ne other, remains_release _ _, trivial, pruned⟩
  · rw [if_neg listed] at returns
    cases returns
    exact ⟨fun _ _ => rfl, fun _ _ live => live, rfl, .refl _ _ _⟩

/-! ## A new block -/

/-- The list gained the block of a header; a dropped node may be gone, the other nodes are
relinked, and the index lost at most entries with the hash of the block. -/
structure Entered (hash : Hash) (hdr : SatoshiBlockHeader Hash) (dropped : Ptr → Prop)
    (before after : ActiveChainList Hash) : Prop where
  next : after.next = before.next + 1
  links : after.Links
  entered : ∃ member, after.nodes before.next = some member ∧ member.val.hash = hash ∧
    member.val.hdr = some hdr
  origin : ∀ p member, p ≠ before.next → after.nodes p = some member →
    ∃ old, before.nodes p = some old ∧ SameBlock old member
  kept : ∀ p old, ¬ dropped p → before.nodes p = some old →
    ∃ member, after.nodes p = some member ∧ SameBlock old member
  index : Pruned before.nodes (· = hash) before.searchRoot after.searchRoot
  searchable : before.Searchable → after.Searchable

omit [DecidableEq Hash] in
theorem newOrphan_entered {hash : Hash} {hdr : SatoshiBlockHeader Hash} (links : list.Links) :
    Entered hash hdr (fun _ => False) list (newOrphan env list hash hdr) := by
  have stored : (newOrphan env list hash hdr).nodes list.next =
      some ⟨⟨hash, some hdr, 0⟩, none, none, none⟩ := Heap.write_same
  have others : ∀ p, p ≠ list.next → (newOrphan env list hash hdr).nodes p = list.nodes p := by
    intro p other
    exact (Heap.write_of_ne other).trans (Heap.write_of_ne other)
  constructor
  case next => rfl
  case links =>
    refine ⟨fun p member live => ?_, fun p entry => Nat.lt_succ_of_lt (links.entries p entry)⟩
    by_cases here : p = list.next
    · rw [here, stored] at live
      cases live
      rw [here]
      exact ⟨Nat.lt_succ_self _, (fun _ points => nomatch points), (fun _ points => nomatch points)⟩
    · rw [others p here] at live
      exact (links.nodes.mono (Nat.le_succ _)) p member live
  case entered => exact ⟨_, stored, rfl, rfl⟩
  case origin =>
    intro p member other live
    rw [others p other] at live
    exact ⟨member, live, .refl member⟩
  case kept =>
    intro p old _ live
    have other : p ≠ list.next := Nat.ne_of_lt (links.nodes p old live).self
    exact ⟨old, (others p other).trans live, .refl old⟩
  case index => exact .refl _ _ _
  case searchable =>
    intro searchable
    refine searchable.transfer (List.Sublist.refl _) fun p entry old live => ⟨old, ?_, rfl⟩
    exact (others p (Nat.ne_of_lt (links.entries p entry))).trans live

/-- Relinking and a removal of the head after the block entered. -/
theorem Entered.release {hash : Hash} {hdr : SatoshiBlockHeader Hash} {head : Ptr}
    {cell : Member (BlockInfo Hash)} {middle : ActiveChainList Hash}
    (entered : Entered hash hdr (fun _ => False) list middle) (links : list.Links)
    (headLive : list.nodes head = some cell) (headHash : cell.val.hash = hash)
    (absent : list.Searchable → head ∉ middle.searchRoot) {nodes : Heap (BlockInfo Hash)} {top : Member (BlockInfo Hash)}
    (relinked : Relinked middle.nodes nodes) (topLive : nodes head = some top)
    (childless : top.firstChild = none)
    (removes : listRemove fuel { middle with nodes } head = .ok after) :
    Entered hash hdr (· = head) list after := by
  obtain ⟨same, remains, next, pruned⟩ := listRemove_childless topLive childless removes
  have headOld : head ≠ list.next := Nat.ne_of_lt (links.nodes head cell headLive).self
  have topHash : top.val.hash = hash := by
    obtain ⟨old, oldLive, oldSame⟩ := relinked.origin topLive
    obtain ⟨first, firstLive, firstSame⟩ := entered.origin head old headOld oldLive
    rw [headLive] at firstLive
    cases firstLive
    rw [oldSame.hash, firstSame.hash, headHash]
  constructor
  case next => exact next.trans entered.next
  case links =>
    refine ⟨fun p member live => ?_, fun p entry => ?_⟩
    · rw [next]
      exact relinked.links _ entered.links.nodes p member (remains p member live)
    · rw [next]
      exact entered.links.entries p (pruned.subset p entry)
  case entered =>
    obtain ⟨member, live, memberHash, memberHdr⟩ := entered.entered
    obtain ⟨now, nowLive, sameBlock⟩ := relinked.live live
    exact ⟨now, (same _ (Ne.symm headOld)).trans nowLive, sameBlock.hash.trans memberHash,
      sameBlock.hdr.trans memberHdr⟩
  case origin =>
    intro p member other live
    obtain ⟨old, oldLive, oldSame⟩ := relinked.origin (remains p member live)
    obtain ⟨first, firstLive, firstSame⟩ := entered.origin p old other oldLive
    exact ⟨first, firstLive, firstSame.trans oldSame⟩
  case kept =>
    intro p old notHead live
    obtain ⟨first, firstLive, firstSame⟩ := entered.kept p old (fun impossible => impossible) live
    obtain ⟨now, nowLive, nowSame⟩ := relinked.live firstLive
    exact ⟨now, (same p notHead).trans nowLive, firstSame.trans nowSame⟩
  case index =>
    refine Pruned.trans entered.index ?_ (fun _ same => same) (fun _ same => same)
    refine ⟨pruned.sublist, fun p inside stays => pruned.kept p inside fun now nowLive => ?_⟩
    obtain ⟨old, oldLive, oldSame⟩ := relinked.origin nowLive
    have inUse := entered.index.subset p inside
    obtain ⟨first, firstLive, firstSame⟩ := entered.origin p old
      (Nat.ne_of_lt (links.entries p inUse)) oldLive
    rw [topHash, oldSame.hash, firstSame.hash]
    exact stays first firstLive
  case searchable =>
    intro searchable
    refine (entered.searchable searchable).transfer pruned.sublist fun p entry old oldLive => ?_
    obtain ⟨now, nowLive, nowSame⟩ := relinked.live oldLive
    have other : p ≠ head := by
      rintro rfl
      exact absent searchable (pruned.subset p entry)
    exact ⟨now, (same p other).trans nowLive, nowSame.hash⟩

/-- The missing parent of a chain arrives. -/
theorem chainSubRules_entered {head : Ptr} {cell : Member (BlockInfo Hash)} {hash : Hash}
    {hdr : SatoshiBlockHeader Hash} (links : list.Links) (headLive : list.nodes head = some cell)
    (headHash : cell.val.hash = hash)
    (returns : chainSubRules fuel env list head hash hdr = .ok after) :
    Entered hash hdr (· = head) list after := by
  simp only [chainSubRules, Exec.bind_eq_ok] at returns
  obtain ⟨removed, removes, owner, -, claimed, claims, ⟨updated, _⟩, updates, top, readsTop,
    rest⟩ := returns
  obtain ⟨pruned, removedEq⟩ := listSearchTreeRemove_pruned headLive removes
  rw [headHash] at pruned
  have sameNodes : removed.nodes = list.nodes := by rw [removedEq]
  have sameNext : removed.next = list.next := by rw [removedEq]
  have removedLinks : removed.Links := by
    refine ⟨?_, fun p entry => ?_⟩
    · rw [sameNodes, sameNext]
      exact links.nodes
    · rw [sameNext]
      exact links.entries p (pruned.subset p entry)
  have absent : list.Searchable → head ∉ removed.searchRoot := fun searchable inside =>
    listSearchTreeRemove_absent searchable headLive removes head inside cell headLive rfl
  have entered : Entered hash hdr (fun _ => False) removed (newOrphan env removed hash hdr) :=
    newOrphan_entered removedLinks
  have enteredList : Entered hash hdr (fun _ => False) list (newOrphan env removed hash hdr) := by
    obtain ⟨next, newLinks, block, origin, kept, index, searchable⟩ := entered
    rw [sameNodes, sameNext] at origin
    rw [sameNext] at next block
    rw [sameNodes] at kept index
    exact ⟨next, newLinks, block, origin, kept,
      pruned.trans index (fun _ same => same) (fun _ same => same),
      fun before => searchable (listSearchTreeRemove_searchable headLive removes before)⟩
  have topLive := Heap.read_eq_ok.1 readsTop
  have emptied : Relinked updated (updated.write head { top with firstChild := none }) :=
    relinked_setFirstChild topLive fun _ _ _ points => nomatch points
  have relinked := (claimChildren_relinked claims).trans (blockInfoUpdate_relinked.1 updates)
  exact enteredList.release links headLive headHash absent (relinked.trans emptied) Heap.write_same rfl
    rest

end BitcoinClib.Chains
