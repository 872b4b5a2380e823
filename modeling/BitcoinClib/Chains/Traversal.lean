import BitcoinClib.Chains.ActiveChain
import BitcoinClib.Chains.QueueRuns

/-!
Contract: which nodes the breadth-first traversal reaches.

Owns:
- `traverseTrace`, the loop with the nodes its action is applied to;
- the number of pointers in the queue along the loop;
- `searchTreeTraverseBFS_iff`, for which families the traversal reaches every node.

Does not own: what the actions do to the search index.
-/

namespace BitcoinClib.Chains

open BitcoinClib.Lib

variable {Hash : Type} [DecidableEq Hash]

/-- `traverseLoop` with the nodes the action was applied to, in order. -/
def traverseTrace (type : TraverseActionType) (nodes : Heap (BlockInfo Hash)) :
    Nat → ClibQueue Ptr → List Ptr → Exec (List Ptr × List Ptr)
  | 0, _, _ => .timeout
  | fuel + 1, queue, searchRoot => do
      let (left, queue) ← queue.leave
      match left with
      | none => do
          Exec.assert (queue.length = 0)
          .ok (searchRoot, [])
      | some node => do
          let searchRoot ← traverseAction type nodes searchRoot node
          let cell ← nodes.read node
          let queue ← enterSiblings fuel nodes queue cell.nextSibling
          let queue ← queue.enter cell.firstChild
          let (searchRoot, visited) ← traverseTrace type nodes fuel queue searchRoot
          .ok (searchRoot, node :: visited)

/-- `search_tree_traverse_BFS` with the nodes the action was applied to. -/
def searchTreeTraverseTrace (fuel : Nat) (type : TraverseActionType)
    (nodes : Heap (BlockInfo Hash)) (searchRoot : List Ptr) (node : Ptr) :
    Exec (List Ptr × List Ptr) := do
  let queue ← ClibQueue.init 100
  let queue ← queue.enter (some node)
  traverseTrace type nodes fuel queue searchRoot

/-- The loop does the same without the trace. -/
theorem traverseLoop_of_trace {type : TraverseActionType} {nodes : Heap (BlockInfo Hash)} :
    ∀ {fuel : Nat} {queue : ClibQueue Ptr} {searchRoot after visited : List Ptr},
      traverseTrace type nodes fuel queue searchRoot = .ok (after, visited) →
        traverseLoop type nodes fuel queue searchRoot = .ok after
  | 0, _, _, _, _, returns => nomatch returns
  | fuel + 1, queue, searchRoot, after, visited, returns => by
      rw [traverseTrace, Exec.bind_eq_ok] at returns
      obtain ⟨⟨left, queue⟩, leaves, returns⟩ := returns
      rw [traverseLoop, leaves, Exec.ok_bind]
      cases left with
      | none =>
          simp only [Exec.bind_eq_ok] at returns ⊢
          obtain ⟨done, checked, same⟩ := returns
          cases same
          exact ⟨done, checked, rfl⟩
      | some node =>
          simp only [Exec.bind_eq_ok] at returns ⊢
          obtain ⟨entered, acts, cell, reads, beside, siblings, below, child, ⟨last, others⟩, rest,
            same⟩ := returns
          cases same
          exact ⟨entered, acts, cell, reads, beside, siblings, below, child,
            traverseLoop_of_trace rest⟩

/-- The traversal ends with an empty queue, and its action was applied to the nodes of the
family and to no other node. -/
def CoversFamily (type : TraverseActionType) (nodes : Heap (BlockInfo Hash))
    (searchRoot : List Ptr) (node : Ptr) (family : Forest (BlockInfo Hash)) : Prop :=
  ∃ fuel after visited, searchTreeTraverseTrace fuel type nodes searchRoot node =
    .ok (after, visited) ∧ ∀ p, p ∈ visited ↔ p ∈ family.ids

/-! ## The number of pointers in the queue -/

namespace ClibQueue

variable {α : Type} {queue after : ClibQueue α} {node : Option α}

theorem enter_length (enters : queue.enter node = .ok after) : after.length = queue.length + 1 := by
  rw [ClibQueue.enter, Exec.bind_eq_ok] at enters
  obtain ⟨grown, resizes, enters⟩ := enters
  have same : grown.length = queue.length := by
    rw [resize, Exec.bind_eq_ok] at resizes
    obtain ⟨size, -, resizes⟩ := resizes
    by_cases fits : size ≤ queue.maxSize
    · rw [if_pos fits] at resizes
      cases resizes
      rfl
    · rw [if_neg fits, reallocated] at resizes
      split at resizes
      · cases resizes
      split at resizes
      · cases resizes
      · cases resizes
        rfl
  dsimp only at enters
  split at enters
  · cases enters
  · rw [Exec.bind_eq_ok] at enters
    obtain ⟨cells, -, written⟩ := enters
    cases written
    exact congrArg (· + 1) same

theorem leave_length (leaves : queue.leave = .ok (node, after)) :
    after.length = queue.length - 1 := by
  rw [ClibQueue.leave] at leaves
  split at leaves
  · cases leaves
    omega
  · rw [Exec.bind_eq_ok] at leaves
    obtain ⟨cell, -, read⟩ := leaves
    cases read
    rfl

end ClibQueue

omit [DecidableEq Hash] in
theorem enterSiblings_length {nodes : Heap (BlockInfo Hash)} {fuel : Nat}
    {queue after : ClibQueue Ptr} {sibling : Option Ptr}
    (enters : enterSiblings fuel nodes queue sibling = .ok after) :
    queue.length ≤ after.length ∧ (sibling ≠ none → queue.length < after.length) := by
  induction fuel generalizing queue sibling with
  | zero => cases enters
  | succ fuel inductionHypothesis =>
      cases sibling with
      | none =>
          rw [enterSiblings] at enters
          cases enters
          exact ⟨le_refl _, fun sibling => absurd rfl sibling⟩
      | some sibling =>
          simp only [enterSiblings, Exec.bind_eq_ok] at enters
          obtain ⟨next, first, cell, -, rest⟩ := enters
          have longer := ClibQueue.enter_length first
          have more := (inductionHypothesis rest).1
          exact ⟨by omega, fun _ => by omega⟩

/-- A loop that ends found one pointer in its queue. -/
theorem traverseLoop_length {type : TraverseActionType} {nodes : Heap (BlockInfo Hash)} :
    ∀ {fuel : Nat} {queue : ClibQueue Ptr} {searchRoot after : List Ptr},
      traverseLoop type nodes fuel queue searchRoot = .ok after → queue.length ≤ 1
  | 0, _, _, _, returns => nomatch returns
  | fuel + 1, queue, searchRoot, after, returns => by
      rw [traverseLoop, Exec.bind_eq_ok] at returns
      obtain ⟨⟨left, rest⟩, leaves, returns⟩ := returns
      have shorter := ClibQueue.leave_length leaves
      cases left with
      | none =>
          simp only [Exec.bind_eq_ok, Exec.assert_eq_ok] at returns
          obtain ⟨_, empty, -⟩ := returns
          omega
      | some node =>
          simp only [Exec.bind_eq_ok] at returns
          obtain ⟨_, -, cell, -, beside, siblings, below, child, returns⟩ := returns
          have few := traverseLoop_length returns
          have more := (enterSiblings_length siblings).1
          have longer := ClibQueue.enter_length child
          omega

/-! ## Single paths -/

section

variable {type : TraverseActionType} {nodes : Heap (BlockInfo Hash)}

/-- The action on a live node returns and leaves live entries. -/
theorem traverseAction_returns {searchRoot : List Ptr} {node : Ptr} {cell : Member (BlockInfo Hash)}
    (live : SearchTree.Live (nodeHash nodes) searchRoot) (present : nodes node = some cell) :
    ∃ after, traverseAction type nodes searchRoot node = .ok after ∧
      SearchTree.Live (nodeHash nodes) after := by
  have key : nodeHash nodes node = .ok cell.val.hash := by
    rw [nodeHash, Heap.read_eq present, Exec.ok_bind]
  obtain ⟨found, finds⟩ := SearchTree.tfind_returns (k := cell.val.hash) live
  cases type with
  | add =>
      cases found with
      | some other =>
          refine ⟨searchRoot, ?_, live⟩
          rw [traverseAction, SearchTree.tsearch, key, Exec.ok_bind, finds]
          rfl
      | none =>
          refine ⟨node :: searchRoot, ?_, ?_⟩
          · rw [traverseAction, SearchTree.tsearch, key, Exec.ok_bind, finds]
            rfl
          · intro entry member
            rcases List.mem_cons.1 member with rfl | old
            · exact ⟨_, key⟩
            · exact live entry old
  | remove =>
      cases found with
      | some other =>
          refine ⟨searchRoot.erase other, ?_, live.subset fun _ => List.mem_of_mem_erase⟩
          rw [traverseAction, SearchTree.tdelete, key, Exec.ok_bind, finds]
          rfl
      | none =>
          refine ⟨searchRoot, ?_, live⟩
          rw [traverseAction, SearchTree.tdelete, key, Exec.ok_bind, finds]
          rfl

/-- The queue of a traversal of a single path: it holds the next node or NULL. -/
structure NextOnly (queue : ClibQueue Ptr) (next : Option Ptr) : Prop where
  holds : queue.Holds [next]
  size : queue.maxSize = clibQueueAllocSize

theorem NextOnly.start (node : Ptr) :
    ∃ fresh queue : ClibQueue Ptr, ClibQueue.init 100 = .ok fresh ∧
      fresh.enter (some node) = .ok queue ∧ NextOnly queue (some node) := by
  have rounds : ClibQueue.roundedSize 100 = .ok clibQueueAllocSize := by decide
  have holds : (ClibQueue.fresh clibQueueAllocSize : ClibQueue Ptr).Holds [] :=
    ClibQueue.fresh_holds (by decide) (Nat.dvd_refl _)
  obtain ⟨queue, enters, entered, -, size⟩ :=
    holds.enter ⟨Or.inl (by decide), by decide⟩ (some node)
  exact ⟨_, queue, ClibQueue.init_eq rounds (by decide) (by decide), enters, entered,
    size (by decide)⟩

/-- A node leaves and the next one enters. -/
theorem NextOnly.step {queue : ClibQueue Ptr} {node : Ptr} (only : NextOnly queue (some node))
    (next : Option Ptr) :
    ∃ empty after : ClibQueue Ptr, queue.leave = .ok (some node, empty) ∧
      empty.enter next = .ok after ∧ NextOnly after next := by
  obtain ⟨empty, leaves, holds, sameSize, -⟩ := only.holds.leave
  have start := holds.slice.start_lt
  have length := holds.length
  rw [holds.size, sameSize, only.size, clibQueueAllocSize] at start
  rw [List.length_nil] at length
  have room : empty.length < empty.maxSize := by
    rw [length, sameSize, only.size]
    decide
  obtain ⟨after, enters, entered, -, size⟩ := holds.enter ⟨Or.inl room, by omega⟩ next
  exact ⟨empty, after, leaves, enters, entered, (size room).trans (sameSize.trans only.size)⟩

/-- NULL leaves, and the queue is empty. -/
theorem NextOnly.last {queue : ClibQueue Ptr} (only : NextOnly queue none) :
    ∃ empty, queue.leave = .ok (none, empty) ∧ empty.length = 0 := by
  obtain ⟨empty, leaves, holds, -⟩ := only.holds.leave
  exact ⟨empty, leaves, holds.length⟩

/-- The loop visits a single path from its first node to its last one. -/
theorem traverseTrace_straight :
    ∀ {family : Forest (BlockInfo Hash)} {queue : ClibQueue Ptr} {searchRoot : List Ptr},
      family.Straight → family.Holds nodes → NextOnly queue family.first →
      SearchTree.Live (nodeHash nodes) searchRoot →
        ∃ fuel after, traverseTrace type nodes (fuel + 1) queue searchRoot =
          .ok (after, family.ids)
  | .nil, queue, searchRoot, _, _, only, _ => by
      obtain ⟨empty, leaves, length⟩ := only.last
      refine ⟨0, searchRoot, ?_⟩
      rw [traverseTrace, leaves, Exec.ok_bind]
      dsimp only
      rw [Exec.assert_of length]
      rfl
  | .node id val parent children siblings, queue, searchRoot, straight, held, only, live => by
      obtain ⟨alone, below⟩ := straight
      obtain ⟨here, heldBelow, -⟩ := held
      rw [alone] at here ⊢
      obtain ⟨empty, next, leaves, enters, nextOnly⟩ := only.step children.first
      obtain ⟨entered, acts, enteredLive⟩ := traverseAction_returns live here
      obtain ⟨fuel, after, rest⟩ := traverseTrace_straight below heldBelow nextOnly enteredLive
      refine ⟨fuel + 1, after, ?_⟩
      rw [traverseTrace, leaves, Exec.ok_bind]
      dsimp only
      rw [acts, Exec.ok_bind, Heap.read_eq here, Exec.ok_bind, Forest.first_nil, enterSiblings,
        Exec.ok_bind, enters, Exec.ok_bind, rest]
      simp

/-- A family whose traversal ends is a single path. -/
theorem straight_of_returns :
    ∀ {family : Forest (BlockInfo Hash)} {fuel : Nat} {queue : ClibQueue Ptr}
      {searchRoot after : List Ptr},
      family.Holds nodes → NextOnly queue family.first →
      traverseLoop type nodes fuel queue searchRoot = .ok after → family.Straight
  | .nil, _, _, _, _, _, _, _ => trivial
  | .node .., 0, _, _, _, _, _, returns => nomatch returns
  | .node id val parent children siblings, fuel + 1, queue, searchRoot, after, held, only,
      returns => by
      obtain ⟨here, heldBelow, -⟩ := held
      obtain ⟨empty, next, leaves, enters, nextOnly⟩ := only.step children.first
      rw [traverseLoop, leaves, Exec.ok_bind] at returns
      simp only [Exec.bind_eq_ok, Heap.read_eq here, Exec.ok.injEq, exists_eq_left'] at returns
      obtain ⟨entered, -, beside, entersSiblings, below, entersChild, rest⟩ := returns
      have few := traverseLoop_length rest
      have longer := ClibQueue.enter_length entersChild
      have more := (enterSiblings_length entersSiblings).2
      -- a sibling would be in the queue together with the first child
      have alone : siblings.first = none := by
        by_contra sibling
        have further := more sibling
        omega
      have nilBeside : siblings = .nil := Forest.eq_nil_of_first alone
      refine ⟨nilBeside, ?_⟩
      rw [alone] at entersSiblings
      cases fuel with
      | zero => cases entersSiblings
      | succ fuel =>
          cases entersSiblings
          rw [enters] at entersChild
          cases entersChild
          exact straight_of_returns heldBelow nextOnly rest

end

variable {type : TraverseActionType} {nodes : Heap (BlockInfo Hash)} {searchRoot : List Ptr}
  {id : Ptr} {val : BlockInfo Hash} {parent : Option Ptr}
  {children siblings : Forest (BlockInfo Hash)}

theorem straight_of_traversal {fuel : Nat} {after : List Ptr}
    (held : (Forest.node id val parent children siblings).Holds nodes)
    (returns : searchTreeTraverseBFS fuel type nodes searchRoot id = .ok after) :
    (Forest.node id val parent children siblings).Straight := by
  obtain ⟨fresh, queue, starts, enters, only⟩ := NextOnly.start id
  rw [searchTreeTraverseBFS, starts, Exec.ok_bind, enters, Exec.ok_bind] at returns
  exact straight_of_returns held only returns

theorem CoversFamily.straight {family : Forest (BlockInfo Hash)}
    (held : (Forest.node id val parent children siblings).Holds nodes)
    (covers : CoversFamily type nodes searchRoot id family) :
    (Forest.node id val parent children siblings).Straight := by
  obtain ⟨fuel, after, visited, returns, -⟩ := covers
  simp only [searchTreeTraverseTrace, Exec.bind_eq_ok] at returns
  obtain ⟨fresh, starts, queue, enters, returns⟩ := returns
  have traverses : searchTreeTraverseBFS fuel type nodes searchRoot id = .ok after := by
    rw [searchTreeTraverseBFS, starts, Exec.ok_bind, enters, Exec.ok_bind]
    exact traverseLoop_of_trace returns
  exact straight_of_traversal held traverses

/-- The traversal reaches every node of a family where no node of the family has a sibling behind
it, and does not end in any other family. -/
theorem searchTreeTraverseBFS_iff (type : TraverseActionType)
    (live : SearchTree.Live (nodeHash nodes) searchRoot)
    (held : (Forest.node id val parent children siblings).Holds nodes) :
    (CoversFamily type nodes searchRoot id (.node id val parent children siblings) ↔
      (Forest.node id val parent children siblings).Straight) ∧
    ∀ fuel after, searchTreeTraverseBFS fuel type nodes searchRoot id = .ok after →
      (Forest.node id val parent children siblings).Straight := by
  refine ⟨⟨CoversFamily.straight held, fun straight => ?_⟩,
    fun fuel after => straight_of_traversal held⟩
  obtain ⟨fresh, queue, starts, enters, only⟩ := NextOnly.start id
  obtain ⟨fuel, after, returns⟩ := traverseTrace_straight straight held only live
  refine ⟨fuel + 1, after, _, ?_, fun _ => Iff.rfl⟩
  rw [searchTreeTraverseTrace, starts, Exec.ok_bind, enters, Exec.ok_bind]
  exact returns

/-- A node with one child. -/
theorem searchTreeTraverseBFS_path : CoversFamily .remove
    (fun p => if p = 1 then some ⟨(⟨10, none, 0⟩ : BlockInfo Nat), none, some 2, none⟩
      else if p = 2 then some ⟨⟨20, none, 0⟩, some 1, none, none⟩ else none) [2] 1
    (.node 1 ⟨10, none, 0⟩ none (.node 2 ⟨20, none, 0⟩ (some 1) .nil .nil) .nil) := by
  refine (searchTreeTraverseBFS_iff .remove ?_ ?_).1.2 ?_
  · intro entry member
    rw [List.mem_singleton.1 member]
    exact ⟨20, rfl⟩
  · exact ⟨rfl, ⟨rfl, trivial, trivial⟩, trivial⟩
  · exact ⟨rfl, rfl, trivial⟩

/-- A node with one sibling behind it. -/
theorem searchTreeTraverseBFS_siblings : ¬ CoversFamily .add
    (fun p => if p = 1 then some ⟨(⟨10, none, 0⟩ : BlockInfo Nat), none, none, some 2⟩
      else if p = 2 then some ⟨⟨20, none, 0⟩, none, none, none⟩ else none) [] 1
    (.node 1 ⟨10, none, 0⟩ none .nil (.node 2 ⟨20, none, 0⟩ none .nil .nil)) := by
  intro covers
  have straight : (Forest.node 1 (⟨10, none, 0⟩ : BlockInfo Nat) none .nil
      (.node 2 ⟨20, none, 0⟩ none .nil .nil)).Straight :=
    covers.straight ⟨rfl, trivial, rfl, trivial, trivial⟩
  cases straight.1

end BitcoinClib.Chains
