import BitcoinClib.Chains.Reweighing

/-!
Contract: what the functions on links do to a heap of tagged nodes.

Owns:
- `Stores`, that every node stores what it stored;
- that a new child and a new first child keep the nodes tagged;
- that `claimChildren` ends with an only child or not at all.

Does not own: what the tags are. All rules speak about operations that returned.
-/

namespace BitcoinClib.Chains

open BitcoinClib.Lib

variable {Hash : Type} {W : Type} {attr : BlockInfo Hash → W} {fits : W → BlockInfo Hash → Prop}
  {fuel : Nat} {nodes after : Heap (BlockInfo Hash)} {above : Ptr → W} {loose : Ptr → Prop}
  {p q : Ptr}

/-! ## Functions on links -/

/-- What every node stores is what it stored. -/
abbrev Stores (before after : Heap (BlockInfo Hash)) : Prop :=
  ∀ p new, after p = some new → ∃ old, before p = some old ∧ new.val = old.val

theorem Stores.trans {before middle : Heap (BlockInfo Hash)} (left : Stores before middle)
    (right : Stores middle after) : Stores before after := by
  intro p new live
  obtain ⟨between, betweenLive, second⟩ := right p new live
  obtain ⟨old, oldLive, first⟩ := left p between betweenLive
  exact ⟨old, oldLive, second.trans first⟩

/-- A parent is written. -/
theorem thinned_setParent {member : Member (BlockInfo Hash)} (live : nodes p = some member)
    (parent : Option Ptr) : Thinned nodes (nodes.write p { member with parent }) :=
  .write live rfl (fun _ points => points) fun _ points => points

theorem stores_setFirstChild {member : Member (BlockInfo Hash)} (live : nodes p = some member)
    (firstChild : Option Ptr) : Stores nodes (nodes.write p { member with firstChild }) :=
  stored_write live rfl

theorem stores_setNextSibling {member : Member (BlockInfo Hash)} (live : nodes p = some member)
    (nextSibling : Option Ptr) : Stores nodes (nodes.write p { member with nextSibling }) :=
  stored_write live rfl

/-- All siblings have the same from above. -/
theorem lastSibling_above (inherits : Inherits attr nodes above)
    (returns : lastSibling fuel nodes p = .ok q) : above q = above p := by
  induction fuel generalizing p with
  | zero => cases returns
  | succ fuel inductionHypothesis =>
      rw [lastSibling, Exec.bind_eq_ok] at returns
      obtain ⟨node, reads, returns⟩ := returns
      cases sibling : node.nextSibling with
      | none =>
          simp only [sibling] at returns
          cases returns
          rfl
      | some next =>
          simp only [sibling] at returns
          have points : nodes.target (.sibling p) = some next :=
            (Heap.target_sibling (Heap.read_eq_ok.1 reads)).trans sibling
          have same : above p = above next := Option.some.inj (inherits _ _ points)
          exact (inductionHypothesis returns).trans same.symm

/-- A child is added below a node whose tag it has from above. -/
theorem blockInfoAddChild_tagged {parent child : Ptr} {owner : Member (BlockInfo Hash)}
    (tagged : Tagged attr fits nodes above loose) (unlinked : Unlinked nodes child)
    (ownerLive : nodes parent = some owner)
    (base : above child = attr owner.val)
    (returns : blockInfoAddChild fuel nodes parent child = .ok after) :
    Tagged attr fits after above loose ∧ Stores nodes after ∧
      ∀ slot q, after.target slot = some q → nodes.target slot = some q ∨ q = child := by
  rw [blockInfoAddChild, Heap.read_eq ownerLive, Exec.ok_bind] at returns
  cases first : owner.firstChild with
  | none =>
      simp only [first, Exec.ok_bind, Exec.bind_eq_ok] at returns
      obtain ⟨cell, reads, returns⟩ := returns
      cases returns
      have stored := stores_setFirstChild ownerLive (some child)
      have targets : ∀ slot q, (nodes.write parent { owner with
          firstChild := some child }).target slot = some q →
          nodes.target slot = some q ∨ slot = .child parent ∧ q = child := by
        intro slot q points
        rw [target_setFirstChild ownerLive] at points
        split at points
        next same => exact .inr ⟨same, (Option.some.inj points).symm⟩
        next => exact .inl points
      have linked := tagged.attach unlinked stored targets
        (by rw [Heap.bequest_child ownerLive, base])
      have hung := thinned_setParent (Heap.read_eq_ok.1 reads) (some parent)
      refine ⟨linked.thinned hung, Stores.trans stored hung.stored, fun slot q points => ?_⟩
      exact (targets slot q (hung.targets slot q points)).imp_right And.right
  | some firstChild =>
      simp only [first, Exec.ok_bind, Exec.bind_eq_ok] at returns
      obtain ⟨sibling, finds, node, readsSibling, cell, reads, returns⟩ := returns
      cases returns
      have siblingLive := Heap.read_eq_ok.1 readsSibling
      have stored := stores_setNextSibling siblingLive (some child)
      have targets : ∀ slot q, (nodes.write sibling { node with
          nextSibling := some child }).target slot = some q →
          nodes.target slot = some q ∨ slot = .sibling sibling ∧ q = child := by
        intro slot q points
        rw [target_setNextSibling siblingLive] at points
        split at points
        next same => exact .inr ⟨same, (Option.some.inj points).symm⟩
        next => exact .inl points
      -- the last sibling hangs below the parent, as the first child does
      have firstBase := tagged.inherits (.child parent) firstChild
        ((Heap.target_child ownerLive).trans first)
      rw [Heap.bequest_child ownerLive, ← base] at firstBase
      have siblingBase := lastSibling_above tagged.inherits finds
      have linked := tagged.attach unlinked stored targets
        (congrArg some (siblingBase.trans (Option.some.inj firstBase).symm))
      have hung := thinned_setParent (Heap.read_eq_ok.1 reads) (some parent)
      refine ⟨linked.thinned hung, Stores.trans stored hung.stored, fun slot q points => ?_⟩
      exact (targets slot q (hung.targets slot q points)).imp_right And.right

/-- The loop finds the node in front of `heir`, a sibling of the node it starts from. -/
theorem previousSibling_above {start prev heir : Ptr}
    (inherits : Inherits attr nodes above)
    (returns : previousSibling fuel nodes (some start) heir = .ok (some prev)) :
    above prev = above start ∧ nodes.target (.sibling prev) = some heir := by
  induction fuel generalizing start with
  | zero => cases returns
  | succ fuel inductionHypothesis =>
      rw [previousSibling, Exec.bind_eq_ok] at returns
      obtain ⟨node, reads, returns⟩ := returns
      have live := Heap.read_eq_ok.1 reads
      by_cases found : node.nextSibling = some heir
      · rw [if_pos found] at returns
        cases returns
        exact ⟨rfl, (Heap.target_sibling live).trans found⟩
      · rw [if_neg found] at returns
        cases sibling : node.nextSibling with
        | none =>
            rw [sibling] at returns
            cases fuel <;> cases returns
        | some next =>
            rw [sibling] at returns
            obtain ⟨same, points⟩ := inductionHypothesis returns
            have base : above start = above next :=
              Option.some.inj (inherits _ _ ((Heap.target_sibling live).trans sibling))
            exact ⟨same.trans base.symm, points⟩

/-- A child changes its place among its siblings. -/
theorem jumpToFirst_tagged {parent heir : Ptr} (tagged : Tagged attr fits nodes above loose)
    (returns : jumpToFirst fuel nodes parent heir = .ok after) :
    Tagged attr fits after above loose ∧ Stores nodes after := by
  rw [jumpToFirst, Exec.bind_eq_ok] at returns
  obtain ⟨owner, reads, returns⟩ := returns
  have ownerLive := Heap.read_eq_ok.1 reads
  by_cases isFirst : owner.firstChild = some heir
  · rw [if_pos isFirst] at returns
    cases returns
    exact ⟨tagged, fun p new live => ⟨new, live, rfl⟩⟩
  · rw [if_neg isFirst, Exec.bind_eq_ok] at returns
    obtain ⟨found, finds, returns⟩ := returns
    cases found with
    | none => cases returns
    | some prev =>
        simp only [Exec.bind_eq_ok] at returns
        obtain ⟨node, readsHeir, cell, readsPrev, again, readsAgain, top, readsTop, returns⟩ :=
          returns
        cases returns
        have heirLive := Heap.read_eq_ok.1 readsHeir
        have prevLive := Heap.read_eq_ok.1 readsPrev
        have againLive := Heap.read_eq_ok.1 readsAgain
        have topLive := Heap.read_eq_ok.1 readsTop
        obtain ⟨first, ownerChild⟩ : ∃ first, owner.firstChild = some first := by
          cases child : owner.firstChild with
          | some first => exact ⟨first, rfl⟩
          | none =>
              rw [child] at finds
              cases fuel <;> cases finds
        rw [ownerChild] at finds
        obtain ⟨prevBase, prevPoints⟩ := previousSibling_above tagged.inherits finds
        have childPoints : nodes.target (.child parent) = some first :=
          (Heap.target_child ownerLive).trans ownerChild
        have heirPoints : nodes.target (.sibling heir) = node.nextSibling :=
          Heap.target_sibling heirLive
        -- the three pointers go around
        let place : Slot → Slot := fun slot =>
          if slot = .child parent then .sibling prev
          else if slot = .sibling heir then .child parent
          else if slot = .sibling prev then .sibling heir else slot
        have targets : ∀ slot, Heap.target (Heap.write (Heap.write (nodes.write prev
            { cell with nextSibling := node.nextSibling }) heir
            { again with nextSibling := owner.firstChild }) parent
            { top with firstChild := some heir }) slot = nodes.target (place slot) := by
          intro slot
          rw [target_setFirstChild topLive, target_setNextSibling againLive,
            target_setNextSibling prevLive]
          change _ = nodes.target (if slot = .child parent then _ else _)
          split
          next => exact prevPoints.symm
          next =>
            split
            next => rw [ownerChild, childPoints]
            next =>
              split
              next => exact heirPoints.symm
              next => rfl
        have stores := ((stores_setNextSibling prevLive node.nextSibling).trans
          (stores_setNextSibling againLive owner.firstChild)).trans
          (stores_setFirstChild topLive (some heir))
        -- all of them pass on the tag of the parent
        have heirBase : above prev = above heir :=
          Option.some.inj (tagged.inherits _ _ prevPoints)
        have places : ∀ slot, nodes.bequest attr above (place slot) =
            nodes.bequest attr above slot := by
          intro slot
          change nodes.bequest _ _ (if slot = .child parent then _ else _) = _
          have parentBase := tagged.inherits _ _ childPoints
          split
          next same =>
            rw [same, parentBase]
            exact congrArg some prevBase
          next =>
            split
            next same =>
              rw [same, parentBase]
              exact congrArg some (prevBase.symm.trans heirBase)
            next =>
              split
              next same =>
                rw [same]
                exact congrArg some heirBase.symm
              next => rfl
        refine ⟨tagged.of_stored (tagged.oneLink.moved place ?_ ?_) ?_ stores, stores⟩
        case refine_1 =>
          intro slot other same
          change (if slot = .child parent then _ else _) = (if other = .child parent then _ else _)
            at same
          split_ifs at same <;> simp_all
        case refine_2 =>
          intro slot q points
          exact (targets slot).symm.trans points
        case refine_3 =>
          intro slot q points
          rw [Inherits.bequest_stored stores points, ← places]
          exact tagged.inherits _ _ ((targets slot).symm.trans points)

theorem blockInfoDeclareInheritance_tagged {heir : Ptr}
    (tagged : Tagged attr fits nodes above loose)
    (returns : blockInfoDeclareInheritance fuel nodes heir = .ok after) :
    Tagged attr fits after above loose ∧ Stores nodes after := by
  induction fuel generalizing nodes heir with
  | zero => cases returns
  | succ fuel inductionHypothesis =>
      rw [blockInfoDeclareInheritance, Exec.bind_eq_ok] at returns
      obtain ⟨node, -, returns⟩ := returns
      cases parent : node.parent with
      | none =>
          rw [parent] at returns
          cases returns
          exact ⟨tagged, fun p new live => ⟨new, live, rfl⟩⟩
      | some owner =>
          simp only [parent, Exec.bind_eq_ok] at returns
          obtain ⟨jumped, jumps, rest⟩ := returns
          obtain ⟨jumpedTagged, first⟩ := jumpToFirst_tagged tagged jumps
          obtain ⟨afterTagged, second⟩ := inductionHypothesis jumpedTagged rest
          exact ⟨afterTagged, first.trans second⟩

/-! ## The children of a head -/

/-- Among siblings that go on for ever there is no last one. -/
theorem lastSibling_endless {inSet : Ptr → Prop}
    (endless : ∀ r, inSet r → ∃ next, nodes.target (.sibling r) = some next ∧ inSet next)
    (start : inSet p) : lastSibling fuel nodes p ≠ .ok q := by
  induction fuel generalizing p with
  | zero => exact fun returns => by cases returns
  | succ fuel inductionHypothesis =>
      intro returns
      rw [lastSibling, Exec.bind_eq_ok] at returns
      obtain ⟨node, reads, returns⟩ := returns
      obtain ⟨next, points, inside⟩ := endless p start
      rw [Heap.target_sibling (Heap.read_eq_ok.1 reads)] at points
      simp only [points] at returns
      exact inductionHypothesis inside returns

/-- The last sibling is the only one behind which there is none. -/
theorem lastSibling_last (returns : lastSibling fuel nodes p = .ok q) :
    ∀ r, SiblingsFrom nodes p r → r = q ∨ ∃ next, nodes.target (.sibling r) = some next := by
  induction fuel generalizing p with
  | zero => cases returns
  | succ fuel inductionHypothesis =>
      rw [lastSibling, Exec.bind_eq_ok] at returns
      obtain ⟨node, reads, returns⟩ := returns
      have points := Heap.target_sibling (Heap.read_eq_ok.1 reads)
      intro r sibling
      cases next : node.nextSibling with
      | none =>
          simp only [next] at returns
          cases returns
          exact .inl (sibling.alone (points.trans next))
      | some second =>
          simp only [next] at returns
          rcases sibling.next_step (points.trans next) with rfl | later
          · exact .inr ⟨second, points.trans next⟩
          · exact inductionHypothesis returns r later

/-- Where there are children, a new one is put behind the last. -/
theorem blockInfoAddChild_behind {parent child first : Ptr} {owner : Member (BlockInfo Hash)}
    (ownerLive : nodes parent = some owner) (isFirst : owner.firstChild = some first)
    (returns : blockInfoAddChild fuel nodes parent child = .ok after) :
    ∃ last node cell, lastSibling fuel nodes first = .ok last ∧ nodes last = some node ∧
      nodes.write last { node with nextSibling := some child } child = some cell ∧
      after = (nodes.write last { node with nextSibling := some child }).write child
        { cell with parent := some parent } := by
  rw [blockInfoAddChild, Heap.read_eq ownerLive, Exec.ok_bind] at returns
  simp only [isFirst, Exec.ok_bind, Exec.bind_eq_ok] at returns
  obtain ⟨last, finds, node, readsLast, cell, reads, returns⟩ := returns
  cases returns
  exact ⟨last, node, cell, finds, Heap.read_eq_ok.1 readsLast, Heap.read_eq_ok.1 reads, rfl⟩

/-- A second child is put behind itself, so the loop over the children does not end. -/
theorem claimChildren_second {orphan child second : Ptr}
    (first : nodes.target (.child orphan) = some child)
    (next : nodes.target (.sibling child) = some second) :
    claimChildren fuel nodes orphan (some second) ≠ .ok after := by
  cases fuel with
  | zero => exact fun returns => by cases returns
  | succ fuel =>
      intro returns
      rw [claimChildren, Exec.bind_eq_ok] at returns
      obtain ⟨joined, adds, returns⟩ := returns
      obtain ⟨now, readsNow, rest⟩ := Exec.bind_eq_ok.1 returns
      obtain ⟨owner, ownerLive⟩ := Heap.live_of_target first
      change nodes orphan = some owner at ownerLive
      have isFirst := (Heap.target_child ownerLive).symm.trans first
      obtain ⟨last, node, cell, finds, lastLive, cellLive, rfl⟩ :=
        blockInfoAddChild_behind ownerLive isFirst adds
      have siblings : ∀ r, Heap.target (Heap.write (nodes.write last
          { node with nextSibling := some second }) second
          { cell with parent := some orphan }) (.sibling r) =
          if r = last then some second else nodes.target (.sibling r) := by
        intro r
        rw [target_setParent cellLive, target_setNextSibling lastLive]
        simp only [Slot.sibling.injEq]
      have children : ∀ r, Heap.target (Heap.write (nodes.write last
          { node with nextSibling := some second }) second
          { cell with parent := some orphan }) (.child r) = nodes.target (.child r) := by
        intro r
        rw [target_setParent cellLive, target_setNextSibling lastLive, if_neg]
        rintro ⟨⟩
      generalize Heap.write (nodes.write last { node with nextSibling := some second }) second
        { cell with parent := some orphan } = joined at *
      -- every sibling has a next one now
      have endless : ∀ r, SiblingsFrom nodes child r →
          ∃ third, joined.target (.sibling r) = some third ∧ SiblingsFrom nodes child third := by
        intro r sibling
        rw [siblings]
        by_cases isLast : r = last
        · rw [if_pos isLast]
          exact ⟨second, rfl, .next .self next⟩
        · rw [if_neg isLast]
          obtain ⟨third, points⟩ := (lastSibling_last finds r sibling).resolve_left isLast
          exact ⟨third, points, .next sibling points⟩
      obtain ⟨third, points, -⟩ := endless second (.next .self next)
      rw [Heap.target_sibling (Heap.read_eq_ok.1 readsNow)] at points
      rw [points] at rest
      cases fuel with
      | zero => cases rest
      | succ fuel =>
          rw [claimChildren, Exec.bind_eq_ok] at rest
          obtain ⟨claimed, adds, -⟩ := rest
          have topFirst := (children orphan).trans first
          obtain ⟨top, topLive⟩ := Heap.live_of_target topFirst
          change joined orphan = some top at topLive
          obtain ⟨_, _, _, finds, -⟩ := blockInfoAddChild_behind topLive
            ((Heap.target_child topLive).symm.trans topFirst) adds
          exact lastSibling_endless endless .self finds

/-- The new parent claims an only child, or the loop does not end. -/
theorem claimChildren_only {orphan child : Ptr} {owner : Member (BlockInfo Hash)}
    (ownerLive : nodes orphan = some owner) (childless : owner.firstChild = none)
    (other : child ≠ orphan)
    (returns : claimChildren fuel nodes orphan (some child) = .ok after) :
    ∃ cell, nodes child = some cell ∧ cell.nextSibling = none ∧
      after = (nodes.write orphan { owner with firstChild := some child }).write child
        { cell with parent := some orphan } := by
  cases fuel with
  | zero => cases returns
  | succ fuel =>
      simp only [claimChildren, blockInfoAddChild, Heap.read_eq ownerLive, childless, Exec.ok_bind,
        Exec.bind_eq_ok] at returns
      obtain ⟨linked, ⟨cell, reads, adds⟩, now, readsNow, rest⟩ := returns
      cases adds
      have cellLive := Heap.read_eq_ok.1 reads
      rw [Heap.read_eq Heap.write_same] at readsNow
      cases readsNow
      have first : Heap.target (Heap.write (nodes.write orphan
          { owner with firstChild := some child }) child { cell with parent := some orphan })
          (.child orphan) = some child := by
        rw [target_setParent cellLive, target_setFirstChild ownerLive, if_pos rfl]
      have here : Heap.target (Heap.write (nodes.write orphan
          { owner with firstChild := some child }) child { cell with parent := some orphan })
          (.sibling child) = cell.nextSibling := by
        rw [Heap.target_sibling Heap.write_same]
      rw [Heap.write_of_ne other] at cellLive
      generalize written : Heap.write (nodes.write orphan { owner with
        firstChild := some child }) child { cell with parent := some orphan } = joined at *
      rcases Option.eq_none_or_eq_some cell.nextSibling with next | ⟨second, next⟩
      · simp only [next] at rest
        cases fuel <;> cases rest
        exact ⟨cell, cellLive, next, written.symm⟩
      · rw [next] at rest
        exact absurd rest (claimChildren_second first (here.trans next))

end BitcoinClib.Chains
