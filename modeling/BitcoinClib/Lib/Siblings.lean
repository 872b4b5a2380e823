import BitcoinClib.Lib.Forest

/-!
Contract: the child lists of a tree of first-child / next-sibling records.

Owns:
- `Segment`, the siblings between two pointers, and how a node moves to the front of them;
- `ChildLists`, lists of children that agree with the parent pointers;
- `Lineage`, the nodes above a node, and `promote`, the lists with each of these in front;
- that a forest in memory has child lists, and a way up from each of its nodes.

Does not own: the shape below a node, or any algorithm that walks the records.
-/

namespace BitcoinClib.Lib

universe u

variable {α : Type u}

/-- The siblings from one pointer to another. -/
def Segment (heap : Heap α) : Option Ptr → List Ptr → Option Ptr → Prop
  | first, [], last => first = last
  | first, p :: rest, last =>
      first = some p ∧ ∃ member, heap p = some member ∧ Segment heap member.nextSibling rest last

/-- The heaps agree on where the siblings of a node go on. -/
def SameNext (heap heap' : Heap α) (p : Ptr) : Prop :=
  ∀ member, heap p = some member →
    ∃ new, heap' p = some new ∧ new.nextSibling = member.nextSibling

namespace Segment

variable {heap heap' : Heap α} {first last : Option Ptr} {list front back : List Ptr} {v prev : Ptr}

theorem congr (segment : Segment heap first list last)
    (agree : ∀ p ∈ list, SameNext heap heap' p) : Segment heap' first list last := by
  induction list generalizing first with
  | nil => exact segment
  | cons p rest inductionHypothesis =>
      obtain ⟨here, member, live, behind⟩ := segment
      obtain ⟨new, newLive, next⟩ := agree p List.mem_cons_self member live
      refine ⟨here, new, newLive, ?_⟩
      rw [next]
      exact inductionHypothesis behind fun q inside => agree q (List.mem_cons_of_mem p inside)

theorem append_iff : Segment heap first (front ++ back) last ↔
    ∃ middle, Segment heap first front middle ∧ Segment heap middle back last := by
  induction front generalizing first with
  | nil =>
      constructor
      · intro segment
        exact ⟨first, rfl, segment⟩
      · intro parts
        obtain ⟨middle, here, segment⟩ := parts
        cases here
        exact segment
  | cons p rest inductionHypothesis =>
      constructor
      · intro segment
        obtain ⟨here, member, live, behind⟩ := segment
        obtain ⟨middle, before, after⟩ := inductionHypothesis.1 behind
        exact ⟨middle, ⟨here, member, live, before⟩, after⟩
      · intro parts
        obtain ⟨middle, ⟨here, member, live, before⟩, after⟩ := parts
        exact ⟨here, member, live, inductionHypothesis.2 ⟨middle, before, after⟩⟩

/-- A segment is empty or starts with the node its first pointer designates. -/
theorem first_eq (segment : Segment heap first list none) : first = list.head? := by
  cases list with
  | nil => exact segment
  | cons p rest => exact segment.1

/-- A node that is taken out behind `prev` and put in front of its siblings. -/
theorem moveToFirst {member node : Member α}
    (segment : Segment heap first (front ++ prev :: v :: back) none)
    (distinct : (front ++ prev :: v :: back).Nodup)
    (moved : heap' v = some member) (movedNext : member.nextSibling = first)
    (before : heap' prev = some node)
    (closed : ∀ old, heap v = some old → node.nextSibling = old.nextSibling)
    (frame : ∀ p ∈ front ++ prev :: v :: back, p ≠ v → p ≠ prev → SameNext heap heap' p) :
    Segment heap' (some v) (v :: (front ++ prev :: back)) none := by
  obtain ⟨middle, upper, here, old, oldLive, isNext, cell, live, behind⟩ := append_iff.1 segment
  rw [List.nodup_append, List.nodup_cons, List.nodup_cons] at distinct
  obtain ⟨-, ⟨prevNot, vNot, -⟩, apart⟩ := distinct
  refine ⟨rfl, member, moved, ?_⟩
  rw [movedNext]
  refine append_iff.2 ⟨middle, upper.congr fun p inside => ?_, here, node, before, ?_⟩
  · apply frame p (List.mem_append_left _ inside)
    · exact apart p inside v (List.mem_cons_of_mem _ List.mem_cons_self)
    · exact apart p inside prev List.mem_cons_self
  · rw [closed cell live]
    refine behind.congr fun p inside => ?_
    apply frame p
    · exact List.mem_append_right _ (List.mem_cons_of_mem _ (List.mem_cons_of_mem _ inside))
    · intro same
      exact vNot (same ▸ inside)
    · intro same
      exact prevNot (List.mem_cons_of_mem _ (same ▸ inside))

end Segment

/-! ## Child lists -/

/-- Lists of children that are linked from their parent, whose nodes point back to it. -/
structure ChildLists (heap : Heap α) (ids : List Ptr) (kids : Ptr → List Ptr) : Prop where
  linked : ∀ p ∈ ids, ∃ member, heap p = some member ∧
    Segment heap member.firstChild (kids p) none
  parent : ∀ p ∈ ids, ∀ c ∈ kids p, ∃ member, heap c = some member ∧ member.parent = some p
  inside : ∀ p ∈ ids, ∀ c ∈ kids p, c ∈ ids
  nodup : ∀ p ∈ ids, (kids p).Nodup
  apart : ∀ p ∈ ids, p ∉ kids p

/-- The nodes above `v`, the nearest one first, each with its predecessor among its children. -/
def Lineage (heap : Heap α) (ids : List Ptr) (kids : Ptr → List Ptr) : Ptr → List Ptr → Prop
  | v, [] => ∃ member, heap v = some member ∧ member.parent = none
  | v, p :: above => (∃ member, heap v = some member ∧ member.parent = some p) ∧ p ∈ ids ∧
      v ∈ kids p ∧ Lineage heap ids kids p above

/-- The lists with `v` and the nodes above it each in front of the list it is in. -/
def promote : (Ptr → List Ptr) → Ptr → List Ptr → Ptr → List Ptr
  | kids, _, [] => kids
  | kids, v, p :: above => promote (Function.update kids p (v :: (kids p).erase v)) p above

namespace Lineage

variable {heap heap' : Heap α} {ids : List Ptr} {kids kids' : Ptr → List Ptr} {v c p : Ptr}
  {above other front back : List Ptr}

theorem unique (left : Lineage heap ids kids v above) (right : Lineage heap ids kids v other) :
    above = other := by
  induction above generalizing v other with
  | nil =>
      obtain ⟨member, live, isRoot⟩ := left
      cases other with
      | nil => rfl
      | cons q rest =>
          obtain ⟨⟨same, sameLive, hasParent⟩, -⟩ := right
          rw [live] at sameLive
          cases sameLive
          rw [isRoot] at hasParent
          cases hasParent
  | cons p above inductionHypothesis =>
      obtain ⟨⟨member, live, parent⟩, -, -, deeper⟩ := left
      cases other with
      | nil =>
          obtain ⟨same, sameLive, isRoot⟩ := right
          rw [live] at sameLive
          cases sameLive
          rw [parent] at isRoot
          cases isRoot
      | cons q rest =>
          obtain ⟨⟨same, sameLive, hasParent⟩, -, -, others⟩ := right
          rw [live] at sameLive
          cases sameLive
          rw [parent] at hasParent
          cases hasParent
          rw [inductionHypothesis deeper others]

/-- The nodes above a node on the way up. -/
theorem suffix (lineage : Lineage heap ids kids v (front ++ p :: back)) :
    Lineage heap ids kids p back := by
  induction front generalizing v with
  | nil => exact lineage.2.2.2
  | cons q front inductionHypothesis => exact inductionHypothesis lineage.2.2.2

/-- The way up never returns. -/
theorem nodup (lineage : Lineage heap ids kids v above) : (v :: above).Nodup := by
  induction above generalizing v with
  | nil => exact List.nodup_singleton v
  | cons p above inductionHypothesis =>
      refine List.nodup_cons.2 ⟨fun again => ?_, inductionHypothesis lineage.2.2.2⟩
      obtain ⟨front, back, split⟩ := List.append_of_mem again
      have whole := lineage
      rw [split] at lineage
      have same := congrArg List.length (lineage.suffix.unique whole)
      rw [split, List.length_append, List.length_cons] at same
      omega

/-- The way up in another heap with the same parents. -/
theorem congr (lineage : Lineage heap ids kids v above)
    (parents : ∀ q member, heap q = some member →
      ∃ new, heap' q = some new ∧ new.parent = member.parent)
    (members : ∀ q, q ∈ above → ∀ c, c ∈ kids q → c ∈ kids' q) :
    Lineage heap' ids kids' v above := by
  induction above generalizing v with
  | nil =>
      obtain ⟨member, live, isRoot⟩ := lineage
      obtain ⟨new, newLive, same⟩ := parents v member live
      exact ⟨new, newLive, same.trans isRoot⟩
  | cons p above inductionHypothesis =>
      obtain ⟨⟨member, live, parent⟩, inside, child, deeper⟩ := lineage
      obtain ⟨new, newLive, same⟩ := parents v member live
      refine ⟨⟨new, newLive, same.trans parent⟩, inside, members p List.mem_cons_self v child, ?_⟩
      exact inductionHypothesis deeper fun q later => members q (List.mem_cons_of_mem p later)

theorem inside (lineage : Lineage heap ids kids v above) : ∀ p ∈ above, p ∈ ids := by
  induction above generalizing v with
  | nil => exact fun _ member => absurd member List.not_mem_nil
  | cons q above inductionHypothesis =>
      intro p member
      rcases List.mem_cons.1 member with rfl | later
      · exact lineage.2.1
      · exact inductionHypothesis lineage.2.2.2 p later

/-- A node above `v` is the parent of the one in front of it. -/
theorem child_of_mem (lineage : Lineage heap ids kids v above) (onWay : p ∈ above) :
    ∃ c ∈ v :: above, ∃ member, heap c = some member ∧ member.parent = some p := by
  induction above generalizing v with
  | nil => cases onWay
  | cons q above inductionHypothesis =>
      rcases List.mem_cons.1 onWay with rfl | later
      · exact ⟨v, List.mem_cons_self, lineage.1⟩
      · obtain ⟨c, inWay, child⟩ := inductionHypothesis lineage.2.2.2 later
        exact ⟨c, List.mem_cons_of_mem v inWay, child⟩

/-- The way above the parent of `v` does not depend on the list `v` is in. -/
theorem update (lineage : Lineage heap ids kids v (p :: above)) (list : List Ptr) :
    Lineage heap ids (Function.update kids p list) p above := by
  have deeper := lineage.2.2.2
  refine deeper.congr (fun _ member live => ⟨member, live, rfl⟩) fun q later c inList => ?_
  have other : q ≠ p := fun same => (List.nodup_cons.1 deeper.nodup).1 (same ▸ later)
  rwa [Function.update_of_ne other]

end Lineage

/-! ## Promoted lists -/

section Promote

variable {heap : Heap α} {ids : List Ptr} {kids : Ptr → List Ptr} {v c p : Ptr} {above : List Ptr}
  {member : Member α}

/-- Lists of other nodes stay. -/
theorem promote_of_not_mem (outside : p ∉ above) : promote kids v above p = kids p := by
  induction above generalizing kids v with
  | nil => rfl
  | cons q above inductionHypothesis =>
      rw [List.mem_cons, not_or] at outside
      rw [promote, inductionHypothesis outside.2, Function.update_of_ne outside.1]

/-- No list gains or loses a node. -/
theorem promote_perm (lineage : Lineage heap ids kids v above) (p : Ptr) :
    (promote kids v above p).Perm (kids p) := by
  induction above generalizing kids v with
  | nil => exact .refl _
  | cons q above inductionHypothesis =>
      apply (inductionHypothesis (lineage.update _)).trans
      by_cases same : p = q
      · rw [same, Function.update_self]
        exact (List.perm_cons_erase lineage.2.2.1).symm
      · rw [Function.update_of_ne same]

/-- Each node on the way up is put in front of its siblings. -/
theorem promote_of_mem (lineage : Lineage heap ids kids v above) (onWay : c ∈ v :: above)
    (live : heap c = some member) (parent : member.parent = some p) :
    promote kids v above p = c :: (kids p).erase c := by
  have distinct := lineage.nodup
  have way : ∀ {kids' : Ptr → List Ptr}, (∀ q ∈ above, kids' q = kids q) →
      promote kids' v above p = c :: (kids p).erase c := by
    induction above generalizing v with
    | nil =>
        obtain ⟨root, rootLive, isRoot⟩ := lineage
        rw [List.mem_singleton.1 onWay, rootLive] at live
        cases live
        rw [isRoot] at parent
        cases parent
    | cons q above inductionHypothesis =>
        intro kids' same
        obtain ⟨⟨own, ownLive, ownParent⟩, -, -, deeper⟩ := lineage
        have rest := (List.nodup_cons.1 distinct).2
        have notAbove := (List.nodup_cons.1 rest).1
        rw [promote]
        rcases List.mem_cons.1 onWay with rfl | later
        · rw [ownLive] at live
          cases live
          rw [ownParent] at parent
          cases parent
          rw [promote_of_not_mem notAbove, Function.update_self, same p List.mem_cons_self]
        · refine inductionHypothesis deeper later rest fun r inside => ?_
          have other : r ≠ q := fun equal => notAbove (equal ▸ inside)
          rw [Function.update_of_ne other, same r (List.mem_cons_of_mem q inside)]
  exact way fun _ _ => rfl

end Promote

/-- The nodes from `v` up. -/
inductive Ascends (heap : Heap α) (v : Ptr) : Ptr → Prop
  | self : Ascends heap v v
  | up {p q : Ptr} {member : Member α} (below : Ascends heap v p) (live : heap p = some member)
      (parent : member.parent = some q) : Ascends heap v q

theorem Lineage.mem_iff {heap : Heap α} {ids : List Ptr} {kids : Ptr → List Ptr} {v : Ptr}
    {above : List Ptr} (lineage : Lineage heap ids kids v above) (c : Ptr) :
    c ∈ v :: above ↔ Ascends heap v c := by
  constructor
  · intro onWay
    have climbs : ∀ {start}, Ascends heap v start → ∀ {rest}, Lineage heap ids kids start rest →
        c ∈ start :: rest → Ascends heap v c := by
      intro start reached rest
      induction rest generalizing start with
      | nil =>
          intro _ member
          exact List.mem_singleton.1 member ▸ reached
      | cons p rest inductionHypothesis =>
          intro lineage member
          rcases List.mem_cons.1 member with rfl | later
          · exact reached
          · obtain ⟨⟨record, live, parent⟩, -, -, deeper⟩ := lineage
            exact inductionHypothesis (.up reached live parent) deeper later
    exact climbs .self lineage onWay
  · intro reached
    induction reached with
    | self => exact List.mem_cons_self
    | up below live parent inductionHypothesis =>
        rename_i p q member
        obtain ⟨front, back, split⟩ := List.append_of_mem inductionHypothesis
        have deeper : Lineage heap ids kids p back := by
          cases front with
          | nil =>
              cases split
              exact lineage
          | cons first front =>
              cases split
              exact lineage.suffix
        cases back with
        | nil =>
            obtain ⟨record, recordLive, isRoot⟩ := deeper
            rw [live] at recordLive
            cases recordLive
            rw [parent] at isRoot
            cases isRoot
        | cons next back =>
            obtain ⟨⟨record, recordLive, hasParent⟩, -⟩ := deeper
            rw [live] at recordLive
            cases recordLive
            rw [parent] at hasParent
            cases hasParent
            rw [split]
            simp

/-! ## Forests -/

namespace Forest

variable {heap : Heap α} {f : Forest α} {p : Ptr}

/-- The sibling roots. -/
def roots : Forest α → List Ptr
  | .nil => []
  | .node id _ _ _ siblings => id :: siblings.roots

theorem roots_sublist (f : Forest α) : f.roots.Sublist f.ids := by
  induction f with
  | nil => exact List.Sublist.refl _
  | node id val parent children siblings _ siblingsSub =>
      exact (siblingsSub.trans (List.sublist_append_right _ _)).cons_cons id

theorem Holds.segment (held : f.Holds heap) : Segment heap f.first f.roots none := by
  induction f with
  | nil => rfl
  | node id val parent children siblings _ siblingsSegment =>
      obtain ⟨here, -, beside⟩ := held
      exact ⟨rfl, _, here, siblingsSegment beside⟩

theorem Holds.roots_parent (held : f.Holds heap) (hung : f.Hung p) :
    ∀ c ∈ f.roots, ∃ member, heap c = some member ∧ member.parent = some p := by
  induction f with
  | nil => exact fun _ member => absurd member List.not_mem_nil
  | node id val parent children siblings _ siblingsParent =>
      obtain ⟨here, -, beside⟩ := held
      obtain ⟨isParent, -, hungBeside⟩ := hung
      intro c member
      rcases List.mem_cons.1 member with rfl | later
      · exact ⟨_, here, isParent⟩
      · exact siblingsParent beside hungBeside c later

theorem childrenOf_sublist (f : Forest α) (p : Ptr) :
    (f.childrenOf p).ids.Sublist f.ids := by
  induction f with
  | nil => exact List.Sublist.refl _
  | node id val parent children siblings childrenSub siblingsSub =>
      rw [childrenOf]
      split
      · exact (List.sublist_append_left _ _).cons _
      split
      · exact (childrenSub.trans (List.sublist_append_left _ _)).cons _
      · exact (siblingsSub.trans (List.sublist_append_right _ _)).cons _

/-- A node is not below itself. -/
theorem not_mem_childrenOf (distinct : f.ids.Nodup) : p ∉ (f.childrenOf p).ids := by
  induction f with
  | nil => exact List.not_mem_nil
  | node id val parent children siblings childrenNot siblingsNot =>
      rw [ids_node, List.nodup_cons, List.mem_append, not_or] at distinct
      obtain ⟨⟨notChild, -⟩, rest⟩ := distinct
      have parts := List.nodup_append.1 rest
      rw [childrenOf]
      split
      next same => exact same ▸ notChild
      split
      · exact childrenNot parts.1
      · exact siblingsNot parts.2.1

theorem Nested.childrenOf (nested : f.Nested) (present : p ∈ f.ids) :
    (f.childrenOf p).Hung p := by
  induction f with
  | nil => cases present
  | node id val parent children siblings childrenHung siblingsHung =>
      rw [Forest.childrenOf]
      split
      next same => exact same ▸ nested.1
      next other =>
        rw [ids_node, List.mem_cons, List.mem_append] at present
        split
        next child => exact childrenHung nested.1.nested child
        next notChild =>
          have sibling := (present.resolve_left (Ne.symm other)).resolve_left notChild
          exact siblingsHung nested.2 sibling

/-- The children of the nodes of a forest in memory. -/
theorem Holds.childLists (held : f.Holds heap) (nested : f.Nested) (distinct : f.ids.Nodup) :
    ChildLists heap f.ids fun p => (f.childrenOf p).roots where
  linked := by
    intro p present
    obtain ⟨below, member, live, first⟩ := held.childrenOf present
    refine ⟨member, live, ?_⟩
    rw [first]
    exact below.segment
  parent := by
    intro p present
    exact (held.childrenOf present).1.roots_parent (nested.childrenOf present)
  inside := by
    intro p _ c member
    exact (f.childrenOf_sublist p).subset ((roots_sublist _).subset member)
  nodup := by
    intro p _
    exact distinct.sublist ((roots_sublist _).trans (f.childrenOf_sublist p))
  apart := by
    intro p _ again
    exact not_mem_childrenOf distinct ((roots_sublist _).subset again)

/-- From each node of a forest below `q` there is a way up. -/
theorem Holds.lineage {whole : Forest α} {q : Ptr} {above : List Ptr} (held : f.Holds heap)
    (hung : f.Hung q) (distinct : f.ids.Nodup)
    (lineage : Lineage heap whole.ids (fun p => (whole.childrenOf p).roots) q above)
    (inside : q ∈ whole.ids) (roots : ∀ c ∈ f.roots, c ∈ (whole.childrenOf q).roots)
    (within : ∀ p ∈ f.ids, p ∈ whole.ids ∧ whole.childrenOf p = f.childrenOf p) :
    ∀ v ∈ f.ids, ∃ way, Lineage heap whole.ids (fun p => (whole.childrenOf p).roots) v way := by
  induction f generalizing q above with
  | nil => exact fun _ member => absurd member List.not_mem_nil
  | node id val parent children siblings childrenWay siblingsWay =>
      obtain ⟨here, below, beside⟩ := held
      obtain ⟨isParent, hungBelow, hungBeside⟩ := hung
      rw [ids_node, List.nodup_cons, List.mem_append, not_or] at distinct
      obtain ⟨⟨notChild, notSibling⟩, rest⟩ := distinct
      have parts := List.nodup_append.1 rest
      have own : Lineage heap whole.ids (fun p => (whole.childrenOf p).roots) id (q :: above) :=
        ⟨⟨_, here, isParent⟩, inside, roots id List.mem_cons_self, lineage⟩
      obtain ⟨idInside, idChildren⟩ := within id List.mem_cons_self
      rw [Forest.childrenOf, if_pos rfl] at idChildren
      intro v member
      rw [ids_node, List.mem_cons, List.mem_append] at member
      rcases member with rfl | child | sibling
      · exact ⟨_, own⟩
      · refine childrenWay below hungBelow parts.1 own idInside (fun c root => ?_)
          (fun p present => ?_) v child
        · rwa [idChildren]
        · obtain ⟨pInside, same⟩ :=
            within p (List.mem_cons_of_mem _ (List.mem_append_left _ present))
          have other : id ≠ p := fun equal => notChild (equal ▸ present)
          rw [Forest.childrenOf, if_neg other, if_pos present] at same
          exact ⟨pInside, same⟩
      · refine siblingsWay beside hungBeside parts.2.1 lineage inside (fun c root => ?_)
          (fun p present => ?_) v sibling
        · exact roots c (List.mem_cons_of_mem _ root)
        · obtain ⟨pInside, same⟩ :=
            within p (List.mem_cons_of_mem _ (List.mem_append_right _ present))
          have other : id ≠ p := fun equal => notSibling (equal ▸ present)
          have notBelow : p ∉ children.ids := fun both => parts.2.2 p both p present rfl
          rw [Forest.childrenOf, if_neg other, if_neg notBelow] at same
          exact ⟨pInside, same⟩

/-- From each node of a tree there is a way up to its root. -/
theorem Holds.treeLineage {root : Ptr} {val : α} {children : Forest α}
    (held : (node root val none children .nil).Holds heap) (hung : children.Hung root)
    (distinct : (node root val none children .nil).ids.Nodup) :
    ∀ v ∈ (node root val none children .nil).ids,
      ∃ above, Lineage heap (node root val none children .nil).ids
        (fun p => ((node root val none children .nil).childrenOf p).roots) v above := by
  obtain ⟨here, below, -⟩ := held
  rw [ids_node, ids_nil, List.append_nil] at distinct ⊢
  have notChild := (List.nodup_cons.1 distinct).1
  intro v member
  have top : Lineage heap (root :: children.ids)
      (fun p => ((node root val none children .nil).childrenOf p).roots) root [] :=
    ⟨_, here, rfl⟩
  rcases List.mem_cons.1 member with rfl | child
  · exact ⟨[], top⟩
  · have whole : (node root val none children .nil).ids = root :: children.ids := by
      rw [ids_node, ids_nil, List.append_nil]
    rw [← whole] at top ⊢
    refine below.lineage hung (List.nodup_cons.1 distinct).2 top List.mem_cons_self
      (fun c inRoots => ?_) (fun p present => ⟨?_, ?_⟩) v child
    · rwa [Forest.childrenOf, if_pos rfl]
    · rw [whole]
      exact List.mem_cons_of_mem root present
    · have other : root ≠ p := fun same => notChild (same ▸ present)
      rw [Forest.childrenOf, if_neg other, if_pos present]

end Forest

end BitcoinClib.Lib
