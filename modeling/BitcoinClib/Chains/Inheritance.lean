import BitcoinClib.Chains.BlockInfo
import BitcoinClib.Lib.Siblings

/-!
Contract: what the promotion of a branch does to a tree.

Owns:
- `Rearranged`, the same nodes with other links among them;
- `jumpToFirst_promotes` for one level, and the recursion to the root;
- `blockInfoDeclareInheritance_promotes`, for every node of a tree in memory.
-/

namespace BitcoinClib.Chains

open BitcoinClib.Lib

variable {Hash : Type} {nodes after : Heap (BlockInfo Hash)} {ids : List Ptr}
  {kids : Ptr → List Ptr}

/-- The nodes outside `ids` are the same, and every node keeps its parent, its header and its
difficulty. -/
structure Rearranged (ids : List Ptr) (before after : Heap (BlockInfo Hash)) : Prop where
  outside : ∀ p, p ∉ ids → after p = before p
  kept : ∀ p member, before p = some member →
    ∃ new, after p = some new ∧ new.val = member.val ∧ new.parent = member.parent

namespace Rearranged

variable {before middle : Heap (BlockInfo Hash)}

theorem refl (ids : List Ptr) (nodes : Heap (BlockInfo Hash)) : Rearranged ids nodes nodes :=
  ⟨fun _ _ => rfl, fun _ member live => ⟨member, live, rfl, rfl⟩⟩

theorem trans (left : Rearranged ids before middle) (right : Rearranged ids middle after) :
    Rearranged ids before after := by
  refine ⟨fun p outside => (right.outside p outside).trans (left.outside p outside), ?_⟩
  intro p member live
  obtain ⟨shared, sharedLive, val, parent⟩ := left.kept p member live
  obtain ⟨new, newLive, newVal, newParent⟩ := right.kept p shared sharedLive
  exact ⟨new, newLive, newVal.trans val, newParent.trans parent⟩

/-- A record is written with other links. -/
theorem write {p : Ptr} {old new : Member (BlockInfo Hash)} (inside : p ∈ ids)
    (live : before p = some old) (val : new.val = old.val) (parent : new.parent = old.parent) :
    Rearranged ids before (before.write p new) := by
  refine ⟨fun q outside => ?_, fun q member memberLive => ?_⟩
  · exact Heap.write_of_ne fun same => outside (same ▸ inside)
  · by_cases here : q = p
    · rw [here, live] at memberLive
      cases memberLive
      exact ⟨new, here ▸ Heap.write_same, val, parent⟩
    · exact ⟨member, (Heap.write_of_ne here).trans memberLive, rfl, rfl⟩

end Rearranged

/-! ## One level -/

/-- The loop stops at the node in front of the heir. -/
theorem previousSibling_eq {fuel : Nat} {first : Option Ptr} {front back : List Ptr}
    {prev heir : Ptr} (segment : Segment nodes first (front ++ prev :: heir :: back) none)
    (distinct : (front ++ prev :: heir :: back).Nodup) (enough : front.length < fuel) :
    previousSibling fuel nodes first heir = .ok (some prev) := by
  induction front generalizing fuel first with
  | nil =>
      obtain ⟨here, member, live, next, -⟩ := segment
      cases fuel with
      | zero => exact absurd enough (Nat.not_lt_zero _)
      | succ fuel =>
          rw [here, previousSibling, Heap.read_eq live, Exec.ok_bind, if_pos next]
  | cons p front inductionHypothesis =>
      obtain ⟨here, member, live, behind⟩ := segment
      have rest := (List.nodup_cons.1 distinct).2
      have notNext : member.nextSibling ≠ some heir := by
        intro next
        have head := behind.first_eq
        rw [next] at head
        cases front with
        | nil =>
            cases head
            exact (List.nodup_cons.1 rest).1 List.mem_cons_self
        | cons q front =>
            cases head
            exact (List.nodup_cons.1 rest).1 (by simp)
      cases fuel with
      | zero => exact absurd enough (Nat.not_lt_zero _)
      | succ fuel =>
          rw [here, previousSibling, Heap.read_eq live, Exec.ok_bind, if_neg notNext]
          exact inductionHypothesis behind rest (Nat.lt_of_succ_lt_succ enough)

theorem erase_behind {front back : List Ptr} {prev heir : Ptr}
    (distinct : (front ++ prev :: heir :: back).Nodup) :
    (front ++ prev :: heir :: back).erase heir = front ++ prev :: back := by
  rw [List.nodup_append, List.nodup_cons] at distinct
  obtain ⟨-, ⟨prevNot, -⟩, apart⟩ := distinct
  have notFront : heir ∉ front := fun inside =>
    apart heir inside heir (List.mem_cons_of_mem _ List.mem_cons_self) rfl
  have notPrev : prev ≠ heir := fun same => prevNot (same ▸ List.mem_cons_self)
  rw [List.erase_append_right _ notFront, List.erase_cons_tail (by simpa using notPrev),
    List.erase_cons_head]

/-- The heap after the heir was taken out behind `prev`. -/
def splice (nodes : Heap (BlockInfo Hash)) (p heir prev : Ptr)
    (owner node before : Member (BlockInfo Hash)) : Heap (BlockInfo Hash) :=
  ((nodes.write prev { before with nextSibling := node.nextSibling }).write heir
    { node with nextSibling := owner.firstChild }).write p { owner with firstChild := some heir }

section Splice

variable {p heir prev : Ptr} {owner node before : Member (BlockInfo Hash)}

theorem splice_owner : splice nodes p heir prev owner node before p =
    some { owner with firstChild := some heir } := Heap.write_same

theorem splice_heir (apart : heir ≠ p) : splice nodes p heir prev owner node before heir =
    some { node with nextSibling := owner.firstChild } :=
  (Heap.write_of_ne apart).trans Heap.write_same

theorem splice_prev (notOwner : prev ≠ p) (notHeir : prev ≠ heir) :
    splice nodes p heir prev owner node before prev =
      some { before with nextSibling := node.nextSibling } :=
  (Heap.write_of_ne notOwner).trans ((Heap.write_of_ne notHeir).trans Heap.write_same)

theorem splice_other {q : Ptr} (notOwner : q ≠ p) (notHeir : q ≠ heir) (notPrev : q ≠ prev) :
    splice nodes p heir prev owner node before q = nodes q :=
  (Heap.write_of_ne notOwner).trans
    ((Heap.write_of_ne notHeir).trans (Heap.write_of_ne notPrev))

/-- The siblings of all other nodes go on where they did. -/
theorem splice_sameNext {q : Ptr} (ownerLive : nodes p = some owner) (notHeir : q ≠ heir)
    (notPrev : q ≠ prev) : SameNext nodes (splice nodes p heir prev owner node before) q := by
  intro member live
  by_cases isOwner : q = p
  · subst isOwner
    rw [ownerLive] at live
    cases live
    exact ⟨_, splice_owner, rfl⟩
  · exact ⟨member, (splice_other isOwner notHeir notPrev).trans live, rfl⟩

/-- The children of all other nodes start where they did. -/
theorem splice_sameFirst {q : Ptr} {member : Member (BlockInfo Hash)} (notOwner : q ≠ p)
    (heirLive : nodes heir = some node) (prevLive : nodes prev = some before)
    (live : nodes q = some member) :
    ∃ new, splice nodes p heir prev owner node before q = some new ∧
      new.firstChild = member.firstChild := by
  by_cases isHeir : q = heir
  · subst isHeir
    rw [heirLive] at live
    cases live
    exact ⟨_, splice_heir notOwner, rfl⟩
  by_cases isPrev : q = prev
  · subst isPrev
    rw [prevLive] at live
    cases live
    exact ⟨_, splice_prev notOwner isHeir, rfl⟩
  · exact ⟨member, (splice_other notOwner isHeir isPrev).trans live, rfl⟩

theorem splice_rearranged (ownerInside : p ∈ ids) (heirInside : heir ∈ ids)
    (prevInside : prev ∈ ids) (ownerLive : nodes p = some owner) (heirLive : nodes heir = some node)
    (prevLive : nodes prev = some before) (notHeir : prev ≠ heir) (heirApart : heir ≠ p)
    (prevApart : prev ≠ p) : Rearranged ids nodes (splice nodes p heir prev owner node before) := by
  have heirStill : nodes.write prev { before with nextSibling := node.nextSibling } heir =
      some node := (Heap.write_of_ne notHeir.symm).trans heirLive
  have ownerStill : (nodes.write prev { before with nextSibling := node.nextSibling }).write heir
      { node with nextSibling := owner.firstChild } p = some owner :=
    (Heap.write_of_ne heirApart.symm).trans ((Heap.write_of_ne prevApart.symm).trans ownerLive)
  have first : Rearranged ids nodes
      (nodes.write prev { before with nextSibling := node.nextSibling }) :=
    .write prevInside prevLive rfl rfl
  have second : Rearranged ids nodes
      ((nodes.write prev { before with nextSibling := node.nextSibling }).write heir
        { node with nextSibling := owner.firstChild }) :=
    first.trans (.write heirInside heirStill rfl rfl)
  exact second.trans (.write ownerInside ownerStill rfl rfl)

end Splice

/-- An heir that is the first child stays where it is. -/
theorem jumpToFirst_of_first {fuel : Nat} {p heir : Ptr} {owner : Member (BlockInfo Hash)}
    (ownerLive : nodes p = some owner) (first : owner.firstChild = some heir) :
    jumpToFirst fuel nodes p heir = .ok nodes := by
  rw [jumpToFirst, Heap.read_eq ownerLive, Exec.ok_bind, if_pos first]

/-- An heir with a sibling in front of it is taken out there. -/
theorem jumpToFirst_eq {fuel : Nat} {p heir prev : Ptr} {front back : List Ptr}
    {owner node before : Member (BlockInfo Hash)} (ownerLive : nodes p = some owner)
    (heirLive : nodes heir = some node) (prevLive : nodes prev = some before)
    (segment : Segment nodes owner.firstChild (front ++ prev :: heir :: back) none)
    (distinct : (front ++ prev :: heir :: back).Nodup)
    (apart : p ∉ front ++ prev :: heir :: back) (enough : front.length < fuel) :
    jumpToFirst fuel nodes p heir = .ok (splice nodes p heir prev owner node before) := by
  have notFirst : owner.firstChild ≠ some heir := by
    intro first
    have head := segment.first_eq
    rw [first] at head
    cases front with
    | nil =>
        cases head
        exact (List.nodup_cons.1 distinct).1 List.mem_cons_self
    | cons q front =>
        cases head
        exact (List.nodup_cons.1 distinct).1 (by simp)
  have notHeir : heir ≠ prev := by
    intro same
    have rest := List.nodup_cons.1 (List.nodup_append.1 distinct).2.1
    exact rest.1 (same ▸ List.mem_cons_self)
  have heirStill : nodes.write prev { before with nextSibling := node.nextSibling } heir =
      some node := (Heap.write_of_ne notHeir).trans heirLive
  have ownerStill : ((nodes.write prev { before with nextSibling := node.nextSibling }).write heir
      { node with nextSibling := owner.firstChild }) p = some owner := by
    refine (Heap.write_of_ne fun same => apart (by simp [same])).trans ?_
    exact (Heap.write_of_ne fun same => apart (by simp [same])).trans ownerLive
  rw [jumpToFirst, Heap.read_eq ownerLive, Exec.ok_bind, if_neg notFirst,
    previousSibling_eq segment distinct enough, Exec.ok_bind]
  dsimp only
  rw [Heap.read_eq heirLive, Exec.ok_bind, Heap.read_eq prevLive, Exec.ok_bind,
    Heap.read_eq heirStill, Exec.ok_bind, Heap.read_eq ownerStill, Exec.ok_bind]
  rfl

/-- The heir is put in front of the children of its parent, and the other lists stay. -/
theorem jumpToFirst_promotes {p heir : Ptr} (lists : ChildLists nodes ids kids)
    (inside : p ∈ ids) (child : heir ∈ kids p) :
    ∃ after, Exec.Converges (fun fuel => jumpToFirst fuel nodes p heir) after ∧
      Rearranged ids nodes after ∧
      ChildLists after ids (Function.update kids p (heir :: (kids p).erase heir)) := by
  obtain ⟨owner, ownerLive, linked⟩ := lists.linked p inside
  have distinct := lists.nodup p inside
  have apart := lists.apart p inside
  obtain ⟨upper, back, split⟩ := List.append_of_mem child
  rcases List.eq_nil_or_concat upper with rfl | ⟨front, prev, rfl⟩
  · -- the heir is the first child already
    have first : owner.firstChild = some heir := by
      rw [linked.first_eq, split]
      rfl
    have same : heir :: (kids p).erase heir = kids p := by
      rw [split, List.nil_append, List.erase_cons_head]
    rw [same, Function.update_eq_self]
    refine ⟨nodes, ⟨0, fun fuel _ => ?_⟩, .refl ids nodes, lists⟩
    exact jumpToFirst_of_first ownerLive first
  · rw [List.concat_eq_append, List.append_assoc, List.singleton_append] at split
    have prevChild : prev ∈ kids p := by simp [split]
    obtain ⟨node, heirLive, heirParent⟩ := lists.parent p inside heir child
    obtain ⟨before, prevLive, prevParent⟩ := lists.parent p inside prev prevChild
    have heirApart : heir ≠ p := fun same => apart (same ▸ child)
    have prevApart : prev ≠ p := fun same => apart (same ▸ prevChild)
    rw [split] at linked distinct apart
    have notHeir : prev ≠ heir := by
      intro same
      have rest := List.nodup_cons.1 (List.nodup_append.1 distinct).2.1
      exact rest.1 (same ▸ List.mem_cons_self)
    have rearranged : Rearranged ids nodes (splice nodes p heir prev owner node before) :=
      splice_rearranged inside (lists.inside p inside heir child)
        (lists.inside p inside prev prevChild) ownerLive heirLive prevLive notHeir heirApart prevApart
    refine ⟨_, ⟨front.length + 1, fun fuel enough => ?_⟩, rearranged, ?_⟩
    · exact jumpToFirst_eq ownerLive heirLive prevLive linked distinct apart enough
    have moved : heir :: (kids p).erase heir = heir :: (front ++ prev :: back) := by
      rw [split, erase_behind distinct]
    have members : ∀ q, ∀ c ∈ Function.update kids p (heir :: (kids p).erase heir) q,
        c ∈ kids q := by
      intro q c member
      by_cases isOwner : q = p
      · rw [isOwner, Function.update_self] at member
        rcases List.mem_cons.1 member with rfl | rest
        · exact isOwner ▸ child
        · exact isOwner ▸ List.mem_of_mem_erase rest
      · rwa [Function.update_of_ne isOwner] at member
    constructor
    case linked =>
      intro q qInside
      by_cases isOwner : q = p
      · rw [isOwner, Function.update_self, moved]
        refine ⟨_, splice_owner, ?_⟩
        refine linked.moveToFirst distinct (splice_heir heirApart) rfl
          (splice_prev prevApart notHeir) (fun old oldLive => ?_)
          fun c _ notThis notPrev => splice_sameNext ownerLive notThis notPrev
        rw [heirLive] at oldLive
        cases oldLive
        rfl
      · rw [Function.update_of_ne isOwner]
        obtain ⟨member, live, segment⟩ := lists.linked q qInside
        obtain ⟨new, newLive, first⟩ := splice_sameFirst isOwner heirLive prevLive live
        refine ⟨new, newLive, ?_⟩
        rw [first]
        refine segment.congr fun c inList => ?_
        obtain ⟨record, recordLive, parent⟩ := lists.parent q qInside c inList
        refine splice_sameNext ownerLive (fun same => ?_) fun same => ?_
        · rw [same, heirLive] at recordLive
          cases recordLive
          rw [heirParent] at parent
          exact isOwner (Option.some.inj parent).symm
        · rw [same, prevLive] at recordLive
          cases recordLive
          rw [prevParent] at parent
          exact isOwner (Option.some.inj parent).symm
    case parent =>
      intro q qInside c member
      obtain ⟨record, recordLive, parent⟩ := lists.parent q qInside c (members q c member)
      obtain ⟨new, newLive, -, same⟩ := rearranged.kept c record recordLive
      exact ⟨new, newLive, same.trans parent⟩
    case inside =>
      intro q qInside c member
      exact lists.inside q qInside c (members q c member)
    case nodup =>
      intro q qInside
      by_cases isOwner : q = p
      · rw [isOwner, Function.update_self]
        exact List.nodup_cons.2 ⟨(lists.nodup p inside).not_mem_erase,
          (lists.nodup p inside).erase heir⟩
      · rw [Function.update_of_ne isOwner]
        exact lists.nodup q qInside
    case apart =>
      intro q qInside again
      exact lists.apart q qInside (members q q again)

/-! ## The way to the root -/

/-- A node without a parent is left alone. -/
theorem blockInfoDeclareInheritance_root {heir : Ptr} {node : Member (BlockInfo Hash)}
    (live : nodes heir = some node) (isRoot : node.parent = none) :
    Exec.Converges (fun fuel => blockInfoDeclareInheritance fuel nodes heir) nodes := by
  refine ⟨1, fun fuel enough => ?_⟩
  cases fuel with
  | zero => exact absurd enough (Nat.not_succ_le_zero 0)
  | succ fuel =>
      show blockInfoDeclareInheritance (fuel + 1) nodes heir = _
      rw [blockInfoDeclareInheritance, Heap.read_eq live, Exec.ok_bind, isRoot]

/-- A node with a parent jumps to the first place, and the parent goes on. -/
theorem blockInfoDeclareInheritance_step {heir p : Ptr} {node : Member (BlockInfo Hash)}
    {jumped : Heap (BlockInfo Hash)} (live : nodes heir = some node) (parent : node.parent = some p)
    (jumps : Exec.Converges (fun fuel => jumpToFirst fuel nodes p heir) jumped)
    (rest : Exec.Converges (fun fuel => blockInfoDeclareInheritance fuel jumped p) after) :
    Exec.Converges (fun fuel => blockInfoDeclareInheritance fuel nodes heir) after := by
  have both : Exec.Converges (fun fuel => jumpToFirst fuel nodes p heir >>= fun jumped =>
      blockInfoDeclareInheritance fuel jumped p) after := .bind jumps rest
  refine .of_succ (fun fuel => ?_) both
  rw [blockInfoDeclareInheritance, Heap.read_eq live, Exec.ok_bind, parent]

/-- The heir and the nodes above it are put in front of their siblings. -/
theorem blockInfoDeclareInheritance_lineage {heir : Ptr} {above : List Ptr}
    (lists : ChildLists nodes ids kids) (lineage : Lineage nodes ids kids heir above) :
    ∃ after, Exec.Converges (fun fuel => blockInfoDeclareInheritance fuel nodes heir) after ∧
      Rearranged ids nodes after ∧ ChildLists after ids (promote kids heir above) := by
  induction above generalizing nodes kids heir with
  | nil =>
      obtain ⟨node, live, isRoot⟩ := lineage
      exact ⟨nodes, blockInfoDeclareInheritance_root live isRoot, .refl ids nodes, lists⟩
  | cons p above inductionHypothesis =>
      have deeper := lineage.update (heir :: (kids p).erase heir)
      obtain ⟨⟨node, live, parent⟩, inside, child, -⟩ := lineage
      obtain ⟨jumped, jumps, rearranged, jumpedLists⟩ := jumpToFirst_promotes lists inside child
      have still : Lineage jumped ids (Function.update kids p (heir :: (kids p).erase heir)) p
          above := by
        refine deeper.congr (fun q member memberLive => ?_) fun _ _ _ inList => inList
        obtain ⟨new, newLive, -, same⟩ := rearranged.kept q member memberLive
        exact ⟨new, newLive, same⟩
      obtain ⟨after, converges, further, afterLists⟩ := inductionHypothesis jumpedLists still
      exact ⟨after, blockInfoDeclareInheritance_step live parent jumps converges,
        rearranged.trans further, afterLists⟩

/-- Nothing moves where the heir and the nodes above it are first children. -/
theorem blockInfoDeclareInheritance_settled {heir : Ptr} {above : List Ptr}
    (lineage : Lineage nodes ids kids heir above)
    (settled : ∀ c ∈ heir :: above, ∀ member p, nodes c = some member → member.parent = some p →
      ∃ owner, nodes p = some owner ∧ owner.firstChild = some c) :
    Exec.Converges (fun fuel => blockInfoDeclareInheritance fuel nodes heir) nodes := by
  induction above generalizing heir with
  | nil =>
      obtain ⟨node, live, isRoot⟩ := lineage
      exact blockInfoDeclareInheritance_root live isRoot
  | cons p above inductionHypothesis =>
      obtain ⟨⟨node, live, parent⟩, -, -, deeper⟩ := lineage
      obtain ⟨owner, ownerLive, first⟩ := settled heir List.mem_cons_self node p live parent
      have jumps : Exec.Converges (fun fuel => jumpToFirst fuel nodes p heir) nodes :=
        ⟨0, fun _ _ => jumpToFirst_of_first ownerLive first⟩
      refine blockInfoDeclareInheritance_step live parent jumps (inductionHypothesis deeper ?_)
      exact fun c onWay => settled c (List.mem_cons_of_mem heir onWay)

/-! ## Trees -/

/-- On a tree in memory the function returns: the nodes from the heir up are each in front of their
siblings, which keep their order; the other lists of children stay, and so does everything
else. A second call changes nothing. -/
theorem blockInfoDeclareInheritance_promotes {root heir : Ptr} {val : BlockInfo Hash}
    {children : Forest (BlockInfo Hash)}
    (held : (Forest.node root val none children .nil).Holds nodes) (hung : children.Hung root)
    (distinct : (Forest.node root val none children .nil).ids.Nodup)
    (inside : heir ∈ (Forest.node root val none children .nil).ids) :
    ∃ after kids, Exec.Converges (fun fuel => blockInfoDeclareInheritance fuel nodes heir) after ∧
      Rearranged (Forest.node root val none children .nil).ids nodes after ∧
      ChildLists after (Forest.node root val none children .nil).ids kids ∧
      (∀ p ∈ (Forest.node root val none children .nil).ids,
        (kids p).Perm ((Forest.node root val none children .nil).childrenOf p).roots) ∧
      (∀ c member p, Ascends nodes heir c → nodes c = some member → member.parent = some p →
        kids p = c :: ((Forest.node root val none children .nil).childrenOf p).roots.erase c ∧
        ∃ owner, after p = some owner ∧ owner.firstChild = some c) ∧
      (∀ p, (∀ c member, Ascends nodes heir c → nodes c = some member →
          member.parent ≠ some p) →
        kids p = ((Forest.node root val none children .nil).childrenOf p).roots) ∧
      Exec.Converges (fun fuel => blockInfoDeclareInheritance fuel after heir) after := by
  obtain ⟨above, lineage⟩ := held.treeLineage hung distinct heir inside
  have lists := held.childLists ⟨hung, trivial⟩ distinct
  generalize Forest.node root val none children .nil = tree at *
  obtain ⟨after, converges, rearranged, afterLists⟩ :=
    blockInfoDeclareInheritance_lineage lists lineage
  have front : ∀ c member p, Ascends nodes heir c → nodes c = some member →
      member.parent = some p → promote (fun p => (tree.childrenOf p).roots) heir above p =
        c :: (tree.childrenOf p).roots.erase c := by
    intro c member p onWay live parent
    exact promote_of_mem lineage ((lineage.mem_iff c).2 onWay) live parent
  have wayInside : ∀ c, Ascends nodes heir c → c ∈ tree.ids := by
    intro c onWay
    rcases List.mem_cons.1 ((lineage.mem_iff c).2 onWay) with rfl | later
    · exact inside
    · exact lineage.inside c later
  have first : ∀ c member p, Ascends nodes heir c → nodes c = some member →
      member.parent = some p → ∃ owner, after p = some owner ∧ owner.firstChild = some c := by
    intro c member p onWay live parent
    obtain ⟨owner, ownerLive, linked⟩ := afterLists.linked p (wayInside p (onWay.up live parent))
    rw [front c member p onWay live parent] at linked
    exact ⟨owner, ownerLive, linked.first_eq⟩
  refine ⟨after, _, converges, rearranged, afterLists, fun p _ => promote_perm lineage p,
    fun c member p onWay live parent =>
      ⟨front c member p onWay live parent, first c member p onWay live parent⟩,
    fun p noChild => ?_, ?_⟩
  · refine promote_of_not_mem fun onWay => ?_
    obtain ⟨c, inWay, member, live, parent⟩ := lineage.child_of_mem onWay
    exact noChild c member ((lineage.mem_iff c).1 inWay) live parent
  · have still : Lineage after tree.ids (fun p => (tree.childrenOf p).roots) heir above := by
      refine lineage.congr (fun q member live => ?_) fun _ _ _ inList => inList
      obtain ⟨new, newLive, -, same⟩ := rearranged.kept q member live
      exact ⟨new, newLive, same⟩
    refine blockInfoDeclareInheritance_settled still fun c inWay member p live parent => ?_
    have onWay := (lineage.mem_iff c).1 inWay
    obtain ⟨old, oldLive, -⟩ := lists.linked c (wayInside c onWay)
    obtain ⟨new, newLive, -, same⟩ := rearranged.kept c old oldLive
    rw [live] at newLive
    cases newLive
    exact first c old p onWay oldLive (same.symm.trans parent)

/-- The children 1 and 2 of the node 0, of which 2 has the child 3. -/
def forkChildren : Forest (BlockInfo Nat) :=
  .node 1 ⟨11, none, 0⟩ (some 0) .nil
    (.node 2 ⟨12, none, 0⟩ (some 0) (.node 3 ⟨13, none, 0⟩ (some 2) .nil .nil) .nil)

/-- Memory with the node 0 and these children. -/
def forkNodes : Heap (BlockInfo Nat) := fun p =>
  if p = 0 then some ⟨⟨10, none, 0⟩, none, some 1, none⟩
  else if p = 1 then some ⟨⟨11, none, 0⟩, some 0, none, some 2⟩
  else if p = 2 then some ⟨⟨12, none, 0⟩, some 0, some 3, none⟩
  else if p = 3 then some ⟨⟨13, none, 0⟩, some 2, none, none⟩ else none

/-- The second child of a root is put in front of the first one. -/
theorem blockInfoDeclareInheritance_second : ∃ after,
    Exec.Converges (fun fuel => blockInfoDeclareInheritance fuel forkNodes 3) after ∧
      ∃ owner, after 0 = some owner ∧ owner.firstChild = some 2 := by
  have held : (Forest.node 0 ⟨10, none, 0⟩ none forkChildren .nil).Holds forkNodes :=
    ⟨rfl, ⟨rfl, trivial, rfl, ⟨rfl, trivial, trivial⟩, trivial⟩, trivial⟩
  have hung : forkChildren.Hung 0 := ⟨rfl, trivial, rfl, ⟨rfl, trivial, trivial⟩, trivial⟩
  have inside : 3 ∈ (Forest.node 0 ⟨10, none, 0⟩ none forkChildren .nil).ids := by decide
  obtain ⟨after, kids, converges, -, -, -, front, -, -⟩ :=
    blockInfoDeclareInheritance_promotes held hung (by decide) inside
  exact ⟨after, converges, (front 2 _ 0 (.up .self rfl rfl) rfl rfl).2⟩

end BitcoinClib.Chains
