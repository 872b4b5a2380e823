import BitcoinClib.Chains.Blockchain

/-!
Contract: what the operations on candidate nodes leave alone.

Owns:
- `Relinked`, two heaps with the same nodes that differ in links and difficulties, and
  `Grown`, a list that gained heads of chains besides;
- for every operation that releases nothing, that it relinks or grows;
- for `block_info_free`, that what it leaves is unchanged, that a path of first
  children is released with its first node, and nothing else where it has no siblings.

All rules speak about operations that returned.
-/

namespace BitcoinClib.Chains

open BitcoinClib.Lib

variable {Hash : Type}

/-! ## Relinked heaps -/

/-- The same hash and header, and a parent that is not lost. -/
structure SameBlock (before after : Member (BlockInfo Hash)) : Prop where
  hash : after.val.hash = before.val.hash
  hdr : after.val.hdr = before.val.hdr
  parent : before.parent.isSome → after.parent.isSome

namespace SameBlock

variable {first second third : Member (BlockInfo Hash)}

theorem refl (member : Member (BlockInfo Hash)) : SameBlock member member := ⟨rfl, rfl, id⟩

theorem trans (left : SameBlock first second) (right : SameBlock second third) :
    SameBlock first third :=
  ⟨right.hash.trans left.hash, right.hdr.trans left.hdr, right.parent ∘ left.parent⟩

end SameBlock

/-- A node is live and points below a bound only. -/
structure Below (next p : Ptr) (member : Member (BlockInfo Hash)) : Prop where
  self : p < next
  child : ∀ q, member.firstChild = some q → q < next
  sibling : ∀ q, member.nextSibling = some q → q < next

/-- Every live node lies below a bound and points below it. -/
def LinksBelow (next : Ptr) (nodes : Heap (BlockInfo Hash)) : Prop :=
  ∀ p member, nodes p = some member → Below next p member

theorem LinksBelow.mono {next later : Ptr} {nodes : Heap (BlockInfo Hash)}
    (links : LinksBelow next nodes) (le : next ≤ later) : LinksBelow later nodes := by
  intro p member live
  have below := links p member live
  exact ⟨Nat.lt_of_lt_of_le below.self le,
    fun q points => Nat.lt_of_lt_of_le (below.child q points) le,
    fun q points => Nat.lt_of_lt_of_le (below.sibling q points) le⟩

/-- A new node without children and siblings moves the bound. -/
theorem LinksBelow.writeNew {next : Ptr} {nodes : Heap (BlockInfo Hash)}
    (links : LinksBelow next nodes) (info : BlockInfo Hash) (parent : Option Ptr) :
    LinksBelow (next + 1) (nodes.write next ⟨info, parent, none, none⟩) := by
  intro p member live
  by_cases new : p = next
  · rw [new, Heap.write_same] at live
    cases live
    rw [new]
    exact ⟨Nat.lt_succ_self _, (fun _ points => nomatch points), (fun _ points => nomatch points)⟩
  · rw [Heap.write_of_ne new] at live
    exact (links.mono (Nat.le_succ _)) p member live

/-- The same nodes, with other links and difficulties. -/
structure Relinked (before after : Heap (BlockInfo Hash)) : Prop where
  blocks : ∀ p, Option.Rel SameBlock (before p) (after p)
  links : ∀ next, LinksBelow next before → LinksBelow next after

namespace Relinked

variable {before middle after : Heap (BlockInfo Hash)} {p : Ptr}
  {old new : Member (BlockInfo Hash)}

theorem refl (nodes : Heap (BlockInfo Hash)) : Relinked nodes nodes := by
  refine ⟨fun p => ?_, fun _ links => links⟩
  cases nodes p with
  | none => exact .none
  | some member => exact .some (.refl member)

theorem trans (left : Relinked before middle) (right : Relinked middle after) :
    Relinked before after := by
  refine ⟨fun p => ?_, fun next links => right.links next (left.links next links)⟩
  have first := left.blocks p
  have second := right.blocks p
  generalize before p = start, middle p = shared, after p = last at first second
  cases first with
  | none =>
      cases second with
      | none => exact .none
  | some same =>
      cases second with
      | some next => exact .some (same.trans next)

/-- A node that was live still is. -/
theorem live (relinked : Relinked before after) (lives : before p = some old) :
    ∃ new, after p = some new ∧ SameBlock old new := by
  have same := relinked.blocks p
  rw [lives] at same
  generalize after p = now at same
  cases same with
  | some same => exact ⟨_, rfl, same⟩

/-- A live node was live before. -/
theorem origin (relinked : Relinked before after) (lives : after p = some new) :
    ∃ old, before p = some old ∧ SameBlock old new := by
  have same := relinked.blocks p
  rw [lives] at same
  generalize before p = earlier at same
  cases same with
  | some same => exact ⟨_, rfl, same⟩

/-- One node is written. -/
theorem write (lives : before p = some old) (same : SameBlock old new)
    (bounded : ∀ next, LinksBelow next before → Below next p new) :
    Relinked before (before.write p new) := by
  constructor
  · intro q
    by_cases here : q = p
    · rw [here, Heap.write_same, lives]
      exact .some same
    · rw [Heap.write_of_ne here]
      exact (refl before).blocks q
  · intro next links q member live
    by_cases here : q = p
    · rw [here, Heap.write_same] at live
      cases live
      rw [here]
      exact bounded next links
    · rw [Heap.write_of_ne here] at live
      exact links q member live

end Relinked

/-! ## First children -/

/-- One of the pointers of every node is the same. -/
def SameLink (link : Member (BlockInfo Hash) → Option Ptr) (before after : Heap (BlockInfo Hash)) :
    Prop :=
  ∀ p member, before p = some member → ∃ now, after p = some now ∧ link now = link member

/-- The pointers to first children are the same. -/
abbrev SameChildren (before after : Heap (BlockInfo Hash)) : Prop :=
  SameLink Member.firstChild before after

/-- The pointers to next siblings are the same. -/
abbrev SameSiblings (before after : Heap (BlockInfo Hash)) : Prop :=
  SameLink Member.nextSibling before after

namespace SameLink

variable {link : Member (BlockInfo Hash) → Option Ptr} {before middle after : Heap (BlockInfo Hash)}

theorem refl (link : Member (BlockInfo Hash) → Option Ptr) (nodes : Heap (BlockInfo Hash)) :
    SameLink link nodes nodes :=
  fun _ member live => ⟨member, live, rfl⟩

theorem trans (left : SameLink link before middle) (right : SameLink link middle after) :
    SameLink link before after := by
  intro p member live
  obtain ⟨between, betweenLive, first⟩ := left p member live
  obtain ⟨now, nowLive, second⟩ := right p between betweenLive
  exact ⟨now, nowLive, second.trans first⟩

theorem write {p : Ptr} {old new : Member (BlockInfo Hash)} (live : before p = some old)
    (same : link new = link old) : SameLink link before (before.write p new) := by
  intro q member memberLive
  by_cases here : q = p
  · rw [here, live] at memberLive
    cases memberLive
    exact ⟨new, by rw [here, Heap.write_same], same⟩
  · exact ⟨member, by rw [Heap.write_of_ne here]; exact memberLive, rfl⟩

/-- A node that was not live is written. -/
theorem writeNew {p : Ptr} {new : Member (BlockInfo Hash)} (free : before p = none) :
    SameLink link before (before.write p new) := by
  intro q member memberLive
  have other : q ≠ p := by
    rintro rfl
    rw [free] at memberLive
    cases memberLive
  exact ⟨member, by rw [Heap.write_of_ne other]; exact memberLive, rfl⟩

end SameLink

/-- The nodes a loop along the first children visits. -/
inductive FirstChildPath (nodes : Heap (BlockInfo Hash)) : Option Ptr → List Ptr → Prop
  | nil : FirstChildPath nodes none []
  | cons {p : Ptr} {member : Member (BlockInfo Hash)} {path : List Ptr}
      (live : nodes p = some member) (rest : FirstChildPath nodes member.firstChild path) :
      FirstChildPath nodes (some p) (p :: path)

namespace FirstChildPath

variable {nodes after : Heap (BlockInfo Hash)} {start : Option Ptr} {path other : List Ptr}

theorem unique (first : FirstChildPath nodes start path)
    (second : FirstChildPath nodes start other) : path = other := by
  induction first generalizing other with
  | nil =>
      cases second
      rfl
  | cons live rest inductionHypothesis =>
      cases second with
      | cons again others =>
          rw [live] at again
          cases again
          rw [inductionHypothesis others]

/-- Every node of a path has a path of its own. -/
theorem suffix (first : FirstChildPath nodes start path) {p : Ptr} (member : p ∈ path) :
    ∃ rest, FirstChildPath nodes (some p) rest ∧ rest.length ≤ path.length := by
  induction first with
  | nil => cases member
  | @cons head cell path live rest inductionHypothesis =>
      rcases List.mem_cons.1 member with rfl | later
      · exact ⟨_, .cons live rest, Nat.le_refl _⟩
      · obtain ⟨rest, path, shorter⟩ := inductionHypothesis later
        exact ⟨rest, path, Nat.le_succ_of_le shorter⟩

/-- A node above the start of a path is not on it. -/
theorem not_mem_of_above (first : FirstChildPath nodes start path) {p : Ptr}
    {member : Member (BlockInfo Hash)} (live : nodes p = some member)
    (above : member.firstChild = start) : p ∉ path := by
  intro onPath
  obtain ⟨rest, fromHere, shorter⟩ := first.suffix onPath
  cases fromHere with
  | cons again others =>
      rw [live] at again
      cases again
      rw [above] at others
      have same := others.unique first
      rw [List.length_cons, same] at shorter
      omega

theorem nodup (first : FirstChildPath nodes start path) : path.Nodup := by
  induction first with
  | nil => exact List.nodup_nil
  | cons live rest inductionHypothesis =>
      exact List.nodup_cons.2 ⟨rest.not_mem_of_above live rfl, inductionHypothesis⟩

theorem live (first : FirstChildPath nodes start path) {p : Ptr} (member : p ∈ path) :
    ∃ cell, nodes p = some cell := by
  obtain ⟨rest, fromHere, -⟩ := first.suffix member
  cases fromHere with
  | cons live rest => exact ⟨_, live⟩

/-- A path depends on the pointers to first children of its nodes only. -/
theorem congr (first : FirstChildPath nodes start path)
    (same : ∀ p ∈ path, ∀ member, nodes p = some member →
      ∃ now, after p = some now ∧ now.firstChild = member.firstChild) :
    FirstChildPath after start path := by
  induction first with
  | nil => exact .nil
  | @cons head cell path live rest inductionHypothesis =>
      obtain ⟨now, nowLive, child⟩ := same head List.mem_cons_self cell live
      refine .cons nowLive ?_
      rw [child]
      exact inductionHypothesis fun p member => same p (List.mem_cons_of_mem _ member)

end FirstChildPath

/-! ## Operations along pointers -/

variable {fuel : Nat} {nodes after : Heap (BlockInfo Hash)} {env : ChainEnv Hash}

/-- A write of the parent of a live node. -/
theorem relinked_setParent {child : Ptr} {member : Member (BlockInfo Hash)}
    (live : nodes child = some member) (parent : Ptr) :
    Relinked nodes (nodes.write child { member with parent := some parent }) := by
  refine .write live ⟨rfl, rfl, fun _ => rfl⟩ fun next links => ?_
  have below := links child member live
  exact ⟨below.self, below.child, below.sibling⟩

/-- A write of the first child of a live node. -/
theorem relinked_setFirstChild {owner : Ptr} {member : Member (BlockInfo Hash)}
    {firstChild : Option Ptr} (live : nodes owner = some member)
    (bounded : ∀ next, LinksBelow next nodes → ∀ q, firstChild = some q → q < next) :
    Relinked nodes (nodes.write owner { member with firstChild }) := by
  refine .write live ⟨rfl, rfl, id⟩ fun next links => ?_
  have below := links owner member live
  exact ⟨below.self, bounded next links, below.sibling⟩

/-- A write of the next sibling of a live node. -/
theorem relinked_setNextSibling {owner : Ptr} {member : Member (BlockInfo Hash)}
    {nextSibling : Option Ptr} (live : nodes owner = some member)
    (bounded : ∀ next, LinksBelow next nodes → ∀ q, nextSibling = some q → q < next) :
    Relinked nodes (nodes.write owner { member with nextSibling }) := by
  refine .write live ⟨rfl, rfl, id⟩ fun next links => ?_
  have below := links owner member live
  exact ⟨below.self, below.child, bounded next links⟩

/-- A write of the difficulty of a live node. -/
theorem relinked_setDifficulty {p : Ptr} {member : Member (BlockInfo Hash)}
    (live : nodes p = some member) (cumulativeDifficulty : ℚ) :
    Relinked nodes (nodes.write p
      { member with val := { member.val with cumulativeDifficulty } }) := by
  refine .write live ⟨rfl, rfl, id⟩ fun next links => ?_
  have below := links p member live
  exact ⟨below.self, below.child, below.sibling⟩

/-- A write keeps nodes live. -/
theorem live_of_write {p q : Ptr} {old member new : Member (BlockInfo Hash)}
    (live : nodes p = some old) (read : (nodes.write p new) q = some member) :
    ∃ earlier, nodes q = some earlier := by
  by_cases same : q = p
  · exact ⟨old, same ▸ live⟩
  · rw [Heap.write_of_ne same] at read
    exact ⟨member, read⟩

/-- The child is linked to the list it is appended to, and then to its parent. -/
theorem blockInfoAddChild_relinked {parent child : Ptr}
    (returns : blockInfoAddChild fuel nodes parent child = .ok after) :
    Relinked nodes after ∧
      ∃ member, after child = some member ∧ member.parent = some parent := by
  rw [blockInfoAddChild, Exec.bind_eq_ok] at returns
  obtain ⟨owner, reads, returns⟩ := returns
  have ownerLive := Heap.read_eq_ok.1 reads
  cases first : owner.firstChild with
  | none =>
      simp only [first, Exec.ok_bind, Exec.bind_eq_ok] at returns
      obtain ⟨cell, readsChild, returns⟩ := returns
      have childLinked := Heap.read_eq_ok.1 readsChild
      obtain ⟨earlier, childLive⟩ := live_of_write ownerLive childLinked
      have linked : Relinked nodes (nodes.write parent { owner with firstChild := some child }) := by
        refine relinked_setFirstChild ownerLive fun next below q points => ?_
        cases points
        exact (below child earlier childLive).self
      cases returns
      exact ⟨linked.trans (relinked_setParent childLinked parent), _, Heap.write_same, rfl⟩
  | some firstChild =>
      simp only [first, Exec.ok_bind, Exec.bind_eq_ok] at returns
      obtain ⟨sibling, -, node, readsSibling, cell, readsChild, returns⟩ := returns
      have siblingLive := Heap.read_eq_ok.1 readsSibling
      have childLinked := Heap.read_eq_ok.1 readsChild
      obtain ⟨earlier, childLive⟩ := live_of_write siblingLive childLinked
      have linked : Relinked nodes (nodes.write sibling { node with nextSibling := some child }) := by
        refine relinked_setNextSibling siblingLive fun next below q points => ?_
        cases points
        exact (below child earlier childLive).self
      cases returns
      exact ⟨linked.trans (relinked_setParent childLinked parent), _, Heap.write_same, rfl⟩

/-- The recursion over a tree and the loop over its siblings write difficulties only. -/
theorem blockInfoUpdate_relinked :
    (∀ {nodes : Heap (BlockInfo Hash)} {node : Option Ptr} {base : ℚ}
        {longest : Option (Option Ptr)} {result},
      blockInfoUpdateCumulativeDifficulty env fuel nodes node base longest = .ok result →
        Relinked nodes result.1) ∧
      ∀ {nodes : Heap (BlockInfo Hash)} {sibling : Option Ptr} {base : ℚ}
        {longest : Option (Option Ptr)} {result},
      updateSiblings env fuel nodes sibling base longest = .ok result →
        Relinked nodes result.1 := by
  induction fuel with
  | zero =>
      constructor
      · intro nodes node base longest result returns
        cases node <;> cases returns
      · intro nodes sibling base longest result returns
        cases sibling <;> cases returns
  | succ fuel inductionHypothesis =>
      obtain ⟨treeRelinked, siblingsRelinked⟩ := inductionHypothesis
      constructor
      · intro nodes node base longest result returns
        cases node with
        | none =>
            cases returns
            exact .refl _
        | some node =>
            rw [blockInfoUpdateCumulativeDifficulty, Exec.bind_eq_ok] at returns
            obtain ⟨cell, reads, returns⟩ := returns
            rw [Exec.bind_eq_ok] at returns
            obtain ⟨difficulty, -, returns⟩ := returns
            simp only [Exec.bind_eq_ok] at returns
            obtain ⟨offered, -, ⟨below, best⟩, children, next, -, siblings⟩ := returns
            have written := relinked_setDifficulty (Heap.read_eq_ok.1 reads) (base + difficulty)
            exact (written.trans (treeRelinked children)).trans (siblingsRelinked siblings)
      · intro nodes sibling base longest result returns
        cases sibling with
        | none =>
            cases returns
            exact .refl _
        | some sibling =>
            simp only [updateSiblings, Exec.bind_eq_ok] at returns
            obtain ⟨⟨below, best⟩, tree, cell, -, rest⟩ := returns
            exact (treeRelinked tree).trans (siblingsRelinked rest)

theorem jumpToFirst_relinked {parent heir : Ptr}
    (returns : jumpToFirst fuel nodes parent heir = .ok after) : Relinked nodes after := by
  rw [jumpToFirst, Exec.bind_eq_ok] at returns
  obtain ⟨owner, reads, returns⟩ := returns
  have ownerLive := Heap.read_eq_ok.1 reads
  by_cases isFirst : owner.firstChild = some heir
  · rw [if_pos isFirst] at returns
    cases returns
    exact .refl _
  · rw [if_neg isFirst, Exec.bind_eq_ok] at returns
    obtain ⟨found, -, returns⟩ := returns
    cases found with
    | none => cases returns
    | some prev =>
        simp only [Exec.bind_eq_ok] at returns
        obtain ⟨node, readsHeir, before, readsPrev, again, readsAgain, top, readsTop, returns⟩ :=
          returns
        have prevLive := Heap.read_eq_ok.1 readsPrev
        have againLive := Heap.read_eq_ok.1 readsAgain
        have topLive := Heap.read_eq_ok.1 readsTop
        -- the heir leaves his place, points to the former first child, and is pointed to
        have left : Relinked nodes
            (nodes.write prev { before with nextSibling := node.nextSibling }) :=
          relinked_setNextSibling prevLive fun next below q points =>
            (below heir node (Heap.read_eq_ok.1 readsHeir)).sibling q points
        obtain ⟨ownerNow, ownerNowLive, sameChild⟩ :=
          SameLink.write prevLive (rfl : ({ before with nextSibling := node.nextSibling } :
            Member (BlockInfo Hash)).firstChild = before.firstChild) parent owner ownerLive
        have ahead : Relinked _ (Heap.write _ heir { again with nextSibling := owner.firstChild }) :=
          relinked_setNextSibling againLive fun next below q points => (below parent ownerNow ownerNowLive).child q
            (sameChild.trans points)
        obtain ⟨heirNow, heirNowLive, -⟩ := ahead.live againLive
        have first : Relinked _ (Heap.write _ parent { top with firstChild := some heir }) :=
          relinked_setFirstChild topLive fun next below q points => by
            cases points
            exact (below heir heirNow heirNowLive).self
        cases returns
        exact (left.trans ahead).trans first

theorem blockInfoDeclareInheritance_relinked {heir : Ptr}
    (returns : blockInfoDeclareInheritance fuel nodes heir = .ok after) :
    Relinked nodes after := by
  induction fuel generalizing nodes heir with
  | zero => cases returns
  | succ fuel inductionHypothesis =>
      rw [blockInfoDeclareInheritance, Exec.bind_eq_ok] at returns
      obtain ⟨node, -, returns⟩ := returns
      cases above : node.parent with
      | none =>
          rw [above] at returns
          cases returns
          exact .refl _
      | some parent =>
          simp only [above, Exec.bind_eq_ok] at returns
          obtain ⟨jumped, jumps, rest⟩ := returns
          exact (jumpToFirst_relinked jumps).trans (inductionHypothesis rest)

theorem claimChildren_relinked {orphan : Ptr} {child : Option Ptr}
    (returns : claimChildren fuel nodes orphan child = .ok after) : Relinked nodes after := by
  induction fuel generalizing nodes child with
  | zero => cases returns
  | succ fuel inductionHypothesis =>
      cases child with
      | none =>
          cases returns
          exact .refl _
      | some child =>
          simp only [claimChildren, Exec.bind_eq_ok] at returns
          obtain ⟨added, adds, cell, -, rest⟩ := returns
          exact (blockInfoAddChild_relinked adds).1.trans (inductionHypothesis rest)

theorem updateFirstChild_relinked {child : Option Ptr} {base : ℚ}
    (returns : updateFirstChildCumulativeDifficulty env fuel nodes child base = .ok after) :
    Relinked nodes after := by
  induction fuel generalizing nodes child base with
  | zero => cases returns
  | succ fuel inductionHypothesis =>
      cases child with
      | none =>
          cases returns
          exact .refl _
      | some child =>
          simp only [updateFirstChildCumulativeDifficulty, Exec.bind_eq_ok] at returns
          obtain ⟨node, reads, difficulty, -, rest⟩ := returns
          exact (relinked_setDifficulty (Heap.read_eq_ok.1 reads) _).trans
            (inductionHypothesis rest)

/-! ## Released trees -/

/-- What is left was there before. -/
def Remains (before after : Heap (BlockInfo Hash)) : Prop :=
  ∀ p member, after p = some member → before p = some member

theorem Remains.trans {before middle after : Heap (BlockInfo Hash)}
    (left : Remains before middle) (right : Remains middle after) : Remains before after :=
  fun p member live => left p member (right p member live)

theorem remains_release (nodes : Heap (BlockInfo Hash)) (p : Ptr) :
    Remains nodes (nodes.release p) := by
  intro q member live
  by_cases here : q = p
  · rw [here, Heap.release_same] at live
    cases live
  · rwa [Heap.release_of_ne here] at live

/-- The two halves of `block_info_free` on a live node: his siblings, then his children. -/
theorem blockInfoFree_inversion {p : Ptr}
    (returns : blockInfoFree (fuel + 1) nodes (some p) = .ok after) :
    ∃ node beside below alone,
      nodes p = some node ∧
      (beside = nodes ∨ ∃ freed again, blockInfoFree fuel nodes node.nextSibling = .ok freed ∧
        freed p = some again ∧ beside = freed.write p { again with nextSibling := none }) ∧
      beside p = some alone ∧
      (alone.firstChild = none ∧ below = beside ∨
        ∃ freed last, blockInfoFree fuel beside alone.firstChild = .ok freed ∧
          freed p = some last ∧ below = freed.write p { last with firstChild := none }) ∧
      after = below.release p := by
  have children : ∀ beside : Heap (BlockInfo Hash),
      (do
        let node ← beside.read p
        let nodes ← if node.firstChild.isSome then do
            let freed ← blockInfoFree fuel beside node.firstChild
            let node ← freed.read p
            .ok (freed.write p { node with firstChild := none })
          else .ok beside
        .ok (nodes.release p)) = .ok after →
      ∃ below alone, beside p = some alone ∧
        (alone.firstChild = none ∧ below = beside ∨
          ∃ freed last, blockInfoFree fuel beside alone.firstChild = .ok freed ∧
            freed p = some last ∧ below = freed.write p { last with firstChild := none }) ∧
        after = below.release p := by
    intro beside run
    rw [Exec.bind_eq_ok] at run
    obtain ⟨alone, reads, run⟩ := run
    have aloneLive := Heap.read_eq_ok.1 reads
    cases child : alone.firstChild with
    | none =>
        simp only [child, Option.isSome_none, Bool.false_eq_true, if_false, Exec.ok_bind] at run
        cases run
        exact ⟨beside, alone, aloneLive, .inl ⟨child, rfl⟩, rfl⟩
    | some first =>
        simp only [child, Option.isSome_some, if_true, Exec.bind_eq_ok] at run
        obtain ⟨freed, frees, last, readsLast, below, written, run⟩ := run
        cases written
        refine ⟨_, alone, aloneLive, .inr ⟨freed, last, ?_, Heap.read_eq_ok.1 readsLast, rfl⟩,
          (Exec.ok.inj run).symm⟩
        rw [child]
        exact frees
  rw [blockInfoFree, Exec.bind_eq_ok] at returns
  obtain ⟨node, reads, returns⟩ := returns
  have nodeLive := Heap.read_eq_ok.1 reads
  cases sibling : node.nextSibling with
  | none =>
      simp only [sibling, Option.isSome_none, Bool.false_eq_true, if_false, Exec.ok_bind] at returns
      obtain ⟨below, alone, rest⟩ := children nodes returns
      exact ⟨node, nodes, below, alone, nodeLive, .inl rfl, rest⟩
  | some next =>
      simp only [sibling, Option.isSome_some, if_true, Exec.bind_eq_ok] at returns
      obtain ⟨freed, frees, again, readsAgain, beside, written, returns⟩ := returns
      obtain ⟨below, alone, rest⟩ := children beside (Exec.bind_eq_ok.2 returns)
      cases written
      refine ⟨node, _, below, alone, nodeLive,
        .inr ⟨freed, again, ?_, Heap.read_eq_ok.1 readsAgain, rfl⟩, rest⟩
      rw [sibling]
      exact frees

/-- What is left is unchanged, and the node is released. -/
theorem blockInfoFree_remains {node : Option Ptr}
    (returns : blockInfoFree fuel nodes node = .ok after) :
    Remains nodes after ∧ ∀ p, node = some p → after p = none := by
  induction fuel generalizing nodes node after with
  | zero => cases returns
  | succ fuel inductionHypothesis =>
      cases node with
      | none =>
          cases returns
          exact ⟨fun _ _ live => live, fun _ impossible => nomatch impossible⟩
      | some p =>
          obtain ⟨cell, beside, below, alone, -, siblings, -, children, rfl⟩ :=
            blockInfoFree_inversion returns
          have first : ∀ q member, q ≠ p → beside q = some member → nodes q = some member := by
            intro q member other live
            rcases siblings with rfl | ⟨freed, again, frees, -, rfl⟩
            · exact live
            · rw [Heap.write_of_ne other] at live
              exact (inductionHypothesis frees).1 q member live
          have second : ∀ q member, q ≠ p → below q = some member → beside q = some member := by
            intro q member other live
            rcases children with ⟨-, rfl⟩ | ⟨freed, last, frees, -, rfl⟩
            · exact live
            · rw [Heap.write_of_ne other] at live
              exact (inductionHypothesis frees).1 q member live
          refine ⟨fun q member live => ?_, fun q same => ?_⟩
          · by_cases here : q = p
            · rw [here, Heap.release_same] at live
              cases live
            · rw [Heap.release_of_ne here] at live
              exact first q member here (second q member here live)
          · cases same
            exact Heap.release_same

/-- A path of first children is released with its first node, whatever else hangs on it. -/
theorem blockInfoFree_path {before : Heap (BlockInfo Hash)} {start : Option Ptr}
    {path : List Ptr}
    (children : ∀ p member, nodes p = some member →
      ∃ old, before p = some old ∧ old.firstChild = member.firstChild)
    (onPath : FirstChildPath before start path)
    (returns : blockInfoFree fuel nodes start = .ok after) : ∀ p ∈ path, after p = none := by
  induction fuel generalizing nodes start path after with
  | zero => cases returns
  | succ fuel inductionHypothesis =>
      cases onPath with
      | nil => exact fun _ impossible => absurd impossible List.not_mem_nil
      | @cons p member rest live others =>
          obtain ⟨cell, beside, below, alone, cellLive, siblings, aloneLive, released, rfl⟩ :=
            blockInfoFree_inversion returns
          obtain ⟨old, oldLive, oldChild⟩ := children p cell cellLive
          rw [live] at oldLive
          cases oldLive
          -- the siblings are released first, and what is left of the tree is unchanged
          have besideChildren : ∀ q member, beside q = some member →
              ∃ old, before q = some old ∧ old.firstChild = member.firstChild := by
            intro q member memberLive
            rcases siblings with rfl | ⟨freed, again, frees, againLive, rfl⟩
            · exact children q member memberLive
            · have remains := (blockInfoFree_remains frees).1
              by_cases here : q = p
              · rw [here, Heap.write_same] at memberLive
                cases memberLive
                rw [here]
                exact children p again (remains p again againLive)
              · rw [Heap.write_of_ne here] at memberLive
                exact children q member (remains q member memberLive)
          obtain ⟨same, sameLive, sameChild⟩ := besideChildren p alone aloneLive
          rw [live] at sameLive
          cases sameLive
          intro q onPath
          rcases List.mem_cons.1 onPath with rfl | later
          · exact Heap.release_same
          · rcases released with ⟨noChild, rfl⟩ | ⟨freed, last, frees, lastLive, rfl⟩
            · rw [sameChild, noChild] at others
              cases others
              cases later
            · rw [sameChild] at others
              have gone := inductionHypothesis besideChildren others frees q later
              have other : q ≠ p := by
                rintro rfl
                rw [gone] at lastLive
                cases lastLive
              rw [Heap.release_of_ne other, Heap.write_of_ne other]
              exact gone

/-- A path of first children without siblings is all that is released. -/
theorem blockInfoFree_alone {start : Option Ptr} {path : List Ptr}
    (onPath : FirstChildPath nodes start path)
    (alone : ∀ p ∈ path, ∀ member, nodes p = some member → member.nextSibling = none)
    (returns : blockInfoFree fuel nodes start = .ok after) :
    ∀ p, p ∉ path → after p = nodes p := by
  induction fuel generalizing nodes start path after with
  | zero => cases returns
  | succ fuel inductionHypothesis =>
      cases onPath with
      | nil =>
          cases returns
          exact fun _ _ => rfl
      | @cons head member path live others =>
          obtain ⟨cell, beside, below, only, cellLive, siblings, onlyLive, children, rfl⟩ :=
            blockInfoFree_inversion returns
          rw [live] at cellLive
          cases cellLive
          have headOff : head ∉ path := others.not_mem_of_above live rfl
          -- no sibling is released
          obtain ⟨besideOff, besideHead⟩ : (∀ p, p ≠ head → beside p = nodes p) ∧
              only.firstChild = member.firstChild := by
            rcases siblings with rfl | ⟨freed, again, frees, againLive, rfl⟩
            · rw [live] at onlyLive
              cases onlyLive
              exact ⟨fun _ _ => rfl, rfl⟩
            · rw [alone head List.mem_cons_self member live] at frees
              have same : freed = nodes := by
                cases fuel with
                | zero => cases frees
                | succ fuel =>
                    cases frees
                    rfl
              rw [same, live] at againLive
              cases againLive
              rw [Heap.write_same] at onlyLive
              cases onlyLive
              exact ⟨fun p other => by rw [Heap.write_of_ne other, same], rfl⟩
          intro p off
          have notHead : p ≠ head := fun same => off (same ▸ List.mem_cons_self)
          have notLater : p ∉ path := fun later => off (List.mem_cons_of_mem _ later)
          rw [Heap.release_of_ne notHead]
          rcases children with ⟨-, rfl⟩ | ⟨freed, last, frees, -, rfl⟩
          · exact besideOff p notHead
          · have besidePath : FirstChildPath beside only.firstChild path := by
              rw [besideHead]
              refine others.congr fun q inside old oldLive => ⟨old, ?_, rfl⟩
              rw [besideOff q fun same => headOff (same ▸ inside)]
              exact oldLive
            have besideAlone : ∀ q ∈ path, ∀ old, beside q = some old →
                old.nextSibling = none := by
              intro q inside old oldLive
              rw [besideOff q fun same => headOff (same ▸ inside)] at oldLive
              exact alone q (List.mem_cons_of_mem _ inside) old oldLive
            rw [Heap.write_of_ne notHead,
              inductionHypothesis besidePath besideAlone frees p notLater]
            exact besideOff p notHead

end BitcoinClib.Chains
