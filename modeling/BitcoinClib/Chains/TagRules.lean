import BitcoinClib.Chains.Edges
import BitcoinClib.Chains.Switch

/-!
Contract: rules for what candidate nodes pass to their children, and Rules 0 to III under them.

Owns:
- `TagRule`, what a node passes on and what may stand below it, and `TagRule.Lawful`, what the
  operations of `blockchain_add` ask of it;
- `Wooded`, a list whose nodes follow a rule, with heads that store no block;
- `Loose`, a block that waits for its place;
- that a header that is let in leaves a list wooded (`letIn_wooded`).

Does not own: the rules there are, or Rule IV. All statements are about operations that returned.
-/

namespace BitcoinClib.Chains

open BitcoinClib.Lib

/-- What a node passes to its children, from its hash and its cumulative difficulty, which blocks
fit below it, and which difficulties occur. `settled` is asked of a path of first children that is
weighed anew. -/
structure TagRule (Hash W : Type) where
  tag : Hash → ℚ → W
  fits : W → BlockInfo Hash → Prop
  allowed : ℚ → Prop
  settled : Heap (BlockInfo Hash) → ℚ → Option Ptr → Prop

variable {Hash W : Type} {rule : TagRule Hash W} {env : ChainEnv Hash} {fuel : Nat}
  {nodes before after : Heap (BlockInfo Hash)} {list : ActiveChainList Hash}
  {hash : Hash} {hdr : SatoshiBlockHeader Hash} {next orphan head p q : Ptr}
  {cell : Member (BlockInfo Hash)}

namespace TagRule

/-- What a node passes to its children. -/
def attr (rule : TagRule Hash W) (info : BlockInfo Hash) : Option W :=
  some (rule.tag info.hash info.cumulativeDifficulty)

/-- Nothing is above the head of a chain, and a block fits what is above it. -/
def Fits (rule : TagRule Hash W) : Option W → BlockInfo Hash → Prop
  | none, info => info.hdr = none
  | some above, info => info.hdr.isSome ∧ rule.fits above info

/-- The nodes follow the rule, but for the loose ones. -/
abbrev Tags (rule : TagRule Hash W) (nodes : Heap (BlockInfo Hash)) (above : Ptr → Option W)
    (loose : Ptr → Prop) : Prop :=
  Tagged rule.attr rule.Fits nodes above loose

/-- The difficulty of every block is allowed. -/
def Blocks (rule : TagRule Hash W) (env : ChainEnv Hash) (nodes : Heap (BlockInfo Hash)) : Prop :=
  ∀ p member hdr, nodes p = some member → member.val.hdr = some hdr →
    rule.allowed (env.compactUint256ToBdiff hdr.bits)

/-- What the operations of `blockchain_add` ask of a rule. -/
structure Lawful (rule : TagRule Hash W) (env : ChainEnv Hash) : Prop where
  add : ∀ {left right : ℚ}, rule.allowed left → rule.allowed right → rule.allowed (left + right)
  heavy : ∀ {above : W} {info : BlockInfo Hash}, rule.fits above info →
    rule.allowed info.cumulativeDifficulty
  /-- the node of a missing block weighs nothing -/
  relax : ∀ {hash : Hash} {weight : ℚ} {info : BlockInfo Hash},
    rule.fits (rule.tag hash weight) info → rule.fits (rule.tag hash 0) info
  /-- siblings can get a head of their own -/
  split : ∀ {above : W} {info other : BlockInfo Hash} {hdr : SatoshiBlockHeader Hash},
    info.hdr = some hdr → rule.fits above info → rule.fits above other →
    rule.fits (rule.tag hdr.prevHash 0) other
  /-- an abandoned heir fits below the heir before him -/
  orphan : ∀ {parent heir : BlockchainHeir Hash}, Above env parent heir →
    rule.allowed parent.cumulativeDifficulty →
    rule.allowed (env.compactUint256ToBdiff heir.bits) →
    rule.fits (rule.tag parent.hash parent.cumulativeDifficulty) (orphanInfo env heir)
  reweighTree : ∀ {before after : Heap (BlockInfo Hash)} {above : Ptr → Option W} {orphan : Ptr}
    {member : Member (BlockInfo Hash)} {hdr : SatoshiBlockHeader Hash} {base : ℚ}
    {ids : List Ptr}, rule.Tags before above (· = orphan) → before orphan = some member →
    member.val.hdr = some hdr → above orphan = some (rule.tag hdr.prevHash base) →
    base = 0 ∨ rule.allowed base → rule.Blocks env after →
    UpdatedTree env before after base (some orphan) ids →
    ∃ rebased, rule.Tags after rebased fun _ => False
  reweighPath : ∀ {before after : Heap (BlockInfo Hash)} {above : Ptr → Option W} {head : Ptr}
    {member : Member (BlockInfo Hash)} {base : ℚ} {path : List Ptr},
    (rule.Tags before above fun _ => False) → before head = some member →
    member.val.cumulativeDifficulty = 0 → rule.allowed base → rule.Blocks env after →
    rule.settled before base member.firstChild →
    UpdatedPath env before after base member.firstChild path →
    ∃ rebased, rule.Tags after rebased fun _ => False

theorem Blocks.of_stores (blocks : rule.Blocks env nodes) (stores : Stores nodes after) :
    rule.Blocks env after := by
  intro p new hdr live header
  obtain ⟨old, oldLive, val⟩ := stores p new live
  rw [val] at header
  exact blocks p old hdr oldLive header

theorem Blocks.reweighed (blocks : rule.Blocks env before) (reweighed : Reweighed before after) :
    rule.Blocks env after := by
  intro p new hdr live header
  obtain ⟨old, weight, oldLive, rfl⟩ := reweighed.origin live
  exact blocks p old hdr oldLive header

/-- A block enters. -/
theorem Blocks.write (blocks : rule.Blocks env nodes) {new : Member (BlockInfo Hash)}
    (allowed : ∀ hdr, new.val.hdr = some hdr → rule.allowed (env.compactUint256ToBdiff hdr.bits)) :
    rule.Blocks env (nodes.write p new) := by
  intro q member hdr live header
  by_cases here : q = p
  · rw [here, Heap.write_same] at live
    cases live
    exact allowed hdr header
  · rw [Heap.write_of_ne here] at live
    exact blocks q member hdr live header

end TagRule

/-! ## Heads -/

/-- A node without a header weighs nothing. -/
def EmptyHeads (nodes : Heap (BlockInfo Hash)) : Prop :=
  ∀ p head, nodes p = some head → head.val.hdr = none → head.val.cumulativeDifficulty = 0

theorem EmptyHeads.of_stores (heads : EmptyHeads nodes) (stores : Stores nodes after) :
    EmptyHeads after := by
  intro p new live isHead
  obtain ⟨old, oldLive, val⟩ := stores p new live
  rw [val] at isHead ⊢
  exact heads p old oldLive isHead

theorem EmptyHeads.write (heads : EmptyHeads nodes) {new : Member (BlockInfo Hash)}
    (empty : new.val.hdr = none → new.val.cumulativeDifficulty = 0) :
    EmptyHeads (nodes.write p new) := by
  intro q member live isHead
  by_cases here : q = p
  · rw [here, Heap.write_same] at live
    cases live
    exact empty isHead
  · rw [Heap.write_of_ne here] at live
    exact heads q member live isHead

/-- Nodes with headers are weighed anew. -/
theorem EmptyHeads.reweighed (heads : EmptyHeads before) (reweighed : Reweighed before after)
    (kept : ∀ p member, before p = some member → member.val.hdr = none → after p = some member) :
    EmptyHeads after := by
  intro p new live isHead
  obtain ⟨old, weight, oldLive, rfl⟩ := reweighed.origin live
  rw [kept p old oldLive isHead] at live
  rw [← Option.some.inj live]
  exact heads p old oldLive isHead

/-- Active chains have heads, at addresses that were used. -/
def ActiveHeads (list : ActiveChainList Hash) : Prop :=
  ∀ p fields, list.activeChains p = some fields → p < list.next ∧
    ∀ head, list.nodes p = some head → head.val.hdr = none

/-- What was a head is one, and no chain is new. -/
theorem ActiveHeads.step {list after : ActiveChainList Hash} (heads : ActiveHeads list)
    (next : list.next ≤ after.next)
    (chains : ∀ p fields, after.activeChains p = some fields →
      ∃ old, list.activeChains p = some old)
    (stored : ∀ p new, p < list.next → after.nodes p = some new →
      ∃ old, list.nodes p = some old ∧ new.val.hdr = old.val.hdr) : ActiveHeads after := by
  intro p fields active
  obtain ⟨old, wasActive⟩ := chains p fields active
  obtain ⟨inUse, isHead⟩ := heads p old wasActive
  refine ⟨Nat.lt_of_lt_of_le inUse next, fun new live => ?_⟩
  obtain ⟨old, oldLive, same⟩ := stored p new inUse live
  rw [same]
  exact isHead old oldLive

theorem ActiveHeads.of_stores (heads : ActiveHeads list) (stores : Stores list.nodes after) :
    ActiveHeads { list with nodes := after } :=
  heads.step (Nat.le_refl _) (fun _ fields active => ⟨fields, active⟩) fun p new _ live => by
    obtain ⟨old, oldLive, val⟩ := stores p new live
    exact ⟨old, oldLive, congrArg BlockInfo.hdr val⟩

theorem ActiveHeads.reweighed (heads : ActiveHeads list) (reweighed : Reweighed list.nodes after) :
    ActiveHeads { list with nodes := after } :=
  heads.step (Nat.le_refl _) (fun _ fields active => ⟨fields, active⟩) fun p new _ live => by
    obtain ⟨old, weight, oldLive, rfl⟩ := reweighed.origin live
    exact ⟨old, oldLive, rfl⟩

/-- The nodes of the list follow the rule, and its chains have heads that store no block. -/
structure Wooded (rule : TagRule Hash W) (env : ChainEnv Hash) (list : ActiveChainList Hash) :
    Prop where
  tags : ∃ above, rule.Tags list.nodes above fun _ => False
  blocks : rule.Blocks env list.nodes
  empty : EmptyHeads list.nodes
  active : ActiveHeads list

/-! ## A new block -/

/-- Nothing points beyond the addresses in use. -/
theorem unlinked_beyond (links : LinksBelow next nodes) (beyond : next ≤ p) : Unlinked nodes p := by
  intro slot points
  obtain ⟨member, live⟩ := Heap.live_of_target points
  have below := links slot.owner member live
  cases slot with
  | child owner =>
      exact absurd (below.child p ((Heap.target_child live).symm.trans points))
        (Nat.not_lt_of_le beyond)
  | sibling owner =>
      exact absurd (below.sibling p ((Heap.target_sibling live).symm.trans points))
        (Nat.not_lt_of_le beyond)

theorem free_beyond (links : LinksBelow next nodes) : nodes next = none := by
  cases live : nodes next with
  | none => rfl
  | some member => exact absurd (links _ member live).self (Nat.lt_irrefl _)

/-- A block that waits for a place: nothing points to it, and there is none beside it. -/
structure Loose (rule : TagRule Hash W) (env : ChainEnv Hash) (nodes : Heap (BlockInfo Hash))
    (orphan : Ptr) (hdr : SatoshiBlockHeader Hash) : Prop where
  tags : ∃ above, rule.Tags nodes above (· = orphan)
  blocks : rule.Blocks env nodes
  unlinked : Unlinked nodes orphan
  alone : nodes.target (.sibling orphan) = none
  stored : ∃ member, nodes orphan = some member ∧ member.val.hdr = some hdr ∧
    (member.val.cumulativeDifficulty = 0 ∨ rule.allowed member.val.cumulativeDifficulty)

/-- A loose block is given what it will have from above. -/
theorem Loose.rebase (loose : Loose rule env nodes orphan hdr) (base : Option W) :
    ∃ above, rule.Tags nodes above (· = orphan) ∧ above orphan = base := by
  obtain ⟨above, tags⟩ := loose.tags
  obtain ⟨rebased, rebasedTags, inside, -⟩ := tags.rebase loose.unlinked base
    (fun p member sibling _ other => absurd (sibling.alone loose.alone) other)
    (fun _ isOrphan => isOrphan)
  exact ⟨rebased, rebasedTags, inside orphan .self⟩

/-- The node of a new header. -/
theorem newOrphan_loose (links : LinksBelow list.next list.nodes) (wooded : Wooded rule env list)
    (allowed : rule.allowed (env.compactUint256ToBdiff hdr.bits)) :
    Loose rule env (newOrphan env list hash hdr).nodes list.next hdr ∧
      EmptyHeads (newOrphan env list hash hdr).nodes ∧
      ActiveHeads (newOrphan env list hash hdr) := by
  have written : (newOrphan env list hash hdr).nodes =
      list.nodes.write list.next ⟨⟨hash, some hdr, 0⟩, none, none, none⟩ := Heap.write_write
  have free := free_beyond links
  have unlinked := unlinked_beyond links (Nat.le_refl _)
  obtain ⟨above, tags⟩ := wooded.tags
  obtain ⟨entered, enteredTags, -⟩ : ∃ entered, rule.Tags
      (list.nodes.write list.next ⟨⟨hash, some hdr, 0⟩, none, none, none⟩) entered
      (· = list.next) ∧ entered list.next = none ∧
      ∀ q, q ≠ list.next → entered q = above q :=
    tags.enter free unlinked ⟨hash, some hdr, 0⟩ none none (fun other => absurd rfl other)
      (fun _ impossible => impossible.elim)
  refine ⟨⟨⟨entered, ?_⟩, ?_, fun slot points => ?_, ?_, ?_⟩, ?_, ?_⟩
  case refine_1 =>
    rw [written]
    exact enteredTags
  case refine_2 =>
    rw [written]
    exact wooded.blocks.write fun other header => by
      cases header
      exact allowed
  case refine_3 =>
    rw [written, target_writeNew free] at points
    exact unlinked slot points
  case refine_4 => rw [written, Heap.target_sibling Heap.write_same]
  case refine_5 =>
    rw [written]
    exact ⟨_, Heap.write_same, rfl, .inl rfl⟩
  case refine_6 =>
    rw [written]
    exact wooded.empty.write fun isHead => by cases isHead
  case refine_7 =>
    refine wooded.active.step (Nat.le_succ _) (fun _ fields active => ⟨fields, active⟩) ?_
    intro p new inUse live
    rw [written, Heap.write_of_ne (Nat.ne_of_lt inUse)] at live
    exact ⟨new, live, rfl⟩

/-! ## The children of a head -/

/-- A record off a tree is written. -/
theorem UpdatedTree.aside {base : ℚ} {start : Option Ptr} {ids : List Ptr}
    (updated : UpdatedTree env nodes after base start ids) (off : p ∉ ids)
    (member : Member (BlockInfo Hash)) :
    UpdatedTree env (nodes.write p member) (after.write p member) base start ids where
  spans := updated.spans.congr fun q inside old live => by
    have other : q ≠ p := by
      rintro rfl
      exact off inside
    exact ⟨old, (Heap.write_of_ne other).trans live, rfl, rfl⟩
  reweighed := by
    intro q
    by_cases here : q = p
    · rw [here, Heap.write_same, Heap.write_same]
      exact .some ⟨_, rfl⟩
    · rw [Heap.write_of_ne here, Heap.write_of_ne here]
      exact updated.reweighed q
  off := by
    intro q outside
    by_cases here : q = p
    · rw [here, Heap.write_same, Heap.write_same]
    · rw [Heap.write_of_ne here, Heap.write_of_ne here]
      exact updated.off q outside
  heads := by
    intro q old live isHead
    by_cases here : q = p
    · rw [here, Heap.write_same] at live ⊢
      exact live
    · rw [Heap.write_of_ne here] at live ⊢
      exact updated.heads q old live isHead
  weighed := by
    intro distinct
    refine (updated.weighed distinct).congr (updated.reweighed.spans_after updated.spans) ?_
    intro q inside
    have other : q ≠ p := by
      rintro rfl
      exact off inside
    exact Heap.write_of_ne other

section Claim

variable {claimed : Heap (BlockInfo Hash)} {owner : Member (BlockInfo Hash)} {ids : List Ptr}

/-- A new parent with the child of a head, which the head has forgotten. -/
structure Claimed (rule : TagRule Hash W) (nodes claimed : Heap (BlockInfo Hash))
    (orphan head : Ptr) (cell : Member (BlockInfo Hash)) (base : Option W) (ids : List Ptr) :
    Prop where
  off : head ∉ ids
  kept : claimed head = some cell
  tags : ∃ above, rule.Tags (claimed.write head { cell with firstChild := none }) above
    (· = orphan) ∧ above orphan = base
  stores : Stores nodes (claimed.write head { cell with firstChild := none })
  lives : ∀ p old, nodes p = some old → ∃ new,
    (claimed.write head { cell with firstChild := none }) p = some new ∧ new.val = old.val
  unlinked : Unlinked (claimed.write head { cell with firstChild := none }) orphan
  alone : (claimed.write head { cell with firstChild := none }).target (.sibling orphan) = none

/-- A write of what is stored keeps every node live. -/
theorem lives_write {old : Member (BlockInfo Hash)} (live : nodes p = some old)
    (new : Member (BlockInfo Hash)) (val : new.val = old.val) :
    ∀ q before, nodes q = some before → ∃ now, nodes.write p new q = some now ∧
      now.val = before.val := by
  intro q before beforeLive
  by_cases here : q = p
  · rw [here, live] at beforeLive
    cases beforeLive
    exact ⟨new, here ▸ Heap.write_same, val⟩
  · exact ⟨before, (Heap.write_of_ne here).trans beforeLive, rfl⟩

/-- The head has no child. -/
theorem claimed_none (loose : Loose rule env nodes orphan hdr) (base : Option W)
    (orphanLive : nodes orphan = some owner) (childless : owner.firstChild = none)
    (headLive : nodes head = some cell) (other : head ≠ orphan) (noChild : cell.firstChild = none)
    (spans : Spans nodes (some orphan) ids) :
    Claimed rule nodes nodes orphan head cell base ids := by
  have same : nodes.write head { cell with firstChild := none } = nodes := by
    have unchanged : ({ cell with firstChild := none } : Member (BlockInfo Hash)) = cell := by
      rw [← noChild]
    rw [unchanged, Heap.write_self headLive]
  constructor
  case off =>
    cases spans with
    | node live below beside =>
        rw [orphanLive] at live
        cases live
        have noSibling := (Heap.target_sibling orphanLive).symm.trans loose.alone
        rw [childless] at below
        rw [noSibling] at beside
        cases below
        cases beside
        exact fun inside => other (List.mem_singleton.1 inside)
  case kept => exact headLive
  case tags =>
    rw [same]
    exact loose.rebase base
  case stores =>
    rw [same]
    exact fun p new live => ⟨new, live, rfl⟩
  case lives =>
    rw [same]
    exact fun p old live => ⟨old, live, rfl⟩
  case unlinked =>
    rw [same]
    exact loose.unlinked
  case alone =>
    rw [same]
    exact loose.alone

/-- The head has an only child. -/
theorem claimed_child {child : Ptr} (lawful : rule.Lawful env)
    (loose : Loose rule env nodes orphan hdr) (base : Option W)
    (orphanLive : nodes orphan = some owner) (childless : owner.firstChild = none)
    (sameHash : owner.val.hash = cell.val.hash) (weightless : owner.val.cumulativeDifficulty = 0)
    (headLive : nodes head = some cell) (other : head ≠ orphan)
    (isChild : cell.firstChild = some child)
    (claims : claimChildren fuel nodes orphan (some child) = .ok claimed)
    (spans : Spans claimed (some orphan) ids) :
    Claimed rule nodes claimed orphan head cell base ids := by
  have childPoints : nodes.target (.child head) = some child :=
    (Heap.target_child headLive).trans isChild
  have childOther : child ≠ orphan := by
    rintro rfl
    exact loose.unlinked _ childPoints
  obtain ⟨own, childLive, alone, claimedEq⟩ :=
    claimChildren_only orphanLive childless childOther claims
  have childStill : nodes.write orphan { owner with firstChild := some child } child = some own :=
    (Heap.write_of_ne childOther).trans childLive
  have targets : ∀ slot, claimed.target slot =
      if slot = .child orphan then some child else nodes.target slot := by
    intro slot
    rw [claimedEq, target_setParent childStill, target_setFirstChild orphanLive]
  have lives : ∀ p old, nodes p = some old → ∃ new, claimed p = some new ∧ new.val = old.val := by
    intro p old live
    obtain ⟨linked, linkedLive, first⟩ :=
      lives_write orphanLive { owner with firstChild := some child } rfl p old live
    obtain ⟨new, newLive, second⟩ :=
      lives_write childStill { own with parent := some orphan } rfl p linked linkedLive
    rw [claimedEq]
    exact ⟨new, newLive, second.trans first⟩
  have stores : Stores nodes claimed := by
    have first : Stores nodes (nodes.write orphan { owner with firstChild := some child }) :=
      stored_write orphanLive rfl
    have second : Stores _ (Heap.write _ child { own with parent := some orphan }) :=
      stored_write childStill rfl
    rw [claimedEq]
    exact first.trans second
  -- the head points to the child, and so he is not below him
  obtain ⟨off, childInside⟩ : head ∉ ids ∧ child ∈ ids := by
    cases spans with
    | @node _ top below beside live belowSpans besideSpans =>
        have first : top.firstChild = some child := by
          rw [← Heap.target_child live, targets, if_pos rfl]
        have last : top.nextSibling = none := by
          rw [← Heap.target_sibling live, targets, if_neg (by rintro ⟨⟩), loose.alone]
        rw [first] at belowSpans
        rw [last] at besideSpans
        cases besideSpans
        obtain ⟨again, againLive, -⟩ := lives head cell headLive
        have points : claimed.target (.child head) = some child := by
          rw [targets, if_neg (fun same => other (Slot.child.inj same))]
          exact childPoints
        have notBelow : (Slot.child head).owner ∉ below :=
          belowSpans.not_mem_of_points points againLive
        refine ⟨?_, ?_⟩
        · rw [List.append_nil, List.mem_cons, not_or]
          exact ⟨other, notBelow⟩
        · cases belowSpans with
          | node _ _ _ => exact List.mem_cons_of_mem _ (List.mem_append_left _ List.mem_cons_self)
  have headOther : head ≠ child := by
    rintro rfl
    exact off childInside
  have kept : claimed head = some cell := by
    rw [claimedEq, Heap.write_of_ne headOther, Heap.write_of_ne other]
    exact headLive
  have finalTargets : ∀ slot,
      Heap.target (claimed.write head { cell with firstChild := none }) slot =
      if slot = .child head then none else claimed.target slot :=
    fun slot => target_setFirstChild kept none
  have emptiedTargets : ∀ slot,
      Heap.target (nodes.write head { cell with firstChild := none }) slot =
        if slot = .child head then none else nodes.target slot :=
    fun slot => target_setFirstChild headLive none
  have tags : ∃ above, rule.Tags (claimed.write head { cell with firstChild := none }) above
      (· = orphan) ∧ above orphan = base := by
    obtain ⟨above, tags, here⟩ := loose.rebase base
    have emptied : Thinned nodes (nodes.write head { cell with firstChild := none }) :=
      .write headLive rfl (fun _ points => by cases points) fun _ points => points
    have unlinked : Unlinked (nodes.write head { cell with firstChild := none }) child := by
      intro slot points
      rw [emptiedTargets] at points
      split at points
      next => cases points
      next notHead => exact notHead (tags.oneLink slot _ child points childPoints)
    have only : Heap.target (nodes.write head { cell with firstChild := none }) (.sibling child) =
        none := by
      rw [emptiedTargets, if_neg (by rintro ⟨⟩), Heap.target_sibling childLive, alone]
    -- the child had the weight of the head from above, and now has none
    have childAbove : rule.attr cell.val = above child := by
      have passed := tags.inherits _ _ childPoints
      rw [Heap.bequest_child headLive] at passed
      exact Option.some.inj passed
    have childFits := tags.fits child own childLive childOther
    rw [← childAbove] at childFits
    obtain ⟨rebased, rebasedTags, inside, outside⟩ : ∃ rebased,
        rule.Tags (nodes.write head { cell with firstChild := none }) rebased (· = orphan) ∧
        (∀ p, SiblingsFrom (nodes.write head { cell with firstChild := none }) child p →
          rebased p = some (rule.tag cell.val.hash 0)) ∧
        ∀ p, ¬ SiblingsFrom (nodes.write head { cell with firstChild := none }) child p →
          rebased p = above p := by
      refine (tags.thinned emptied).rebase unlinked _ (fun p member sibling live _ => ?_)
        (fun _ isOrphan => isOrphan)
      cases sibling.alone only
      rw [Heap.write_of_ne (Ne.symm headOther), childLive] at live
      cases live
      exact ⟨childFits.1, lawful.relax childFits.2⟩
    have orphanBase : rebased orphan = base := by
      rw [outside orphan fun sibling => childOther (sibling.alone only).symm]
      exact here
    have stored : Stores (nodes.write head { cell with firstChild := none })
        (claimed.write head { cell with firstChild := none }) := by
      intro p new live
      by_cases here : p = head
      · rw [here, Heap.write_same] at live
        exact ⟨new, by rw [here, Heap.write_same]; exact live, rfl⟩
      · rw [Heap.write_of_ne here] at live ⊢
        exact stores p new live
    have links : ∀ slot, Heap.target (claimed.write head { cell with firstChild := none }) slot =
        if slot = .child orphan then some child
        else Heap.target (nodes.write head { cell with firstChild := none }) slot := by
      intro slot
      rw [finalTargets, emptiedTargets, targets]
      split
      next isHead =>
        have notOrphan : slot ≠ .child orphan := by
          rintro rfl
          exact other (Slot.child.inj isHead).symm
        rw [if_neg notOrphan]
      next => rfl
    refine ⟨rebased, rebasedTags.redirect (.child orphan) (some child) ?_ stored links ?_,
      orphanBase⟩
    · rintro q ⟨⟩
      exact unlinked
    · rintro q ⟨⟩
      rw [Heap.bequest_child ((Heap.write_of_ne (Ne.symm other)).trans orphanLive),
        inside child .self, TagRule.attr, sameHash, weightless]
  refine ⟨off, kept, tags, stores.trans (stored_write kept rfl), ?_, ?_, ?_⟩
  case refine_1 =>
    intro p old live
    obtain ⟨linked, linkedLive, first⟩ := lives p old live
    obtain ⟨new, newLive, second⟩ :=
      lives_write kept { cell with firstChild := none } rfl p linked linkedLive
    exact ⟨new, newLive, second.trans first⟩
  case refine_2 =>
    intro slot points
    rw [finalTargets] at points
    split at points
    next => cases points
    next =>
      rw [targets] at points
      split at points
      next => exact childOther (Option.some.inj points)
      next => exact loose.unlinked slot points
  case refine_3 =>
    rw [finalTargets, if_neg (by rintro ⟨⟩), targets, if_neg (by rintro ⟨⟩)]
    exact loose.alone

end Claim

section Rules

variable [DecidableEq Hash] {placed : ActiveChainList Hash}

/-- `list_remove` makes no chain active. -/
theorem listRemove_active {chain : Ptr} {removed : ActiveChainList Hash}
    (returns : listRemove fuel list chain = .ok removed) :
    ∀ p fields, removed.activeChains p = some fields → list.activeChains p = some fields := by
  rw [listRemove] at returns
  by_cases listed : chain ∈ list.chains
  · simp only [if_pos listed, activeChainFree, Exec.bind_eq_ok] at returns
    obtain ⟨freed, ⟨fields, -, top, -, frees⟩, returns⟩ := returns
    have shape : freed.activeChains = fun p =>
        if p = chain then none else list.activeChains p := by
      by_cases hasRoot : fields.pSearchRoot = true
      · simp only [if_pos hasRoot, Exec.bind_eq_ok] at frees
        obtain ⟨searchRoot, -, deleted, -, _, -, nodes, -, frees⟩ := frees
        cases frees
        rfl
      · simp only [if_neg hasRoot, Exec.ok_bind, Exec.bind_eq_ok] at frees
        obtain ⟨nodes, -, frees⟩ := frees
        cases frees
        rfl
    cases returns
    intro p fields active
    change freed.activeChains p = some fields at active
    rw [shape] at active
    dsimp only at active
    split at active
    next => cases active
    next => exact active
  · rw [if_neg listed] at returns
    cases returns
    exact fun _ _ active => active

omit [DecidableEq Hash] in
theorem Remains.stores (remains : Remains before after) : Stores before after :=
  fun p new live => ⟨new, remains p new live, rfl⟩

omit [DecidableEq Hash] in
/-- A block that follows the rule is allowed. -/
theorem TagRule.Fits.allowed (lawful : rule.Lawful env) {above : Option W} {info : BlockInfo Hash}
    (fits : rule.Fits above info) (isBlock : info.hdr.isSome) :
    rule.allowed info.cumulativeDifficulty := by
  cases above with
  | none =>
      change info.hdr = none at fits
      rw [fits] at isBlock
      cases isBlock
  | some above => exact lawful.heavy fits.2

omit [DecidableEq Hash] in
/-- The children of a head are claimed by the new block it waited for. -/
theorem claimed_cases (lawful : rule.Lawful env) {claimed : Heap (BlockInfo Hash)}
    {owner : Member (BlockInfo Hash)} {ids : List Ptr} (loose : Loose rule env nodes orphan hdr)
    (base : Option W) (orphanLive : nodes orphan = some owner) (childless : owner.firstChild = none)
    (sameHash : owner.val.hash = cell.val.hash) (weightless : owner.val.cumulativeDifficulty = 0)
    (headLive : nodes head = some cell) (other : head ≠ orphan)
    (claims : claimChildren fuel nodes orphan cell.firstChild = .ok claimed)
    (spans : Spans claimed (some orphan) ids) :
    Claimed rule nodes claimed orphan head cell base ids := by
  cases isChild : cell.firstChild with
  | none =>
      rw [isChild] at claims
      have same : claimed = nodes := by
        cases fuel <;> cases claims
        rfl
      rw [same] at spans ⊢
      exact claimed_none loose base orphanLive childless headLive other isChild spans
  | some child =>
      rw [isChild] at claims
      exact claimed_child lawful loose base orphanLive childless sameHash weightless headLive other
        isChild claims spans

/-- The missing parent of a chain arrives and claims the children of its head. -/
theorem chainSubRules_loose (lawful : rule.Lawful env) (links : list.Links)
    (wooded : Wooded rule env list) (allowed : rule.allowed (env.compactUint256ToBdiff hdr.bits))
    (headLive : list.nodes head = some cell) (headHash : cell.val.hash = hash)
    (returns : chainSubRules fuel env list head hash hdr = .ok placed) :
    Loose rule env placed.nodes list.next hdr ∧ EmptyHeads placed.nodes ∧ ActiveHeads placed := by
  simp only [chainSubRules, Exec.bind_eq_ok] at returns
  obtain ⟨removed, removes, owner, readsOwner, claimed, claims, ⟨updated, _⟩, updates, top,
    readsTop, rest⟩ := returns
  obtain ⟨-, removedEq⟩ := listSearchTreeRemove_pruned headLive removes
  have removedWooded : Wooded rule env removed := by
    rw [removedEq]
    exact ⟨wooded.tags, wooded.blocks, wooded.empty, wooded.active⟩
  have sameNodes : removed.nodes = list.nodes := by rw [removedEq]
  have sameNext : removed.next = list.next := by rw [removedEq]
  have removedLinks : LinksBelow removed.next removed.nodes := by
    rw [sameNodes, sameNext]
    exact links.nodes
  obtain ⟨loose, empty, active⟩ : Loose rule env (newOrphan env removed hash hdr).nodes
      removed.next hdr ∧ EmptyHeads (newOrphan env removed hash hdr).nodes ∧
      ActiveHeads (newOrphan env removed hash hdr) :=
    newOrphan_loose removedLinks removedWooded allowed
  have written : (newOrphan env removed hash hdr).nodes =
      removed.nodes.write removed.next ⟨⟨hash, some hdr, 0⟩, none, none, none⟩ := Heap.write_write
  have other : head ≠ removed.next := by
    rw [sameNext]
    exact Nat.ne_of_lt (links.nodes head cell headLive).self
  have headStill : (newOrphan env removed hash hdr).nodes head = some cell := by
    rw [written, Heap.write_of_ne other, sameNodes]
    exact headLive
  have orphanLive : (newOrphan env removed hash hdr).nodes removed.next =
      some ⟨⟨hash, some hdr, 0⟩, none, none, none⟩ := by
    rw [written, Heap.write_same]
  rw [Heap.read_eq headStill] at readsOwner
  cases readsOwner
  obtain ⟨ids, updatedTree⟩ := blockInfoUpdate_weighed.1 updates
  have isClaimed : Claimed rule (newOrphan env removed hash hdr).nodes claimed removed.next head
      cell (some (rule.tag hdr.prevHash 0)) ids :=
    claimed_cases lawful loose _ orphanLive rfl headHash.symm rfl headStill other claims
      updatedTree.spans
  have aside := updatedTree.aside isClaimed.off { cell with firstChild := none }
  have sameTop : top = cell := by
    have live := Heap.read_eq_ok.1 readsTop
    rw [updatedTree.off head isClaimed.off, isClaimed.kept] at live
    exact (Option.some.inj live).symm
  rw [sameTop] at rest
  obtain ⟨above, tags, base⟩ := isClaimed.tags
  obtain ⟨own, ownLive, ownVal⟩ := isClaimed.lives _ _ orphanLive
  have blocks := loose.blocks.of_stores isClaimed.stores
  obtain ⟨rebased, rebasedTags⟩ := lawful.reweighTree tags ownLive (congrArg BlockInfo.hdr ownVal)
    base (.inl rfl) (blocks.reweighed aside.reweighed) aside
  obtain ⟨frame, remains, next, -⟩ := listRemove_childless Heap.write_same rfl rest
  obtain ⟨weight, finalLive⟩ := aside.reweighed.live ownLive
  have placedLive := (frame removed.next (Ne.symm other)).trans finalLive
  have thinned := Thinned.of_subset remains
  have placedTags := rebasedTags.thinned thinned
  rw [← sameNext]
  refine ⟨⟨⟨rebased, placedTags.loosen fun _ impossible => impossible.elim⟩, ?_, ?_, ?_,
    _, placedLive, congrArg BlockInfo.hdr ownVal, .inr ?_⟩, ?_, ?_⟩
  case refine_1 => exact (blocks.reweighed aside.reweighed).of_stores remains.stores
  case refine_2 =>
    refine thinned.unlinked fun slot points => ?_
    have before := (aside.reweighed.target slot).symm.trans points
    exact isClaimed.unlinked slot before
  case refine_3 =>
    rw [Heap.target_congr (frame removed.next (Ne.symm other)), aside.reweighed.target]
    exact isClaimed.alone
  case refine_4 =>
    have fits := placedTags.fits _ _ placedLive fun impossible => impossible
    refine fits.allowed lawful ?_
    change own.val.hdr.isSome
    rw [ownVal]
    rfl
  case refine_5 =>
    exact ((empty.of_stores isClaimed.stores).reweighed aside.reweighed aside.heads).of_stores
      remains.stores
  case refine_6 =>
    have stored := (active.of_stores isClaimed.stores).reweighed aside.reweighed
    refine stored.step ?_ ?_ ?_
    · exact Nat.le_of_eq next.symm
    · exact fun p fields isActive => ⟨fields, listRemove_active rest p fields isActive⟩
    · exact fun p new _ live => ⟨new, remains p new live, rfl⟩

omit [DecidableEq Hash] in
/-- A new node is put above a node that nothing points to. -/
theorem putAbove_tags {above : Ptr → Option W} {loose : Ptr → Prop} {info : BlockInfo Hash}
    {top child : Ptr} {base : Option W} (tags : rule.Tags nodes above loose)
    (free : nodes top = none) (fresh : Unlinked nodes top) (unlinked : Unlinked nodes child)
    (fit : rule.Fits base info) (below : above child = rule.attr info) (other : child ≠ top) :
    ∃ entered, rule.Tags (nodes.write top ⟨info, none, some child, none⟩) entered loose ∧
      entered top = base ∧ ∀ q, q ≠ top → entered q = above q := by
  obtain ⟨entered, enteredTags, here, others⟩ : ∃ entered,
      rule.Tags (nodes.write top ⟨info, none, none, none⟩) entered loose ∧ entered top = base ∧
      ∀ q, q ≠ top → entered q = above q :=
    tags.enter free fresh info none base (fun _ => fit) (fun _ isLoose => isLoose)
  have live : nodes.write top ⟨info, none, none, none⟩ top = some ⟨info, none, none, none⟩ :=
    Heap.write_same
  have linked : rule.Tags ((nodes.write top ⟨info, none, none, none⟩).write top
      ⟨info, none, some child, none⟩) entered loose := by
    refine enteredTags.redirect (.child top) (some child) ?_ (stored_write live rfl)
      (fun slot => target_setFirstChild live (some child)) ?_
    · rintro q ⟨⟩ slot points
      rw [target_writeNew free] at points
      exact unlinked slot points
    · rintro q ⟨⟩
      rw [Heap.bequest_child live, others child other, below]
  rw [Heap.write_write] at linked
  exact ⟨entered, linked, here, others⟩

omit [DecidableEq Hash] in
/-- The node of a list joined and weighed anew. -/
theorem Loose.weigh (lawful : rule.Lawful env) {above : Ptr → Option W} {base : ℚ} {ids : List Ptr}
    {member : Member (BlockInfo Hash)} (tags : rule.Tags nodes above (· = orphan))
    (blocks : rule.Blocks env nodes) (empty : EmptyHeads nodes)
    (live : nodes orphan = some member) (header : member.val.hdr = some hdr)
    (here : above orphan = some (rule.tag hdr.prevHash base))
    (notNegative : base = 0 ∨ rule.allowed base)
    (updated : UpdatedTree env nodes after base (some orphan) ids) :
    (∃ rebased, rule.Tags after rebased fun _ => False) ∧ rule.Blocks env after ∧
      EmptyHeads after := by
  have weighedBlocks := blocks.reweighed updated.reweighed
  exact ⟨lawful.reweighTree tags live header here notNegative weighedBlocks updated, weighedBlocks,
    empty.reweighed updated.reweighed updated.heads⟩

omit [DecidableEq Hash] in
/-- Rule II: the block joins the chain of the block it names. -/
theorem ruleII_wooded (lawful : rule.Lawful env) {parent chain : Ptr}
    {owner : Member (BlockInfo Hash)} (loose : Loose rule env list.nodes orphan hdr)
    (empty : EmptyHeads list.nodes) (active : ActiveHeads list)
    (ownerLive : list.nodes parent = some owner) (names : owner.val.hash = hdr.prevHash)
    (returns : ruleII fuel env list parent orphan = .ok (placed, chain)) :
    Wooded rule env placed := by
  simp only [ruleII, Exec.bind_eq_ok] at returns
  obtain ⟨found, -, joined, joins, cell, readsCell, ⟨updated, longest⟩, updates, fields, isActive,
    _, -, returns⟩ := returns
  obtain ⟨above, tags, base⟩ := loose.rebase (rule.attr owner.val)
  obtain ⟨joinedTags, stores, -⟩ :=
    blockInfoAddChild_tagged tags loose.unlinked ownerLive base joins
  have cellVal : cell.val = owner.val := by
    obtain ⟨old, oldLive, val⟩ := stores parent cell (Heap.read_eq_ok.1 readsCell)
    rw [ownerLive] at oldLive
    cases oldLive
    exact val
  -- a head weighs nothing, and the weight of a block is allowed
  have notNegative : cell.val.cumulativeDifficulty = 0 ∨
      rule.allowed cell.val.cumulativeDifficulty := by
    rw [cellVal]
    by_cases same : parent = orphan
    · obtain ⟨member, live, -, weight⟩ := loose.stored
      rw [same, live] at ownerLive
      cases ownerLive
      exact weight
    · cases header : owner.val.hdr with
      | none => exact .inl (empty parent owner ownerLive header)
      | some _ =>
          have fits := tags.fits parent owner ownerLive same
          exact .inr (fits.allowed lawful (by rw [header]; rfl))
  obtain ⟨ids, updatedTree⟩ := blockInfoUpdate_weighed.1 updates
  obtain ⟨orphanCell, orphanLive, header, -⟩ := loose.stored
  obtain ⟨joinedCell, joinedLive, sameBlock⟩ :=
    (blockInfoAddChild_relinked joins).1.live orphanLive
  have here : above orphan = some (rule.tag hdr.prevHash cell.val.cumulativeDifficulty) := by
    rw [base, TagRule.attr, names, cellVal]
  obtain ⟨⟨rebased, rebasedTags⟩, blocks, heads⟩ := Loose.weigh lawful joinedTags
    (loose.blocks.of_stores stores) (empty.of_stores stores) joinedLive
    (sameBlock.hdr.trans header) here notNegative updatedTree
  have weighedActive := (active.of_stores stores).reweighed updatedTree.reweighed
  cases longest with
  | none => cases returns
  | some longest =>
      cases longest with
      | none => cases returns
      | some longestEnd =>
          simp only at returns
          by_cases same : some longestEnd = fields.longestEnd
          · rw [if_pos same] at returns
            cases returns
            exact ⟨⟨rebased, rebasedTags⟩, blocks, heads, weighedActive⟩
          · simp only [if_neg same, Exec.bind_eq_ok] at returns
            obtain ⟨declared, declares, returns⟩ := returns
            cases returns
            obtain ⟨declaredTags, declaredStores⟩ :=
              blockInfoDeclareInheritance_tagged rebasedTags declares
            have declaredActive := weighedActive.of_stores declaredStores
            refine ⟨⟨rebased, declaredTags⟩, blocks.of_stores declaredStores,
              heads.of_stores declaredStores, declaredActive.step (Nat.le_refl _) ?_ ?_⟩
            · intro p now nowActive
              by_cases isChain : p = chain
              · exact ⟨fields, isChain ▸ Exec.deref_eq_ok.1 isActive⟩
              · exact ⟨now, (if_neg isChain).symm.trans nowActive⟩
            · exact fun p new _ live => ⟨new, live, rfl⟩

/-- `active_chain_new` for a block: a head for the hash it names, above the block. -/
theorem activeChainNew_opens {created : ActiveChainList Hash}
    (links : LinksBelow list.next list.nodes)
    (returns : activeChainNew fuel list orphan false = .ok created) :
    ∃ cell hdr fields, list.nodes orphan = some cell ∧ cell.val.hdr = some hdr ∧
      orphan ≠ list.next ∧
      created.nodes = (list.nodes.write list.next
        ⟨⟨hdr.prevHash, none, 0⟩, none, some orphan, none⟩).write orphan
          { cell with parent := some list.next } ∧
      created.next = list.next + 1 ∧
      created.activeChains = fun p =>
        if p = list.next then some fields else list.activeChains p := by
  rw [activeChainNew, Exec.bind_eq_ok] at returns
  obtain ⟨cell, readsCell, returns⟩ := returns
  have live := Heap.read_eq_ok.1 readsCell
  have other : orphan ≠ list.next := Nat.ne_of_lt (links orphan cell live).self
  cases header : cell.val.hdr with
  | none =>
      rw [header] at returns
      cases returns
  | some hdr =>
      simp only [header, Exec.ok_bind, Exec.bind_eq_ok, Bool.false_eq_true, if_false] at returns
      obtain ⟨again, reads, longestEnd, -, returns⟩ := returns
      cases returns
      rw [Heap.read_eq ((Heap.write_of_ne other).trans live)] at reads
      cases reads
      exact ⟨cell, hdr, _, live, header, other, rfl, rfl, rfl⟩

/-- The new head stores no block, and the chains that were there have theirs. -/
theorem activeChainNew_heads {created : ActiveChainList Hash}
    (links : LinksBelow list.next list.nodes) (blocks : rule.Blocks env list.nodes)
    (empty : EmptyHeads list.nodes) (active : ActiveHeads list)
    (returns : activeChainNew fuel list orphan false = .ok created) :
    rule.Blocks env created.nodes ∧ EmptyHeads created.nodes ∧ ActiveHeads created ∧
      ∀ p old, list.nodes p = some old → ∃ new, created.nodes p = some new ∧
        new.val = old.val := by
  obtain ⟨cell, hdr, fields, live, header, other, nodesEq, nextEq, chainsEq⟩ :=
    activeChainNew_opens links returns
  have orphanLive : list.nodes.write list.next
      ⟨⟨hdr.prevHash, none, 0⟩, none, some orphan, none⟩ orphan = some cell :=
    (Heap.write_of_ne other).trans live
  have hung := thinned_setParent orphanLive (some list.next)
  rw [← nodesEq] at hung
  refine ⟨?_, ?_, ?_, ?_⟩
  case refine_1 =>
    refine TagRule.Blocks.of_stores (blocks.write fun _ isHeader => ?_) hung.stored
    cases isHeader
  case refine_2 => exact EmptyHeads.of_stores (empty.write fun _ => rfl) hung.stored
  case refine_3 =>
    intro p now isActive
    rw [chainsEq] at isActive
    rw [nextEq]
    dsimp only at isActive
    split at isActive
    next isNew =>
      refine ⟨isNew ▸ Nat.lt_succ_self _, fun top topLive => ?_⟩
      rw [isNew, nodesEq, Heap.write_of_ne (Ne.symm other), Heap.write_same] at topLive
      cases topLive
      rfl
    next notNew =>
      obtain ⟨inUse, isHead⟩ := active p now isActive
      refine ⟨Nat.lt_succ_of_lt inUse, fun top topLive => ?_⟩
      obtain ⟨old, oldLive, val⟩ := hung.stored p top topLive
      rw [Heap.write_of_ne notNew] at oldLive
      rw [val]
      exact isHead old oldLive
  case refine_4 =>
    intro p old oldLive
    have notNew : p ≠ list.next := Nat.ne_of_lt (links p old oldLive).self
    rw [nodesEq]
    exact lives_write orphanLive { cell with parent := some list.next } rfl p old
      ((Heap.write_of_ne notNew).trans oldLive)

/-- Rule III: the block gets a chain of its own. -/
theorem ruleIII_wooded (lawful : rule.Lawful env) {chain : Ptr}
    (links : LinksBelow list.next list.nodes) (loose : Loose rule env list.nodes orphan hdr)
    (empty : EmptyHeads list.nodes) (active : ActiveHeads list)
    (returns : ruleIII fuel env list orphan = .ok (placed, chain)) : Wooded rule env placed := by
  simp only [ruleIII, Exec.bind_eq_ok] at returns
  obtain ⟨created, creates, fields, -, indexed, indexes, added, adds, stored, isActive,
    ⟨updated, longest⟩, updates, returns⟩ := returns
  obtain ⟨above, tags, base⟩ := loose.rebase (some (rule.tag hdr.prevHash 0))
  obtain ⟨cell, live, header, -⟩ := loose.stored
  obtain ⟨blocks, heads, createdActive, lives⟩ :=
    activeChainNew_heads links loose.blocks empty active creates
  obtain ⟨again, hdr', newFields, againLive, header', other, nodesEq, -, chainsEq⟩ :=
    activeChainNew_opens links creates
  rw [live] at againLive
  cases againLive
  rw [header] at header'
  cases header'
  have isHead : rule.Fits none (⟨hdr.prevHash, none, 0⟩ : BlockInfo Hash) := rfl
  obtain ⟨entered, openTags, -, others⟩ := putAbove_tags tags (free_beyond links)
    (unlinked_beyond links (Nat.le_refl _)) loose.unlinked isHead base other
  have createdTags := openTags.thinned
    (thinned_setParent ((Heap.write_of_ne other).trans live) (some list.next))
  rw [← nodesEq] at createdTags
  -- the index and the array of chains do not matter here
  simp only [listSearchTreeAdd, Exec.bind_eq_ok] at indexes
  obtain ⟨⟨entry, searchRoot⟩, -, _, -, indexes⟩ := indexes
  cases indexes
  have addedEq := listAdd_of_searchRoot (if_pos rfl) rfl adds
  have addedNodes : added.nodes = created.nodes := by rw [addedEq]; rfl
  rw [addedNodes] at updates
  obtain ⟨ids, updatedTree⟩ := blockInfoUpdate_weighed.1 updates
  obtain ⟨new, newLive, val⟩ := lives orphan cell live
  obtain ⟨⟨rebased, rebasedTags⟩, weighedBlocks, weighedHeads⟩ := Loose.weigh lawful createdTags
    blocks heads newLive ((congrArg BlockInfo.hdr val).trans header)
    ((others orphan other).trans base) (.inl rfl) updatedTree
  cases longest with
  | none => cases returns
  | some longestEnd =>
      cases returns
      refine ⟨⟨rebased, rebasedTags⟩, weighedBlocks, weighedHeads, ?_⟩
      refine (createdActive.reweighed updatedTree.reweighed).step ?_ ?_ ?_
      · rw [addedEq]
        exact Nat.le_refl _
      · intro p now nowActive
        change (if p = list.next then _ else added.activeChains p) = some now at nowActive
        rw [addedEq] at nowActive
        change (if p = list.next then _ else if p = list.next then _ else
          created.activeChains p) = some now at nowActive
        by_cases isChain : p = list.next
        · rw [isChain, chainsEq]
          exact ⟨newFields, if_pos rfl⟩
        · rw [if_neg isChain, if_neg isChain] at nowActive
          exact ⟨now, nowActive⟩
      · exact fun p new _ live => ⟨new, live, rfl⟩

/-- Rules I to III: the block enters the index and gets its place. -/
theorem placeOrphan_wooded (lawful : rule.Lawful env) {chain : Ptr} (links : list.Links)
    (loose : Loose rule env list.nodes orphan hdr) (empty : EmptyHeads list.nodes)
    (active : ActiveHeads list)
    (returns : placeOrphan fuel env list orphan hdr = .ok (placed, chain)) :
    Wooded rule env placed := by
  simp only [placeOrphan, listSearchTreeAdd, Exec.bind_eq_ok] at returns
  obtain ⟨indexed, ⟨⟨entry, searchRoot⟩, -, _, -, indexes⟩, found, finds, returns⟩ := returns
  cases indexes
  have indexedLinks : LinksBelow ({ list with searchRoot } : ActiveChainList Hash).next
    ({ list with searchRoot } : ActiveChainList Hash).nodes := links.nodes
  have indexedLoose : Loose rule env ({ list with searchRoot } : ActiveChainList Hash).nodes
    orphan hdr := loose
  have indexedActive : ActiveHeads ({ list with searchRoot } : ActiveChainList Hash) := active
  cases found with
  | some parent =>
      obtain ⟨owner, ownerLive, names⟩ := nodeHash_eq_ok.1 (SearchTree.tfind_some finds).2
      exact ruleII_wooded lawful indexedLoose empty indexedActive ownerLive names returns
  | none => exact ruleIII_wooded lawful indexedLinks indexedLoose empty indexedActive returns

/-- A header that is let in leaves the list wooded. -/
theorem letIn_wooded (lawful : rule.Lawful env) {chain : Blockchain Hash} {top : Ptr}
    (links : chain.candidatesList.Links) (wooded : Wooded rule env chain.candidatesList)
    (allowed : rule.allowed (env.compactUint256ToBdiff hdr.bits))
    (returns : letIn fuel env chain hdr = .ok (some (placed, top))) : Wooded rule env placed := by
  obtain ⟨entered, -, ⟨-, rfl⟩ | ⟨head, cell, live, -, headHash, -, claims⟩, places⟩ :=
    letIn_steps returns
  · obtain ⟨loose, empty, active⟩ :
        Loose rule env (newOrphan env chain.candidatesList (env.hash256 hdr) hdr).nodes
          chain.candidatesList.next hdr ∧
        EmptyHeads (newOrphan env chain.candidatesList (env.hash256 hdr) hdr).nodes ∧
        ActiveHeads (newOrphan env chain.candidatesList (env.hash256 hdr) hdr) :=
      newOrphan_loose links.nodes wooded allowed
    have entered : Entered (env.hash256 hdr) hdr (fun _ => False) chain.candidatesList
        (newOrphan env chain.candidatesList (env.hash256 hdr) hdr) := newOrphan_entered links
    exact placeOrphan_wooded lawful entered.links loose empty active places
  · obtain ⟨loose, empty, active⟩ :=
      chainSubRules_loose lawful links wooded allowed live headHash claims
    have entered := chainSubRules_entered links live headHash claims
    exact placeOrphan_wooded lawful entered.links loose empty active places

end Rules

end BitcoinClib.Chains
