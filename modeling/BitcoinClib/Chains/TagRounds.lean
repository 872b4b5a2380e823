import BitcoinClib.Chains.TagRules
import BitcoinClib.Chains.Succession

/-!
Contract: rules for what candidate nodes pass to their children, under Rule IV.

Owns:
- `HeirsAllowed`, the heirs that can be abandoned under a rule, and `Waiting`, what becomes of
  them;
- that the winner of a round leaves the list wooded (`Departure.wooded`);
- `TagRule.SettledRound`, what is asked of the path that a round weighs anew, and that every run
  of calls that meet it keeps the list wooded (`Run.wooded`).

Does not own: Rules 0 to III, or the rules there are.
-/

namespace BitcoinClib.Chains

open BitcoinClib.Lib

variable {Hash W : Type} {rule : TagRule Hash W} {env : ChainEnv Hash} {fuel : Nat}
  {nodes : Heap (BlockInfo Hash)} {list : ActiveChainList Hash} {p q : Ptr}

/-! ## Abandoned heirs -/

/-- The sums and the difficulties of the heirs are allowed. -/
def HeirsAllowed (rule : TagRule Hash W) (env : ChainEnv Hash)
    (heirs : List (BlockchainHeir Hash)) : Prop :=
  ∀ heir ∈ heirs, rule.allowed heir.cumulativeDifficulty ∧
    rule.allowed (env.compactUint256ToBdiff heir.bits)

/-- The list is wooded, and the first of the orphans can be put below an heir. -/
structure Waiting (rule : TagRule Hash W) (env : ChainEnv Hash) (list : ActiveChainList Hash)
    (parent : BlockchainHeir Hash) (orphans : Option Ptr) : Prop where
  wooded : Wooded rule env list
  tags : ∃ above, (rule.Tags list.nodes above fun _ => False) ∧
    ∀ p, orphans = some p →
      above p = some (rule.tag parent.hash parent.cumulativeDifficulty)
  unlinked : ∀ p, orphans = some p → Unlinked list.nodes p
  alone : ∀ p, orphans = some p → list.nodes.target (.sibling p) = none

/-- The node of an abandoned heir with the orphans below him. -/
theorem linkOrphans_eq {info : BlockInfo Hash} {top : Ptr} {orphans : Option Ptr}
    {after : Heap (BlockInfo Hash)} (notTop : ∀ p, orphans = some p → p ≠ top)
    (returns : linkOrphans (nodes.write top ⟨info, none, none, none⟩) top orphans = .ok after) :
    orphans = none ∧ after = nodes.write top ⟨info, none, none, none⟩ ∨
      ∃ orphan cell, orphans = some orphan ∧ nodes orphan = some cell ∧
        after = (nodes.write top ⟨info, none, some orphan, none⟩).write orphan
          { cell with parent := some top } := by
  rw [linkOrphans, Heap.read_eq Heap.write_same, Exec.ok_bind, Heap.write_write] at returns
  cases orphans with
  | none =>
      cases returns
      exact .inl ⟨rfl, rfl⟩
  | some orphan =>
      simp only [Exec.bind_eq_ok] at returns
      obtain ⟨cell, reads, returns⟩ := returns
      have live := Heap.read_eq_ok.1 reads
      rw [Heap.write_of_ne (notTop orphan rfl)] at live
      cases returns
      exact .inr ⟨orphan, cell, rfl, live, rfl⟩

/-- The last heir leaves and takes the orphans below him. -/
theorem Waiting.abandon (lawful : rule.Lawful env) {parent last : BlockchainHeir Hash}
    {orphans : Option Ptr} {after : Heap (BlockInfo Hash)}
    (waiting : Waiting rule env list last orphans) (links : LinksBelow list.next list.nodes)
    (above : Above env parent last) (parentAllowed : rule.allowed parent.cumulativeDifficulty)
    (bitsAllowed : rule.allowed (env.compactUint256ToBdiff last.bits))
    (inUse : ∀ p, orphans = some p → p < list.next)
    (returns : linkOrphans (list.nodes.write list.next ⟨orphanInfo env last, none, none, none⟩)
      list.next orphans = .ok after) :
    Waiting rule env { list with nodes := after, next := list.next + 1 } parent
      (some list.next) := by
  have free := free_beyond links
  have fresh := unlinked_beyond links (Nat.le_refl _)
  have fit : rule.Fits (some (rule.tag parent.hash parent.cumulativeDifficulty))
      (orphanInfo env last) := ⟨rfl, lawful.orphan above parentAllowed bitsAllowed⟩
  have blocks : ∀ child, rule.Blocks env
      (list.nodes.write list.next ⟨orphanInfo env last, none, child, none⟩) := by
    intro child
    refine waiting.wooded.blocks.write fun hdr header => ?_
    cases header
    exact bitsAllowed
  have heads : ∀ child, EmptyHeads
      (list.nodes.write list.next ⟨orphanInfo env last, none, child, none⟩) := by
    intro child
    refine waiting.wooded.empty.write fun isHead => ?_
    cases isHead
  have active : ∀ now : Heap (BlockInfo Hash),
      (∀ p new, p < list.next → now p = some new →
        ∃ old, list.nodes p = some old ∧ new.val.hdr = old.val.hdr) →
      ActiveHeads { list with nodes := now, next := list.next + 1 } := fun now stored =>
    waiting.wooded.active.step (Nat.le_succ _) (fun _ fields active => ⟨fields, active⟩) stored
  obtain ⟨earlier, tags, base⟩ := waiting.tags
  rcases linkOrphans_eq (fun p isOrphan => Nat.ne_of_lt (inUse p isOrphan)) returns with
    ⟨rfl, rfl⟩ | ⟨orphan, cell, rfl, live, rfl⟩
  · obtain ⟨entered, enteredTags, here, -⟩ : ∃ entered, (rule.Tags (list.nodes.write list.next
        ⟨orphanInfo env last, none, none, none⟩) entered fun _ => False) ∧
        entered list.next = some (rule.tag parent.hash parent.cumulativeDifficulty) ∧
        ∀ q, q ≠ list.next → entered q = earlier q :=
      tags.enter free fresh _ none _ (fun _ => fit) (fun _ isLoose => isLoose)
    refine ⟨⟨⟨entered, enteredTags⟩, blocks none, heads none, active _ ?_⟩, ⟨entered,
      enteredTags, ?_⟩, ?_, ?_⟩
    case refine_1 =>
      intro p new below nowLive
      rw [Heap.write_of_ne (Nat.ne_of_lt below)] at nowLive
      exact ⟨new, nowLive, rfl⟩
    case refine_2 =>
      rintro p ⟨⟩
      exact here
    case refine_3 =>
      rintro p ⟨⟩ slot points
      rw [target_writeNew free] at points
      exact fresh slot points
    case refine_4 =>
      rintro p ⟨⟩
      exact Heap.target_sibling Heap.write_same
  · have other : orphan ≠ list.next := Nat.ne_of_lt (inUse orphan rfl)
    obtain ⟨entered, enteredTags, here, -⟩ := putAbove_tags tags free fresh
      (waiting.unlinked orphan rfl) fit (base orphan rfl) other
    have orphanLive : list.nodes.write list.next ⟨orphanInfo env last, none, some orphan, none⟩
        orphan = some cell := (Heap.write_of_ne other).trans live
    have hung := thinned_setParent orphanLive (some list.next)
    have finalTags := enteredTags.thinned hung
    refine ⟨⟨⟨entered, finalTags⟩, (blocks _).of_stores hung.stored,
      (heads _).of_stores hung.stored, active _ ?_⟩, ⟨entered, finalTags, ?_⟩, ?_, ?_⟩
    case refine_1 =>
      intro p new below nowLive
      obtain ⟨old, oldLive, val⟩ := hung.stored p new nowLive
      rw [Heap.write_of_ne (Nat.ne_of_lt below)] at oldLive
      exact ⟨old, oldLive, congrArg BlockInfo.hdr val⟩
    case refine_2 =>
      rintro p ⟨⟩
      exact here
    case refine_3 =>
      rintro p ⟨⟩
      refine hung.unlinked fun slot points => ?_
      rw [target_writeAbove free] at points
      split at points
      next => exact other (Option.some.inj points)
      next => exact fresh slot points
    case refine_4 =>
      rintro p ⟨⟩
      exact Heap.target_sibling ((Heap.write_of_ne (Ne.symm other)).trans Heap.write_same)

section Abandon

variable [DecidableEq Hash] {chain after : Blockchain Hash}

/-- The heirs above a slot leave, the last one first. -/
theorem abandonLoop_waiting (lawful : rule.Lawful env) {slot : Nat}
    {kept gone : List (BlockchainHeir Hash)} {parent last : BlockchainHeir Hash}
    {orphans top : Option Ptr} (indexed : HeirsIndexed chain)
    (linked : chain.heirs.IsChain (Above env)) (allowed : HeirsAllowed rule env chain.heirs)
    (links : LinksBelow chain.candidatesList.next chain.candidatesList.nodes)
    (heirs : chain.heirs = kept ++ gone) (keptLength : kept.length = slot + 1)
    (isLast : chain.heirs.getLast? = some last) (parentStored : kept[slot]? = some parent)
    (waiting : Waiting rule env chain.candidatesList last orphans)
    (inUse : ∀ p, orphans = some p → p < chain.candidatesList.next)
    (returns : abandonLoop env chain.arena slot gone.length chain orphans = .ok (after, top)) :
    Waiting rule env after.candidatesList parent top := by
  induction gone using List.reverseRecOn generalizing chain orphans last with
  | nil =>
      cases returns
      rw [List.append_nil] at heirs
      rw [heirs, List.getLast?_eq_getElem?, keptLength, Nat.add_sub_cancel, parentStored] at isLast
      cases isLast
      exact waiting
  | append_singleton gone leaving inductionHypothesis =>
      rw [List.length_append, List.length_singleton] at returns
      obtain ⟨lastHeir, abandoned, after, readsLast, abandons, linksOrphans, rest⟩ :=
        abandonLoop_inversion returns
      have length : (kept ++ gone).length = slot + gone.length + 1 := by
        rw [List.length_append, keptLength]
        omega
      have split : chain.heirs = (kept ++ gone) ++ [leaving] := by rw [heirs, List.append_assoc]
      rw [split, List.getLast?_concat] at isLast
      cases isLast
      have stored : chain.heirs[slot + gone.length + 1]? = some leaving := by
        rw [split, ← length]
        simp
      obtain ⟨-, lastStored⟩ := heirAt_eq_ok.1 readsLast
      rw [stored] at lastStored
      cases lastStored
      have inRange : slot + gone.length + 1 < chain.heirs.length :=
        (List.getElem?_eq_some_iff.1 stored).1
      have before := List.getElem?_eq_getElem (Nat.lt_of_succ_lt inRange)
      have above : Above env chain.heirs[slot + gone.length] leaving := by
        have step := List.isChain_iff_getElem.1 linked (slot + gone.length) inRange
        rw [List.getElem?_eq_getElem inRange] at stored
        cases stored
        exact step
      obtain ⟨found, searchRoot, deletes, alsoAbandons⟩ :=
        abandonChild_returns indexed before stored above
      rw [abandons] at alsoAbandons
      cases alsoAbandons
      have remaining : chain.heirs.take (slot + gone.length + 1) = kept ++ gone := by
        rw [split, ← length, List.take_left']
        rfl
      have stillLinked : (kept ++ gone).IsChain (Above env) := by
        rw [split] at linked
        exact linked.left_of_append
      have newLast : (kept ++ gone).getLast? = some chain.heirs[slot + gone.length] := by
        have inFront : chain.heirs[slot + gone.length]? = (kept ++ gone)[slot + gone.length]? := by
          rw [split, List.getElem?_append_left]
          rw [length]
          exact Nat.lt_succ_self _
        rw [List.getLast?_eq_getElem?, length, Nat.add_sub_cancel, ← inFront]
        exact before
      rw [← length] at deletes
      have stillIndexed := indexed.dropLast split deletes
        { chain.candidatesList with nodes := after, next := chain.candidatesList.next + 1 }
        (chain.callbacks ++ [.removeBlock leaving.hash (slot + gone.length + 1)])
      have stillAllowed : HeirsAllowed rule env (kept ++ gone) := by
        intro heir inside
        refine allowed heir ?_
        rw [split]
        exact List.mem_append_left _ inside
      have parentAllowed := (allowed _ (List.getElem_mem (Nat.lt_of_succ_lt inRange))).1
      have leavingAllowed := (allowed leaving (List.mem_of_getElem? stored)).2
      have next := waiting.abandon lawful links above parentAllowed leavingAllowed inUse
        linksOrphans
      have nextLinks := (linkOrphans_relinked linksOrphans).1.links _ (links.writeNew _ none)
      simp only [remaining] at rest
      refine @inductionHypothesis _ _ (some chain.candidatesList.next) stillIndexed stillLinked
        stillAllowed nextLinks rfl newLast next ?_ rest
      rintro p ⟨⟩
      exact Nat.lt_succ_self _

/-- `blockchain_abandon_inheritances` leaves a wooded list, and orphans that can be put below the
heir above whom they stood. -/
theorem blockchainAbandonInheritances_waiting (lawful : rule.Lawful env) {slot : Nat}
    {parent : BlockchainHeir Hash} {orphans : Option Ptr} (consistent : Consistent env chain)
    (allowed : HeirsAllowed rule env chain.heirs) (stored : chain.heirs[slot]? = some parent)
    (wooded : Wooded rule env chain.candidatesList)
    (returns : blockchainAbandonInheritances env chain ⟨chain.arena, slot⟩ =
      .ok (after, orphans)) :
    Waiting rule env after.candidatesList parent orphans := by
  have nobody : ∀ last, Waiting rule env chain.candidatesList last none := by
    intro last
    obtain ⟨above, tags⟩ := wooded.tags
    refine ⟨wooded, ⟨above, tags, ?_⟩, ?_, ?_⟩
    all_goals rintro p ⟨⟩
  have inside : slot ≤ chain.height := by
    have inRange := (List.getElem?_eq_some_iff.1 stored).1
    have length := consistent.length
    omega
  rw [blockchainAbandonInheritances, Exec.assert_of inside, Exec.ok_bind] at returns
  by_cases isTip : slot = chain.height
  · rw [if_pos isTip] at returns
    cases returns
    exact nobody parent
  · rw [if_neg isTip, Exec.bind_eq_ok] at returns
    obtain ⟨⟨abandoned, top⟩, loop, returns⟩ := returns
    cases returns
    have length := consistent.length
    have count : (chain.heirs.drop (slot + 1)).length = chain.height - slot := by
      rw [List.length_drop]
      omega
    have inRange : chain.height < chain.heirs.length := by omega
    have isLast : chain.heirs.getLast? = some chain.heirs[chain.height] := by
      rw [List.getLast?_eq_getElem?, length, Nat.add_sub_cancel]
      exact List.getElem?_eq_getElem inRange
    dsimp only at loop
    rw [← count] at loop
    have waits : Waiting rule env abandoned.candidatesList parent orphans := by
      refine abandonLoop_waiting lawful consistent.indexed consistent.linked allowed
        consistent.links.nodes (List.take_append_drop (slot + 1) chain.heirs).symm ?_ isLast ?_
        (nobody _) ?_ loop
      · rw [List.length_take]
        omega
      · rw [List.getElem?_take_of_lt (Nat.lt_succ_self slot)]
        exact stored
      · rintro p ⟨⟩
    exact ⟨waits.wooded, waits.tags, waits.unlinked, waits.alone⟩

end Abandon

/-! ## The winner of a round -/

/-- The successor is left out of the chain, and the nodes but him follow the rule. -/
structure LeftOut (rule : TagRule Hash W) (list left : ActiveChainList Hash) (successor : Ptr) :
    Prop where
  tags : ∃ above, rule.Tags (left.nodes.release successor) above fun _ => False
  stores : Stores list.nodes left.nodes
  unlinked : Unlinked left.nodes successor
  same : left.nodes successor = list.nodes successor
  next : left.next = list.next
  active : left.activeChains = list.activeChains

section Leave

variable {left : ActiveChainList Hash} {parent : BlockchainHeir Hash} {orphans : Option Ptr}
  {chain successor : Ptr} {head cell : Member (BlockInfo Hash)} {above : Ptr → Option W}

/-- A chain and its successor, who is going to be left out. -/
structure Parting (rule : TagRule Hash W) (nodes : Heap (BlockInfo Hash)) (above : Ptr → Option W)
    (chain successor : Ptr) (head cell : Member (BlockInfo Hash)) (hash : Hash) : Prop where
  headLive : nodes chain = some head
  live : nodes successor = some cell
  attr : rule.attr head.val = some (rule.tag hash 0)
  other : chain ≠ successor
  only : ∀ slot, nodes.target slot = some successor → slot = .child chain
  tags : rule.Tags (nodes.release successor) above fun _ => False
  nextUnlinked : ∀ q, cell.nextSibling = some q → Unlinked (nodes.release successor) q
  nextAbove : ∀ q, cell.nextSibling = some q → above q = some (rule.tag hash 0)
  nextOther : cell.nextSibling ≠ some successor

theorem Waiting.parting {above : Ptr → Option W} (waiting : Waiting rule env list parent orphans)
    (tags : rule.Tags list.nodes above fun _ => False) (headLive : list.nodes chain = some head)
    (isHead : head.val.hdr = none) (headHash : head.val.hash = parent.hash)
    (isFirst : head.firstChild = some successor) (live : list.nodes successor = some cell) :
    Parting rule list.nodes above chain successor head cell parent.hash := by
  have weightless := waiting.wooded.empty chain head headLive isHead
  have headAttr : rule.attr head.val = some (rule.tag parent.hash 0) := by
    rw [TagRule.attr, headHash, weightless]
  have points : list.nodes.target (.child chain) = some successor :=
    (Heap.target_child headLive).trans isFirst
  have onward : list.nodes.target (.sibling successor) = cell.nextSibling :=
    Heap.target_sibling live
  have successorAbove : above successor = some (rule.tag parent.hash 0) := by
    have passed := tags.inherits _ _ points
    rw [Heap.bequest_child headLive, headAttr] at passed
    exact (Option.some.inj passed).symm
  have only : ∀ slot, list.nodes.target slot = some successor → slot = .child chain :=
    fun slot also => tags.oneLink slot (.child chain) successor also points
  refine ⟨headLive, live, headAttr, ?_, only, tags.thinned (.release list.nodes successor), ?_, ?_,
    ?_⟩
  case refine_1 =>
    rintro rfl
    have fits := tags.fits chain cell live fun impossible => impossible
    rw [headLive] at live
    cases live
    rw [successorAbove] at fits
    have isBlock := fits.1
    rw [isHead] at isBlock
    cases isBlock
  case refine_2 =>
    intro q isNext slot also
    rw [Heap.target_release] at also
    split at also
    next => cases also
    next notOwner =>
      have same := tags.oneLink slot (.sibling successor) q also (onward.trans isNext)
      exact notOwner (congrArg Slot.owner same)
  case refine_3 =>
    intro q isNext
    have passed : some (above successor) = some (above q) :=
      tags.inherits _ _ (onward.trans isNext)
    exact (Option.some.inj passed).symm.trans successorAbove
  case refine_4 =>
    intro isNext
    cases only _ (onward.trans isNext)

/-- The chain goes on with the sibling of its successor. -/
theorem Parting.leave_sibling {hash : Hash}
    (parting : Parting rule nodes above chain successor head cell hash) :
    (rule.Tags (Heap.release (nodes.write chain { head with firstChild := cell.nextSibling })
        successor) above fun _ => False) ∧
      Unlinked (nodes.write chain { head with firstChild := cell.nextSibling }) successor := by
  have headStill : nodes.release successor chain = some head :=
    (Heap.release_of_ne parting.other).trans parting.headLive
  constructor
  · rw [Heap.release_write_of_ne parting.other]
    refine parting.tags.redirect (.child chain) cell.nextSibling parting.nextUnlinked
      (stored_write headStill rfl) (fun slot => target_setFirstChild headStill _)
      fun q isNext => ?_
    rw [Heap.bequest_child headStill, parting.attr, parting.nextAbove q isNext]
  · intro slot also
    rw [target_setFirstChild parting.headLive] at also
    split at also
    next => exact parting.nextOther also
    next notChild => exact notChild (parting.only slot also)

/-- The chain goes on with the orphans, and the sibling of the successor is put beside them. -/
theorem Parting.leave_orphans {orphan : Ptr} {top : Member (BlockInfo Hash)}
    (lawful : rule.Lawful env)
    (parting : Parting rule nodes above chain successor head cell parent.hash)
    (topLive : nodes orphan = some top) (unlinked : Unlinked nodes orphan)
    (alone : nodes.target (.sibling orphan) = none) (notChain : orphan ≠ chain)
    (notSuccessor : orphan ≠ successor)
    (fits : rule.Fits (some (rule.tag parent.hash parent.cumulativeDifficulty)) top.val) :
    (∃ rebased, rule.Tags (Heap.release ((nodes.write orphan
        { top with nextSibling := cell.nextSibling }).write chain
          { head with firstChild := some orphan }) successor) rebased fun _ => False) ∧
      Unlinked ((nodes.write orphan { top with nextSibling := cell.nextSibling }).write chain
        { head with firstChild := some orphan }) successor := by
  have topStill : nodes.release successor orphan = some top :=
    (Heap.release_of_ne notSuccessor).trans topLive
  have headKept : nodes.write orphan { top with nextSibling := cell.nextSibling } chain =
      some head := (Heap.write_of_ne (Ne.symm notChain)).trans parting.headLive
  have headStill : (nodes.release successor).write orphan
      { top with nextSibling := cell.nextSibling } chain = some head :=
    (Heap.write_of_ne (Ne.symm notChain)).trans
      ((Heap.release_of_ne parting.other).trans parting.headLive)
  have stillUnlinked := (Thinned.release nodes successor).unlinked unlinked
  have stillAlone : (nodes.release successor).target (.sibling orphan) = none := by
    rw [Heap.target_release]
    exact (if_neg notSuccessor).trans alone
  have nextOther : ∀ q, cell.nextSibling = some q → q ≠ orphan := by
    rintro q isNext rfl
    exact unlinked _ ((Heap.target_sibling parting.live).trans isNext)
  have linkedTargets : ∀ slot, Heap.target ((nodes.release successor).write orphan
      { top with nextSibling := cell.nextSibling }) slot =
      if slot = .sibling orphan then cell.nextSibling
      else (nodes.release successor).target slot :=
    fun slot => target_setNextSibling topStill _
  -- the orphans are put below the head, which weighs nothing
  obtain ⟨rebased, rebasedTags, inside, outside⟩ : ∃ rebased,
      (rule.Tags (nodes.release successor) rebased fun _ => False) ∧
      (∀ p, SiblingsFrom (nodes.release successor) orphan p →
        rebased p = some (rule.tag parent.hash 0)) ∧
      ∀ p, ¬ SiblingsFrom (nodes.release successor) orphan p → rebased p = above p := by
    refine parting.tags.rebase stillUnlinked _ (fun p member sibling memberLive _ => ?_)
      (fun _ isLoose => isLoose)
    cases sibling.alone stillAlone
    rw [topStill] at memberLive
    cases memberLive
    exact ⟨fits.1, lawful.relax fits.2⟩
  have linkedTags : rule.Tags ((nodes.release successor).write orphan
      { top with nextSibling := cell.nextSibling }) rebased fun _ => False := by
    refine rebasedTags.redirect (.sibling orphan) cell.nextSibling parting.nextUnlinked
      (stored_write topStill rfl) linkedTargets fun q isNext => ?_
    change some (rebased orphan) = some (rebased q)
    rw [inside orphan .self, outside q fun sibling =>
      nextOther q isNext (sibling.alone stillAlone), parting.nextAbove q isNext]
  have finalTags : rule.Tags (((nodes.release successor).write orphan
      { top with nextSibling := cell.nextSibling }).write chain
        { head with firstChild := some orphan }) rebased fun _ => False := by
    refine linkedTags.redirect (.child chain) (some orphan) ?_
      (stored_write headStill rfl) (fun slot => target_setFirstChild headStill _) ?_
    · rintro q ⟨⟩ slot also
      rw [linkedTargets] at also
      split at also
      next => exact nextOther orphan also rfl
      next => exact stillUnlinked slot also
    · rintro q ⟨⟩
      rw [Heap.bequest_child headStill, parting.attr, inside orphan .self]
  refine ⟨⟨rebased, ?_⟩, fun slot also => ?_⟩
  · rw [Heap.release_write_of_ne parting.other, Heap.release_write_of_ne notSuccessor]
    exact finalTags
  · rw [target_setFirstChild headKept, target_setNextSibling topLive] at also
    split at also
    next => exact notSuccessor (Option.some.inj also)
    next notChild =>
      split at also
      next => exact parting.nextOther also
      next => exact notChild (parting.only slot also)

/-- The chain goes on with a sibling of its successor, or with the orphans. -/
theorem leaveChain_leftOut [DecidableEq Hash] (lawful : rule.Lawful env)
    (waiting : Waiting rule env list parent orphans) (headLive : list.nodes chain = some head)
    (isHead : head.val.hdr = none) (headHash : head.val.hash = parent.hash)
    (isFirst : head.firstChild = some successor) (live : list.nodes successor = some cell)
    (returns : leaveChain fuel list chain successor orphans = .ok left) :
    LeftOut rule list left successor := by
  obtain ⟨above, tags, base⟩ := waiting.tags
  have parting := waiting.parting tags headLive isHead headHash isFirst live
  cases orphans with
  | none =>
      simp only [leaveChain, Heap.read_eq live, Heap.read_eq headLive, Exec.ok_bind] at returns
      cases returns
      exact ⟨⟨above, parting.leave_sibling.1⟩, stored_write headLive rfl, parting.leave_sibling.2,
        Heap.write_of_ne (Ne.symm parting.other), rfl, rfl⟩
  | some orphan =>
      simp only [leaveChain, Heap.read_eq live, Exec.bind_eq_ok] at returns
      obtain ⟨searchRoot, -, again, reads, top, readsTop, headAgain, readsHead, returns⟩ := returns
      cases reads
      have topLive := Heap.read_eq_ok.1 readsTop
      have unlinked := waiting.unlinked orphan rfl
      have fits := tags.fits orphan top topLive fun impossible => impossible
      rw [base orphan rfl] at fits
      have notChain : orphan ≠ chain := by
        rintro rfl
        rw [topLive] at headLive
        cases headLive
        have isBlock := fits.1
        rw [isHead] at isBlock
        cases isBlock
      have notSuccessor : orphan ≠ successor := by
        rintro rfl
        exact unlinked _ ((Heap.target_child headLive).trans isFirst)
      have headKept : list.nodes.write orphan { top with nextSibling := cell.nextSibling } chain =
          some head := (Heap.write_of_ne (Ne.symm notChain)).trans headLive
      rw [Heap.read_eq headKept] at readsHead
      cases readsHead
      cases returns
      obtain ⟨finalTags, finalUnlinked⟩ := parting.leave_orphans lawful topLive unlinked
        (waiting.alone orphan rfl) notChain notSuccessor fits
      have first : Stores list.nodes
          (list.nodes.write orphan { top with nextSibling := cell.nextSibling }) :=
        stored_write topLive rfl
      refine ⟨finalTags, first.trans (stored_write headKept rfl), finalUnlinked, ?_, rfl, rfl⟩
      dsimp only
      rw [Heap.write_of_ne (Ne.symm parting.other), Heap.write_of_ne (Ne.symm notSuccessor)]

end Leave

/-! ## The siblings that are left -/

/-- A list from which a node departs; the nodes but him follow the rule. -/
structure Departing (rule : TagRule Hash W) (env : ChainEnv Hash) (list : ActiveChainList Hash)
    (successor : Ptr) : Prop where
  tags : ∃ above, rule.Tags (list.nodes.release successor) above fun _ => False
  unlinked : Unlinked list.nodes successor
  inUse : successor < list.next
  blocks : rule.Blocks env list.nodes
  empty : EmptyHeads list.nodes
  active : ActiveHeads list

/-- Siblings that no node points to get a head of their own. -/
theorem openSiblings_tags (lawful : rule.Lawful env) {above : Ptr → Option W} {top sibling : Ptr}
    {cell : Member (BlockInfo Hash)} {hdr : SatoshiBlockHeader Hash} {base : W}
    (tags : rule.Tags nodes above fun _ => False) (free : nodes top = none)
    (fresh : Unlinked nodes top) (unlinked : Unlinked nodes sibling) (other : sibling ≠ top)
    (live : nodes sibling = some cell) (header : cell.val.hdr = some hdr)
    (here : above sibling = some base) :
    ∃ entered, rule.Tags ((nodes.write top
      ⟨⟨hdr.prevHash, none, 0⟩, none, some sibling, none⟩).write sibling
        { cell with parent := some top }) entered fun _ => False := by
  have fits := tags.fits sibling cell live fun impossible => impossible
  rw [here] at fits
  obtain ⟨rebased, rebasedTags, inside, -⟩ : ∃ rebased,
      (rule.Tags nodes rebased fun _ => False) ∧
      (∀ p, SiblingsFrom nodes sibling p → rebased p = some (rule.tag hdr.prevHash 0)) ∧
      ∀ p, ¬ SiblingsFrom nodes sibling p → rebased p = above p := by
    refine tags.rebase unlinked _ (fun p member isSibling memberLive fixed => ?_)
      (fun _ isLoose => isLoose)
    have also := tags.fits p member memberLive fixed
    rw [tags.inherits.of_siblingsFrom isSibling, here] at also
    exact ⟨also.1, lawful.split header fits.2 also.2⟩
  have isHead : rule.Fits none (⟨hdr.prevHash, none, 0⟩ : BlockInfo Hash) := rfl
  obtain ⟨entered, enteredTags, -⟩ := putAbove_tags rebasedTags free fresh unlinked isHead
    (inside sibling .self) other
  exact ⟨entered, enteredTags.thinned
    (thinned_setParent ((Heap.write_of_ne other).trans live) (some top))⟩

section Split

variable [DecidableEq Hash] {after split : ActiveChainList Hash} {successor : Ptr}
  {cell node : Member (BlockInfo Hash)}

/-- The siblings behind a node get a head of their own: its nodes. -/
theorem splitSiblings_opens {sibling : Ptr} (links : list.Links)
    (blocks : rule.Blocks env list.nodes) (empty : EmptyHeads list.nodes)
    (active : ActiveHeads list) (splits : splitSiblings fuel list (some sibling) = .ok split) :
    ∃ (beside : Member (BlockInfo Hash)) (hdr : SatoshiBlockHeader Hash),
      list.nodes sibling = some beside ∧ beside.val.hdr = some hdr ∧ sibling ≠ list.next ∧
      split.nodes = (list.nodes.write list.next
        ⟨⟨hdr.prevHash, none, 0⟩, none, some sibling, none⟩).write sibling
          { beside with parent := some list.next } ∧
      split.next = list.next + 1 ∧
      rule.Blocks env split.nodes ∧ EmptyHeads split.nodes ∧ ActiveHeads split := by
  simp only [splitSiblings, tsearchHead, Exec.bind_eq_ok] at splits
  obtain ⟨created, creates, headed, ⟨⟨entry, searchRoot⟩, -, heads⟩, fields, isActive, adds⟩ :=
    splits
  cases heads
  have addedEq := listAdd_of_searchRoot (if_pos rfl) rfl adds
  obtain ⟨beside, hdr, newFields, live, header, other, nodesEq, nextEq, chainsEq⟩ :=
    activeChainNew_opens links.nodes creates
  obtain ⟨newBlocks, newEmpty, newActive, -⟩ :=
    activeChainNew_heads links.nodes blocks empty active creates
  have sameNodes : split.nodes = created.nodes := by
    rw [addedEq]
    rfl
  have sameNext : split.next = created.next := by
    rw [addedEq]
    rfl
  refine ⟨beside, hdr, live, header, other, sameNodes.trans nodesEq, sameNext.trans nextEq,
    sameNodes ▸ newBlocks, sameNodes ▸ newEmpty, ?_⟩
  refine newActive.step (Nat.le_of_eq sameNext.symm) (fun q now isChain => ?_)
    fun q new _ newLive => ⟨new, sameNodes ▸ newLive, rfl⟩
  rw [addedEq] at isChain
  change (if q = list.next then _ else created.activeChains q) = some now at isChain
  split at isChain
  next isNew => exact ⟨newFields, by rw [isNew, chainsEq]; exact if_pos rfl⟩
  next => exact ⟨now, isChain⟩

omit [DecidableEq Hash] in
/-- A node forgets the siblings behind it and they get a head, whichever comes first. -/
theorem openSiblings_order {heap : Heap (BlockInfo Hash)} {top sibling : Ptr}
    {beside : Member (BlockInfo Hash)} {info : BlockInfo Hash} {opened : Heap (BlockInfo Hash)}
    (live : heap p = some cell) (besideLive : heap sibling = some beside) (notTop : p ≠ top)
    (openedEq : opened = (heap.write top ⟨info, none, some sibling, none⟩).write sibling
      { beside with parent := some top })
    (nodeLive : opened p = some node) :
    ∃ again, heap.write p { cell with nextSibling := none } sibling = some again ∧
      opened.write p { node with nextSibling := none } =
        ((heap.write p { cell with nextSibling := none }).write top
          ⟨info, none, some sibling, none⟩).write sibling { again with parent := some top } := by
  subst openedEq
  by_cases self : p = sibling
  · subst self
    rw [live] at besideLive
    cases besideLive
    rw [Heap.write_same] at nodeLive
    cases nodeLive
    refine ⟨_, Heap.write_same, ?_⟩
    rw [Heap.write_write]
    funext q
    by_cases here : q = p
    · rw [here, Heap.write_same, Heap.write_same]
    · rw [Heap.write_of_ne here, Heap.write_of_ne here]
      by_cases isTop : q = top
      · rw [isTop, Heap.write_same, Heap.write_same]
      · rw [Heap.write_of_ne isTop, Heap.write_of_ne isTop, Heap.write_of_ne here]
  · rw [Heap.write_of_ne self, Heap.write_of_ne notTop, live] at nodeLive
    cases nodeLive
    refine ⟨beside, (Heap.write_of_ne (Ne.symm self)).trans besideLive, ?_⟩
    funext q
    by_cases here : q = p
    · rw [here, Heap.write_same, Heap.write_of_ne self, Heap.write_of_ne notTop, Heap.write_same]
    · rw [Heap.write_of_ne here]
      by_cases isSibling : q = sibling
      · rw [isSibling, Heap.write_same, Heap.write_same]
      · rw [Heap.write_of_ne isSibling, Heap.write_of_ne isSibling]
        by_cases isTop : q = top
        · rw [isTop, Heap.write_same, Heap.write_same]
        · rw [Heap.write_of_ne isTop, Heap.write_of_ne isTop, Heap.write_of_ne here]

/-- The siblings behind a node get a head of their own, and the node forgets them. -/
theorem splitSiblings_departing (lawful : rule.Lawful env) (links : list.Links)
    (departing : Departing rule env list successor) (live : list.nodes p = some cell)
    (other : p ≠ successor) (splits : splitSiblings fuel list cell.nextSibling = .ok split)
    (nodeLive : split.nodes p = some node) :
    Departing rule env { split with
      nodes := split.nodes.write p { node with nextSibling := none } } successor := by
  have forgotten := stores_setNextSibling nodeLive none
  cases next : cell.nextSibling with
  | none =>
      rw [next] at splits
      cases splits
      rw [live] at nodeLive
      cases nodeLive
      have same : list.nodes.write p { cell with nextSibling := none } = list.nodes := by
        have unchanged : ({ cell with nextSibling := none } : Member (BlockInfo Hash)) = cell := by
          rw [← next]
        rw [unchanged, Heap.write_self live]
      rw [same]
      exact departing
  | some sibling =>
      rw [next] at splits
      obtain ⟨beside, hdr, besideLive, header, siblingOld, nodesEq, nextEq, blocks, empty,
        active⟩ :=
        splitSiblings_opens links departing.blocks departing.empty departing.active splits
      have notTop : p ≠ list.next := Nat.ne_of_lt (links.nodes p cell live).self
      have points : list.nodes.target (.sibling p) = some sibling :=
        (Heap.target_sibling live).trans next
      have siblingOther : sibling ≠ successor := by
        rintro rfl
        exact departing.unlinked _ points
      have topOther : list.next ≠ successor := (Nat.ne_of_lt departing.inUse).symm
      obtain ⟨again, againLive, orderEq⟩ :=
        openSiblings_order live besideLive notTop nodesEq nodeLive
      refine ⟨?_, ?_, ?_, blocks.of_stores forgotten, empty.of_stores forgotten,
        active.of_stores forgotten⟩
      case refine_1 =>
        obtain ⟨above, tags⟩ := departing.tags
        have still : list.nodes.release successor p = some cell :=
          (Heap.release_of_ne other).trans live
        have thinned : Thinned (list.nodes.release successor)
            ((list.nodes.release successor).write p { cell with nextSibling := none }) :=
          .write still rfl (fun _ child => child) fun _ none => by cases none
        have stillPoints : (list.nodes.release successor).target (.sibling p) = some sibling :=
          (Heap.target_sibling still).trans next
        have unlinked : Unlinked ((list.nodes.release successor).write p
            { cell with nextSibling := none }) sibling := by
          intro slot also
          have same := tags.oneLink slot (.sibling p) sibling (thinned.targets slot _ also)
            stillPoints
          rw [same, target_setNextSibling still, if_pos rfl] at also
          cases also
        have againStill : (list.nodes.release successor).write p { cell with nextSibling := none }
            sibling = some again := by
          rw [← Heap.release_write_of_ne other, Heap.release_of_ne siblingOther]
          exact againLive
        obtain ⟨old, oldLive, sameVal⟩ := stores_setNextSibling live none sibling again againLive
        rw [besideLive] at oldLive
        cases oldLive
        have againHeader : again.val.hdr = some hdr := by rw [sameVal, header]
        have free : (list.nodes.release successor).write p { cell with nextSibling := none }
            list.next = none := by
          rw [Heap.write_of_ne (Ne.symm notTop), Heap.release_of_ne topOther]
          exact free_beyond links.nodes
        have fresh := thinned.unlinked ((Thinned.release list.nodes successor).unlinked
          (unlinked_beyond links.nodes (Nat.le_refl _)))
        have forgottenTags := tags.thinned thinned
        obtain ⟨base, here⟩ : ∃ base, above sibling = some base := by
          have fits := forgottenTags.fits sibling again againStill fun impossible => impossible
          cases here : above sibling with
          | some base => exact ⟨base, rfl⟩
          | none =>
              rw [here] at fits
              change again.val.hdr = none at fits
              rw [againHeader] at fits
              cases fits
        dsimp only
        rw [orderEq, Heap.release_write_of_ne siblingOther, Heap.release_write_of_ne topOther,
          Heap.release_write_of_ne other]
        exact openSiblings_tags lawful forgottenTags free fresh unlinked siblingOld againStill
          againHeader here
      case refine_2 =>
        intro slot also
        have opened : list.nodes.write list.next
            ⟨⟨hdr.prevHash, none, 0⟩, none, some sibling, none⟩ sibling = some beside :=
          (Heap.write_of_ne siblingOld).trans besideLive
        dsimp only at also
        rw [target_setNextSibling nodeLive, nodesEq, target_setParent opened,
          target_writeAbove (free_beyond links.nodes)] at also
        split at also
        next => cases also
        next =>
          split at also
          next => exact siblingOther (Option.some.inj also)
          next => exact departing.unlinked slot also
      case refine_3 =>
        dsimp only
        rw [nextEq]
        exact Nat.lt_succ_of_lt departing.inUse

/-- All siblings along a path of first children get heads of their own. -/
theorem abandonSiblings_departing (lawful : rule.Lawful env) {start : Option Ptr}
    {path : List Ptr} (links : list.Links) (departing : Departing rule env list successor)
    (onPath : FirstChildPath list.nodes start path) (off : successor ∉ path)
    (returns : abandonSiblings fuel list start = .ok after) :
    Departing rule env after successor := by
  induction fuel generalizing list start path with
  | zero => cases returns
  | succ fuel inductionHypothesis =>
      cases onPath with
      | nil =>
          cases returns
          exact departing
      | @cons first member path live others =>
          rw [List.mem_cons, not_or] at off
          obtain ⟨cell, split, node, again, splits, nodeLive, rest⟩ :=
            abandonSiblings_inversion returns
          rw [live] at again
          cases again
          obtain ⟨grown, children, -, -, -⟩ := splitSiblings_grown links splits
          have alone : Grown split { split with
              nodes := split.nodes.write first { node with nextSibling := none } } :=
            .of_relinked grown.links (relinked_setNextSibling nodeLive
              fun _ _ _ points => by cases points) rfl rfl
          have stays : SameChildren split.nodes
              (split.nodes.write first { node with nextSibling := none }) :=
            .write nodeLive rfl
          have next := splitSiblings_departing lawful links departing live (Ne.symm off.1) splits
            nodeLive
          obtain ⟨same, sameLive, sameChild⟩ := children first member live
          rw [nodeLive] at sameLive
          cases sameLive
          have restPath : FirstChildPath
              (split.nodes.write first { node with nextSibling := none }) node.firstChild path := by
            have moved := others.congr fun p _ => (children.trans stays) p
            rwa [← sameChild] at moved
          exact inductionHypothesis alone.links next restPath off.2 rest

/-- The winner of a round leaves a wooded list behind. -/
theorem Departure.wooded (lawful : rule.Lawful env) {chain : Ptr} {orphans : Option Ptr}
    {whole : List Ptr} {head : Member (BlockInfo Hash)} {parent : BlockchainHeir Hash}
    (departure : Departure fuel list after chain head orphans whole) (links : list.Links)
    (waiting : Waiting rule env list parent orphans) (isHead : head.val.hdr = none)
    (headHash : head.val.hash = parent.hash) : Wooded rule env after := by
  obtain @⟨removed, left, split, successor, path, cell, node, now, found, searchRoot, nodes,
    headLive, isFirst, live, onPath, removes, leaves, nodeLive, splits, deletes, frees, nowLive,
    settles⟩ := departure
  obtain ⟨pruned, removedEq⟩ := removeFirstChildren_pruned onPath removes
  have sameNodes : removed.nodes = list.nodes := by rw [removedEq]
  have removedLinks : removed.Links := by
    rw [removedEq]
    exact ⟨links.nodes, fun p entry => links.entries p (pruned.subset p entry)⟩
  have removedWaiting : Waiting rule env removed parent orphans := by
    obtain ⟨⟨tags, blocks, empty, active⟩, above, unlinked, alone⟩ := waiting
    rw [removedEq]
    exact ⟨⟨tags, blocks, empty, active⟩, above, unlinked, alone⟩
  have leftOut := leaveChain_leftOut lawful removedWaiting (sameNodes ▸ headLive) isHead headHash
    isFirst (sameNodes ▸ live) leaves
  obtain ⟨leftGrown, leftChildren⟩ := leaveChain_grown removedLinks leaves
  have pathWhole : FirstChildPath list.nodes (some successor) (successor :: path) :=
    .cons live onPath
  have chainOff := pathWhole.not_mem_of_above headLive isFirst
  have leftPath : FirstChildPath left.nodes cell.firstChild path := by
    refine onPath.congr fun p inside member memberLive => ?_
    rw [← sameNodes] at memberLive
    refine leftChildren p member ?_ memberLive
    rintro rfl
    exact chainOff (List.mem_cons_of_mem _ inside)
  have sameCell : node = cell := by
    rw [leftOut.same, sameNodes, live] at nodeLive
    exact (Option.some.inj nodeLive).symm
  rw [sameCell] at splits
  have stored := removedWaiting.wooded
  have departing : Departing rule env left successor := by
    refine ⟨leftOut.tags, leftOut.unlinked, ?_, stored.blocks.of_stores leftOut.stores,
      stored.empty.of_stores leftOut.stores, stored.active.step (Nat.le_of_eq leftOut.next.symm)
        (fun p fields active => ⟨fields, by rw [← leftOut.active]; exact active⟩)
        fun p new _ newLive => ?_⟩
    · exact (leftGrown.links.nodes successor node (by rw [nodeLive])).self
    · obtain ⟨old, oldLive, val⟩ := leftOut.stores p new newLive
      exact ⟨old, oldLive, congrArg BlockInfo.hdr val⟩
  have splitDeparting := abandonSiblings_departing lawful leftGrown.links departing leftPath
    (onPath.not_mem_of_above live rfl) splits
  have splitPath := departing_path removedLinks (sameNodes ▸ pathWhole) chainOff leaves splits
  have gone := blockInfoFree_path (fun p member memberLive => ⟨member, memberLive, rfl⟩)
    splitPath frees successor List.mem_cons_self
  have remains := (blockInfoFree_remains frees).1
  -- the last step forgets the head of the chain, or nothing
  have settled : Remains nodes after.nodes ∧ after.next = split.next ∧
      ∀ p fields, after.activeChains p = some fields → split.activeChains p = some fields := by
    rcases settles with ⟨childless, removal⟩ | ⟨-, rfl⟩
    · obtain ⟨-, rest, next, -⟩ := listRemove_childless nowLive childless removal
      have active := listRemove_active removal
      exact ⟨rest, next, active⟩
    · exact ⟨fun _ _ same => same, rfl, fun _ _ same => same⟩
  obtain ⟨rest, next, active⟩ := settled
  have whole := remains.trans rest
  have thinned : Thinned (split.nodes.release successor) after.nodes := by
    refine .of_subset fun p member memberLive => ?_
    have notGone : p ≠ successor := by
      rintro rfl
      have stillLive := rest p member memberLive
      rw [gone] at stillLive
      cases stillLive
    exact (Heap.release_of_ne notGone).trans (whole p member memberLive)
  obtain ⟨above, tags⟩ := splitDeparting.tags
  refine ⟨⟨above, tags.thinned thinned⟩, splitDeparting.blocks.of_stores whole.stores,
    splitDeparting.empty.of_stores whole.stores, ?_⟩
  exact splitDeparting.active.step (Nat.le_of_eq next.symm)
    (fun p fields isActive => ⟨fields, active p fields isActive⟩)
    fun p new _ newLive => ⟨new, whole p new newLive, rfl⟩

end Split

/-! ## Rule IV -/

section Rounds

variable [DecidableEq Hash] {before after : Blockchain Hash} {top : Ptr}

omit [DecidableEq Hash] in
/-- The heirs along a path of blocks are allowed. -/
theorem HeirsAlong.allowed (lawful : rule.Lawful env) {base : ℚ} {start : Option Ptr}
    {path : List Ptr} {heirs : List (BlockchainHeir Hash)}
    (along : HeirsAlong env nodes base start path heirs) (blocks : rule.Blocks env nodes)
    (baseAllowed : rule.allowed base) : HeirsAllowed rule env heirs := by
  induction along with
  | nil => exact fun heir inside => absurd inside List.not_mem_nil
  | @cons base p member path hdr heirs live header _ inductionHypothesis =>
      have own := blocks p member hdr live header
      have sum := lawful.add baseAllowed own
      intro heir inside
      rcases List.mem_cons.1 inside with rfl | later
      · exact ⟨sum, own⟩
      · exact inductionHypothesis sum heir later

/-- What is asked of the path that Rule IV weighs anew. -/
def TagRule.SettledRound (rule : TagRule Hash W) (before : Blockchain Hash) (top : Ptr) : Prop :=
  ∀ head ref heir, before.candidatesList.nodes top = some head →
    blockchainFind before head.val.hash = .ok (some ref) → before.heirAt ref = .ok heir →
    rule.settled before.candidatesList.nodes heir.cumulativeDifficulty head.firstChild

/-- The round of a chain: it stands above no heir, or its first children are weighed from one. -/
theorem roundOf_weighs {state : Blockchain Hash} {won : Option HeirRef}
    (returns : roundOf fuel env before top = .ok (state, won)) :
    state = before ∧ won = none ∨
      ∃ head ref heir fields nodes path, before.candidatesList.nodes top = some head ∧
        blockchainFind before head.val.hash = .ok (some ref) ∧ before.heirAt ref = .ok heir ∧
        before.candidatesList.activeChains top = some fields ∧
        UpdatedPath env before.candidatesList.nodes nodes heir.cumulativeDifficulty head.firstChild
          path ∧
        Relinked before.candidatesList.nodes nodes ∧
        state = { before with candidatesList := { before.candidatesList with nodes } } ∧
        ∀ winner, won = some winner → winner = ref := by
  simp only [roundOf, Exec.bind_eq_ok] at returns
  obtain ⟨head, reads, found, finds, returns⟩ := returns
  cases found with
  | none =>
      cases returns
      exact .inl ⟨rfl, rfl⟩
  | some ref =>
      simp only [Exec.bind_eq_ok] at returns
      obtain ⟨heir, readsHeir, nodes, updates, current, -, fields, isChain, longestEnd, -, cell, -,
        returns⟩ := returns
      obtain ⟨path, updated⟩ := updateFirstChild_weighed updates
      rw [Exec.ok.injEq, Prod.mk.injEq] at returns
      obtain ⟨rfl, wins⟩ := returns
      refine .inr ⟨head, ref, heir, fields, nodes, path, Heap.read_eq_ok.1 reads, finds, readsHeir,
        Exec.deref_eq_ok.1 isChain, updated, updateFirstChild_relinked updates, rfl, ?_⟩
      rintro winner rfl
      split at wins
      next => exact (Option.some.inj wins).symm
      next => cases wins

/-- Rule IV leaves the list wooded, and the heirs allowed. -/
theorem ruleIV_wooded (lawful : rule.Lawful env) (consistent : Consistent env before)
    (allowed : HeirsAllowed rule env before.heirs) (wooded : Wooded rule env before.candidatesList)
    (settled : rule.SettledRound before top)
    (returns : ruleIV fuel env before top = .ok after) :
    Wooded rule env after.candidatesList ∧ HeirsAllowed rule env after.heirs := by
  rw [ruleIV_eq, Exec.bind_eq_ok] at returns
  obtain ⟨⟨state, won⟩, round, returns⟩ := returns
  rcases roundOf_weighs round with
    ⟨rfl, rfl⟩ | ⟨head, ref, heir, fields, nodes, path, live, finds, readsHeir, isChain, updated,
      relinked, rfl, winner⟩
  · cases returns
    exact ⟨wooded, allowed⟩
  · obtain ⟨arena, stored⟩ := heirAt_eq_ok.1 readsHeir
    have isHead := (wooded.active top fields isChain).2 head live
    have weightless := wooded.empty top head live isHead
    have heirAllowed := (allowed heir (List.mem_of_getElem? stored)).1
    obtain ⟨above, tags⟩ := wooded.tags
    have blocks := wooded.blocks.reweighed updated.reweighed
    have weighed : Wooded rule env { before.candidatesList with nodes } :=
      ⟨lawful.reweighPath tags live weightless heirAllowed blocks
        (settled head ref heir live finds readsHeir) updated, blocks,
        wooded.empty.reweighed updated.reweighed updated.heads,
        wooded.active.reweighed updated.reweighed⟩
    cases won with
    | none =>
        cases returns
        exact ⟨weighed, allowed⟩
    | some _ =>
        cases winner _ rfl
        obtain ⟨refArena, slot⟩ := ref
        change refArena = before.arena at arena
        subst arena
        obtain ⟨found, -, foundStored, sameHash⟩ := consistent.indexed.find_eq_some.1 finds
        rw [stored] at foundStored
        cases foundStored
        have links : ({ before.candidatesList with nodes } : ActiveChainList Hash).Links :=
          ⟨relinked.links _ consistent.links.nodes, consistent.links.entries⟩
        have middle := consistent.withList links
        obtain ⟨weight, nowLive⟩ := updated.reweighed.live live
        obtain ⟨abandoned, orphans, now, path, promoted, searchRoot, abandons, again, along, -,
          departure, afterEq, -⟩ :=
            winRound_steps middle.indexed middle.length middle.links rfl stored returns
        obtain ⟨rest, heirs, -, -, -, -⟩ := blockchainAbandonInheritances_abandoned middle.indexed
          middle.length middle.links rfl abandons
        have waiting := blockchainAbandonInheritances_waiting lawful middle allowed stored weighed
          abandons
        have sameTop : nodes top = some now :=
          (rest.frame top (links.nodes top _ nowLive).self).symm.trans again
        rw [nowLive] at sameTop
        cases sameTop
        refine ⟨departure.wooded lawful rest.links waiting isHead sameHash.symm, ?_⟩
        have promotedAllowed := along.allowed lawful waiting.wooded.blocks heirAllowed
        rw [afterEq, heirs]
        intro heir inside
        rcases List.mem_append.1 inside with kept | new
        · exact allowed heir (List.mem_of_mem_take kept)
        · exact promotedAllowed heir new

/-- A completed call leaves the list wooded, and the heirs allowed. -/
theorem blockchainAdd_wooded {blockHash : Option Hash} {hdr : SatoshiBlockHeader Hash} {rc : Int}
    (lawful : rule.Lawful env) (consistent : Consistent env before)
    (allowed : HeirsAllowed rule env before.heirs) (wooded : Wooded rule env before.candidatesList)
    (hdrAllowed : rule.allowed (env.compactUint256ToBdiff hdr.bits))
    (settled : ∀ placed top, letIn fuel env before hdr = .ok (some (placed, top)) →
      rule.SettledRound { before with candidatesList := placed } top)
    (returns : blockchainAdd fuel env before blockHash hdr = .ok (rc, after)) :
    Wooded rule env after.candidatesList ∧ HeirsAllowed rule env after.heirs := by
  rcases (blockchainAdd_inversion returns).2 with
    ⟨-, rfl, -⟩ | ⟨-, placed, top, lets, ruleIV⟩
  · exact ⟨wooded, allowed⟩
  · obtain ⟨dropped, place⟩ := letIn_inversion consistent.links lets
    have middle := consistent.withList place.links
    exact ruleIV_wooded lawful middle allowed
      (letIn_wooded lawful consistent.links wooded hdrAllowed lets) (settled placed top lets) ruleIV

omit [DecidableEq Hash] in
theorem wooded_activeChainListInit : Wooded rule env activeChainListInit := by
  have nothing : ∀ (slot : Slot) (q : Ptr),
      Heap.target (fun _ => none : Heap (BlockInfo Hash)) slot ≠ some q := by
    intro slot q points
    obtain ⟨member, live⟩ := Heap.live_of_target points
    cases live
  refine ⟨⟨fun _ => none, ⟨?_, ?_, ?_⟩⟩, ?_, ?_, ?_⟩
  case refine_1 => exact fun slot other q points => absurd points (nothing slot q)
  case refine_2 => exact fun slot q points => absurd points (nothing slot q)
  case refine_3 => exact fun p member live => by cases live
  case refine_4 => exact fun p member hdr live => by cases live
  case refine_5 => exact fun p head live => by cases live
  case refine_6 => exact fun p fields active => by cases active

/-- Every state that calls with allowed headers and settled rounds reach is wooded. -/
theorem Run.wooded {condition : Condition Hash} {genesisBlockHash : Option Hash}
    {genesisBlockHdr : Option (SatoshiBlockHeader Hash)} {headers : List (SatoshiBlockHeader Hash)}
    (lawful : rule.Lawful env)
    (genesis : HeirsAllowed rule env (blockchainInit env genesisBlockHash genesisBlockHdr).heirs)
    (allowed : ∀ hdr ∈ headers, rule.allowed (env.compactUint256ToBdiff hdr.bits))
    (settles : ∀ fuel chain hdr placed top, condition fuel chain hdr = .ok true →
      letIn fuel env chain hdr = .ok (some (placed, top)) →
      rule.SettledRound { chain with candidatesList := placed } top)
    (run : Run env condition (blockchainInit env genesisBlockHash genesisBlockHdr) headers after) :
    Wooded rule env after.candidatesList ∧ HeirsAllowed rule env after.heirs := by
  have whole : Consistent env after ∧ Wooded rule env after.candidatesList ∧
      HeirsAllowed rule env after.heirs := by
    refine run.invariant (fun (chain : Blockchain Hash) => Consistent env chain ∧
      Wooded rule env chain.candidatesList ∧ HeirsAllowed rule env chain.heirs)
      ⟨consistent_blockchainInit env _ _, wooded_activeChainListInit, genesis⟩ ?_
    intro fuel chain next blockHash hdr rc holds inside meets returns
    obtain ⟨consistent, wooded, heirsAllowed⟩ := holds
    refine ⟨blockchainAdd_consistent consistent returns, ?_⟩
    exact blockchainAdd_wooded lawful consistent heirsAllowed wooded (allowed hdr inside)
      (fun placed top lets => settles _ chain hdr placed top meets lets) returns
  exact whole.2

end Rounds

end BitcoinClib.Chains
