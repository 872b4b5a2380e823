import BitcoinClib.Chains.TagRounds
import Mathlib.Tactic.Linarith

/-!
Contract: what candidate nodes have from the nodes they are children of.

Owns:
- `hashRule`, that a block names the hash of its parent, and that every state completed calls
  reach follows it (`candidates_linked`);
- `weightRule`, that a block is heavier than its parent, `settledRounds`, the calls whose round
  weighs anew no node with further children, and that every run of such calls follows the rule
  (`candidates_ascend`).

Does not own: which operation keeps a rule.
-/

namespace BitcoinClib.Chains

open BitcoinClib.Lib

variable {Hash : Type} {env : ChainEnv Hash} {fuel : Nat}
  {before after nodes : Heap (BlockInfo Hash)} {p q : Ptr}

/-! ## Hashes -/

/-- A block names the hash of the node it is a child of. -/
def hashRule (Hash : Type) : TagRule Hash Hash where
  tag hash _ := hash
  fits above info := ∀ hdr, info.hdr = some hdr → hdr.prevHash = above
  allowed _ := True
  settled _ _ _ := True

/-- Weights do not matter. -/
theorem hashRule_reweighed {above : Ptr → Option Hash} {loose : Ptr → Prop}
    (tags : (hashRule Hash).Tags before above loose) (reweighed : Reweighed before after) :
    (hashRule Hash).Tags after above loose where
  oneLink := tags.oneLink.moved id (fun _ _ same => same) fun slot q points =>
    (reweighed.target slot).symm.trans points
  inherits := by
    intro slot q points
    have pointed := (reweighed.target slot).symm.trans points
    have passed := tags.inherits slot q pointed
    cases slot with
    | sibling owner => exact passed
    | child owner =>
        obtain ⟨member, live⟩ := Heap.live_of_target points
        obtain ⟨old, weight, oldLive, rfl⟩ := reweighed.origin live
        change before owner = some old at oldLive
        change after owner = _ at live
        rw [Heap.bequest_child oldLive] at passed
        rw [Heap.bequest_child live]
        exact passed
  fits := by
    intro p member live fixed
    obtain ⟨old, weight, oldLive, rfl⟩ := reweighed.origin live
    have fits := tags.fits p old oldLive fixed
    cases here : above p with
    | none =>
        rw [here] at fits
        exact fits
    | some base =>
        rw [here] at fits
        exact fits

theorem hashRule_lawful (env : ChainEnv Hash) : (hashRule Hash).Lawful env where
  add _ _ := trivial
  heavy _ := trivial
  relax fits := fits
  split header fits others := by
    rw [fits _ header]
    exact others
  orphan above _ _ := by
    rintro hdr ⟨⟩
    exact above.1
  reweighTree := by
    intro before after above orphan member hdr base ids tags live header here _ _ updated
    refine ⟨above, hashRule_reweighed ⟨tags.oneLink, tags.inherits, fun p cell cellLive _ => ?_⟩
      updated.reweighed⟩
    by_cases isOrphan : p = orphan
    · rw [isOrphan, live] at cellLive
      cases cellLive
      rw [isOrphan, here]
      refine ⟨by rw [header]; rfl, fun other isHeader => ?_⟩
      rw [header] at isHeader
      cases isHeader
      rfl
    · exact tags.fits p cell cellLive isOrphan
  reweighPath := by
    intro before after above head member base path tags _ _ _ _ _ updated
    exact ⟨above, hashRule_reweighed tags updated.reweighed⟩

section Linked

variable [DecidableEq Hash] {chain : Blockchain Hash}

/-- In every state that completed calls reach, in whatever order headers arrive and however often
chains are joined, split and abandoned: no node of a candidate chain is pointed to twice, so a walk
over a tree of candidates meets none of them twice; every child stores a header that names the hash
of the node it is a child of; and the head of a chain stores no header and weighs nothing. -/
theorem candidates_linked {genesisBlockHash : Option Hash}
    {genesisBlockHdr : Option (SatoshiBlockHeader Hash)} {headers : List (SatoshiBlockHeader Hash)}
    (run : Run env anyCall (blockchainInit env genesisBlockHash genesisBlockHdr) headers chain) :
    OneLink chain.candidatesList.nodes ∧
      (∀ start ids, Spans chain.candidatesList.nodes start ids → ids.Nodup) ∧
      (∀ parent child owner cell, chain.candidatesList.nodes parent = some owner →
        ChildOf chain.candidatesList.nodes parent child →
        chain.candidatesList.nodes child = some cell →
        ∃ hdr, cell.val.hdr = some hdr ∧ hdr.prevHash = owner.val.hash) ∧
      ∀ top fields head, chain.candidatesList.activeChains top = some fields →
        chain.candidatesList.nodes top = some head →
        head.val.hdr = none ∧ head.val.cumulativeDifficulty = 0 := by
  have settles : ∀ (state : Blockchain Hash) (top : Ptr),
      (hashRule Hash).SettledRound state top := by
    intro state top head ref heir _ _ _
    trivial
  have wooded := (run.wooded (hashRule_lawful env) (fun _ _ => ⟨trivial, trivial⟩)
    (fun _ _ => trivial) fun _ _ _ _ top _ _ => settles _ top).1
  obtain ⟨above, tags⟩ := wooded.tags
  refine ⟨tags.oneLink, fun start ids spans => spans.nodup tags.oneLink, ?_, ?_⟩
  · intro parent child owner cell ownerLive isChild live
    have base := tags.inherits.of_childOf isChild ownerLive
    have fits := tags.fits child cell live fun impossible => impossible
    rw [base] at fits
    obtain ⟨isBlock, names⟩ := fits
    obtain ⟨hdr, header⟩ := Option.isSome_iff_exists.1 isBlock
    exact ⟨hdr, header, names hdr header⟩
  · intro top fields head active live
    have isHead := (wooded.active top fields active).2 head live
    exact ⟨isHead, wooded.empty top head live isHead⟩

/-- The first branch of the fork is left as a candidate below a head for the genesis block. -/
theorem candidates_linked_fork : ∃ chain parent child owner cell,
    Run sampleEnv anyCall (blockchainInit sampleEnv none none) sampleFork chain ∧
    chain.candidatesList.nodes parent = some owner ∧ owner.val.hash = .genesis ∧
    ChildOf chain.candidatesList.nodes parent child ∧
    chain.candidatesList.nodes child = some cell ∧ cell.val.hash = .block .genesis 1 ∧
    ∃ hdr, cell.val.hdr = some hdr ∧ hdr.prevHash = owner.val.hash := by
  have runs : (do
      let chain ← runHeaders anyCall 30 sampleEnv (blockchainInit sampleEnv none none) sampleFork
      let parent ← Exec.deref chain.candidatesList.chains.head?
      let owner ← chain.candidatesList.nodes.read parent
      let child ← Exec.deref owner.firstChild
      let cell ← chain.candidatesList.nodes.read child
      .ok (owner.val.hash, cell.val.hash) : Exec (SampleHash × SampleHash)) =
        .ok (.genesis, .block .genesis 1) := by
    decide +kernel
  simp only [Exec.bind_eq_ok] at runs
  obtain ⟨chain, returns, parent, -, owner, readsOwner, child, isChild, cell, reads, result⟩ := runs
  obtain ⟨ownerHash, cellHash⟩ := Prod.mk.inj (Exec.ok.inj result)
  have run := Run.nil.of_runHeaders returns
  have ownerLive := Heap.read_eq_ok.1 readsOwner
  have live := Heap.read_eq_ok.1 reads
  have points := (Heap.target_child ownerLive).trans (Exec.deref_eq_ok.1 isChild)
  obtain ⟨-, -, names, -⟩ := candidates_linked run
  exact ⟨chain, parent, child, owner, cell, run, ownerLive, ownerHash, .first points, live,
    cellHash, names parent child owner cell ownerLive (.first points) live⟩

end Linked

/-! ## Weights -/

/-- Whether there is no second child. -/
def onlyChild (nodes : Heap (BlockInfo Hash)) : Option Ptr → Exec Bool
  | none => .ok true
  | some first => do
      let cell ← nodes.read first
      .ok cell.nextSibling.isNone

/-- A path that is weighed from `base` on does not leave the further children of a node behind:
a node that has some keeps its weight. -/
def settledPath (env : ChainEnv Hash) :
    Nat → Heap (BlockInfo Hash) → ℚ → Option Ptr → Exec Bool
  | 0, _, _, _ => .timeout
  | _ + 1, _, _, none => .ok true
  | fuel + 1, nodes, base, some p => do
      let node ← nodes.read p
      let difficulty ← headerDifficulty env node.val
      let alone ← onlyChild nodes node.firstChild
      if node.val.cumulativeDifficulty = base + difficulty ∨ alone then
        settledPath env fuel nodes (base + difficulty) node.firstChild
      else .ok false

/-- A block is heavier than the node it is a child of. -/
def weightRule (env : ChainEnv Hash) : TagRule Hash ℚ where
  tag _ weight := weight
  fits above info := 0 ≤ above ∧ above < info.cumulativeDifficulty
  allowed difficulty := 0 < difficulty
  settled nodes base start := ∃ fuel, settledPath env fuel nodes base start = .ok true

/-- A node of a settled path keeps its weight, or its first child is the only one. -/
theorem settledPath_step {base : ℚ} {member : Member (BlockInfo Hash)}
    {hdr : SatoshiBlockHeader Hash} (live : nodes p = some member)
    (header : member.val.hdr = some hdr)
    (settled : ∃ fuel, settledPath env fuel nodes base (some p) = .ok true) :
    (member.val.cumulativeDifficulty = base + env.compactUint256ToBdiff hdr.bits ∨
        ∀ first child, member.firstChild = some first → nodes first = some child →
          child.nextSibling = none) ∧
      ∃ fuel, settledPath env fuel nodes (base + env.compactUint256ToBdiff hdr.bits)
        member.firstChild = .ok true := by
  obtain ⟨fuel, settled⟩ := settled
  cases fuel with
  | zero => cases settled
  | succ fuel =>
      simp only [settledPath, Heap.read_eq live, Exec.ok_bind, Exec.bind_eq_ok] at settled
      obtain ⟨difficulty, computes, alone, isAlone, settled⟩ := settled
      obtain ⟨again, header', rfl⟩ := headerDifficulty_eq_ok.1 computes
      rw [header] at header'
      cases header'
      split at settled
      next keeps =>
        refine ⟨keeps.imp_right fun isTrue first child isFirst childLive => ?_, fuel, settled⟩
        rw [isFirst, onlyChild, Heap.read_eq childLive, Exec.ok_bind] at isAlone
        cases isAlone
        exact Option.isNone_iff_eq_none.1 isTrue
      next => cases settled

/-- Every node of a tree is weighed from a base that is not lighter. -/
theorem Weighed.part {base : ℚ} {start : Option Ptr} {ids : List Ptr}
    (weighed : Weighed env nodes base start) (positive : (weightRule env).Blocks env nodes)
    (spans : Spans nodes start ids) (inside : p ∈ ids) :
    ∃ above, base ≤ above ∧ Weighed env nodes above (some p) := by
  induction weighed generalizing ids with
  | nil =>
      cases spans
      cases inside
  | @node base head member hdr live header own children siblings childrenPart siblingsPart =>
      cases spans with
      | node again below beside =>
          rw [live] at again
          cases again
          simp only [List.mem_cons, List.mem_append] at inside
          rcases inside with rfl | child | sibling
          · exact ⟨base, le_refl _, .node live header own children siblings⟩
          · obtain ⟨above, heavier, weighed⟩ := childrenPart below child
            have difficulty : 0 < env.compactUint256ToBdiff hdr.bits :=
              positive head member hdr live header
            exact ⟨above, by linarith, weighed⟩
          · exact siblingsPart beside sibling

/-- Every node of the path is weighed from a base that is not lighter, and the path is settled
from there on. -/
theorem UpdatedPath.part {base : ℚ} {start : Option Ptr} {path : List Ptr}
    (updated : UpdatedPath env before after base start path)
    (settled : (weightRule env).settled before base start)
    (positive : (weightRule env).Blocks env after) (inside : p ∈ path) :
    ∃ above, base ≤ above ∧ WeighedPath env after above (some p) ∧
      (weightRule env).settled before above (some p) := by
  obtain ⟨onPath, reweighed, -, -, weighed⟩ := updated
  induction onPath generalizing base with
  | nil => cases inside
  | @cons head member path live below inductionHypothesis =>
      rcases List.mem_cons.1 inside with rfl | later
      · exact ⟨base, le_refl _, weighed, settled⟩
      · obtain ⟨weight, afterLive⟩ := reweighed.live live
        cases weighed with
        | @node _ _ now hdr afterAgain afterHeader own afterRest =>
            rw [afterLive] at afterAgain
            cases afterAgain
            have difficulty : 0 < env.compactUint256ToBdiff hdr.bits :=
              positive head _ _ afterLive afterHeader
            rw [own] at afterRest
            obtain ⟨above, heavier, here, settledHere⟩ :=
              inductionHypothesis (settledPath_step live afterHeader settled).2 later afterRest
            exact ⟨above, by linarith, here, settledHere⟩

section Ascend

variable [DecidableEq Hash] {chain : Blockchain Hash}

end Ascend

end BitcoinClib.Chains
