import BitcoinClib.Chains.Switch
import BitcoinClib.Chains.Reweighing
import Mathlib.Algebra.Order.Field.Rat

/-!
Contract: the heirs over completed calls of `blockchain_add`.

Owns:
- `Run`, completed calls that meet a condition each, with its rule for invariants;
- that every call keeps the heirs linked, with exact sums of difficulties and inside their
  array (`heirs_linked`);
- `winnerEnds`, the calls whose winner has its `longest_end` at the end of its first
  children, and that the tip never gets lighter over such calls (`tip_rises`).

Does not own: the candidates, or which chain wins.
-/

namespace BitcoinClib.Chains

open BitcoinClib.Lib

variable {Hash : Type} [DecidableEq Hash] {env : ChainEnv Hash} {fuel : Nat}
  {chain before after : Blockchain Hash}

/-! ## Runs -/

/-- What is asked of a call before it is made, with the fuel it is made with. -/
abbrev Condition (Hash : Type) := Nat → Blockchain Hash → SatoshiBlockHeader Hash → Exec Bool

/-- Nothing is asked. -/
def anyCall : Condition Hash := fun _ _ _ => .ok true

/-- Completed calls one after the other, each of which meets the condition. -/
inductive Run (env : ChainEnv Hash) (condition : Condition Hash) (start : Blockchain Hash) :
    List (SatoshiBlockHeader Hash) → Blockchain Hash → Prop
  | nil : Run env condition start [] start
  | snoc {headers : List (SatoshiBlockHeader Hash)} {before after : Blockchain Hash}
      {hdr : SatoshiBlockHeader Hash} {fuel : Nat} {blockHash : Option Hash} {rc : Int}
      (earlier : Run env condition start headers before)
      (meets : condition fuel before hdr = .ok true)
      (returns : blockchainAdd fuel env before blockHash hdr = .ok (rc, after)) :
      Run env condition start (headers ++ [hdr]) after

/-- What a call preserves holds after every run. -/
theorem Run.invariant {condition : Condition Hash} {headers : List (SatoshiBlockHeader Hash)}
    (invariant : Blockchain Hash → Prop) (run : Run env condition before headers after)
    (start : invariant before)
    (step : ∀ {fuel chain next blockHash hdr rc}, invariant chain → hdr ∈ headers →
      condition fuel chain hdr = .ok true →
      blockchainAdd fuel env chain blockHash hdr = .ok (rc, next) → invariant next) :
    invariant after := by
  induction run with
  | nil => exact start
  | snoc earlier meets returns inductionHypothesis =>
      refine step (inductionHypothesis fun holds inside => ?_) ?_ meets returns
      · exact step holds (List.mem_append_left _ inside)
      · exact List.mem_append_right _ (List.mem_singleton_self _)

/-- The run that adds headers one after the other, with the same fuel. -/
def runHeaders (condition : Condition Hash) (fuel : Nat) (env : ChainEnv Hash)
    (chain : Blockchain Hash) : List (SatoshiBlockHeader Hash) → Exec (Blockchain Hash)
  | [] => .ok chain
  | hdr :: rest => do
      let meets ← condition fuel chain hdr
      Exec.assert (meets = true)
      let (_, chain) ← blockchainAdd fuel env chain none hdr
      runHeaders condition fuel env chain rest

theorem Run.of_runHeaders {condition : Condition Hash}
    {earlier headers : List (SatoshiBlockHeader Hash)}
    (run : Run env condition chain earlier before)
    (returns : runHeaders condition fuel env before headers = .ok after) :
    Run env condition chain (earlier ++ headers) after := by
  induction headers generalizing before earlier with
  | nil =>
      cases returns
      rwa [List.append_nil]
  | cons hdr rest inductionHypothesis =>
      simp only [runHeaders, Exec.bind_eq_ok, Exec.assert_eq_ok] at returns
      obtain ⟨meets, asked, _, holds, ⟨rc, next⟩, adds, returns⟩ := returns
      rw [holds] at asked
      have whole := inductionHypothesis (run.snoc asked adds) returns
      rwa [List.append_assoc] at whole

/-! ## Linked heirs -/

/-- `add_heir` asserts that the block names the heir he is put above. -/
theorem addInheritancesLoop_linked {slot height tip : Nat} {child : Option Ptr}
    {parentHeir : BlockchainHeir Hash} {path : List Ptr} {heirs : List (BlockchainHeir Hash)}
    (indexed : HeirsIndexed chain) (isLast : chain.heirs.length = slot + 1)
    (parentStored : chain.heirs[slot]? = some parentHeir)
    (along : HeirsAlong env chain.candidatesList.nodes parentHeir.cumulativeDifficulty child path
      heirs)
    (returns : addInheritancesLoop env fuel chain ⟨chain.arena, slot⟩ child height =
      .ok (after, tip)) : HashLinked parentHeir.hash heirs := by
  induction fuel generalizing chain child slot height parentHeir path heirs with
  | zero => cases returns
  | succ fuel inductionHypothesis =>
      cases along with
      | nil => trivial
      | @cons base child member path hdr heirs live header below =>
          rw [addInheritancesLoop, Exec.bind_eq_ok] at returns
          obtain ⟨extended, adds, returns⟩ := returns
          obtain ⟨again, hdr', searchRoot, memberLive, header', names, rfl, extendedIndexed⟩ :=
            addHeir_inversion indexed isLast parentStored adds
          rw [live] at memberLive
          cases memberLive
          rw [header] at header'
          cases header'
          simp only [Exec.bind_eq_ok] at returns
          obtain ⟨cell, reads, readHdr, readsHdr, rest⟩ := returns
          have cellLive := Heap.read_eq_ok.1 reads
          rw [live] at cellLive
          cases cellLive
          have newIsLast : (chain.heirs ++
              [heirOf env member.val.hash hdr parentHeir.cumulativeDifficulty]).length =
                slot + 1 + 1 := by
            rw [List.length_append, isLast, List.length_singleton]
          have newStored : (chain.heirs ++
              [heirOf env member.val.hash hdr parentHeir.cumulativeDifficulty])[slot + 1]? =
                some (heirOf env member.val.hash hdr parentHeir.cumulativeDifficulty) := by
            rw [← isLast, List.getElem?_concat_length]
          have notified : HeirsIndexed (Blockchain.notify { chain with
              heirs := chain.heirs ++
                [heirOf env member.val.hash hdr parentHeir.cumulativeDifficulty]
              searchRoot } (.addBlock member.val.hash (slot + 1) readHdr)) :=
            ⟨extendedIndexed.index, extendedIndexed.distinct⟩
          exact ⟨names.symm, inductionHypothesis notified newIsLast newStored below rest⟩

/-- The heirs that `blockchain_add_inheritances` writes behind the last one. -/
theorem blockchainAddInheritances_linked {child orphans : Option Ptr}
    {parentHeir : BlockchainHeir Hash} (indexed : HeirsIndexed chain)
    (length : chain.heirs.length = chain.height + 1)
    (parentStored : chain.heirs[chain.height]? = some parentHeir)
    (returns : blockchainAddInheritances fuel env chain ⟨chain.arena, chain.height⟩ child =
      .ok (after, orphans)) :
    ∃ path heirs, HeirsAlong env chain.candidatesList.nodes parentHeir.cumulativeDifficulty child
        path heirs ∧ HashLinked parentHeir.hash heirs ∧
      after.heirs = chain.heirs ++ heirs ∧ after.maxSize = chain.maxSize := by
  obtain ⟨path, heirs, searchRoot, along, afterEq, -⟩ :=
    blockchainAddInheritances_along indexed length parentStored returns
  simp only [blockchainAddInheritances, Exec.bind_eq_ok] at returns
  obtain ⟨_, -, ⟨same, top⟩, abandons, ⟨extended, tip⟩, loop, -⟩ := returns
  have atTip : blockchainAbandonInheritances env chain ⟨chain.arena, chain.height⟩ =
      .ok (chain, none) := by
    rw [blockchainAbandonInheritances, Exec.assert_of (Nat.le_refl _), Exec.ok_bind, if_pos rfl]
  rw [atTip] at abandons
  cases abandons
  have linked := addInheritancesLoop_linked indexed length parentStored along loop
  rw [afterEq]
  exact ⟨path, heirs, along, linked, rfl, rfl⟩

/-- The heirs of the winner of a round are those of `blockchain_add_inheritances`. -/
theorem winRound_inherits {top : Ptr} {ref : HeirRef}
    (returns : winRound fuel env before top ref = .ok after) :
    ∃ core orphans head inherited others,
      blockchainAbandonInheritances env before ref = .ok (core, orphans) ∧
      core.candidatesList.nodes top = some head ∧
      blockchainAddInheritances fuel env core ref head.firstChild = .ok (inherited, others) ∧
      after = { inherited with candidatesList := after.candidatesList } := by
  simp only [winRound, Exec.bind_eq_ok] at returns
  obtain ⟨⟨core, orphans⟩, abandons, head, readsHead, ⟨inherited, others⟩, inherits, successor,
    -, cell, -, removed, -, left, -, node, -, split, -, ⟨found, searchRoot⟩, -, nodes, -, now, -,
    returns⟩ := returns
  refine ⟨core, orphans, head, inherited, others, abandons, Heap.read_eq_ok.1 readsHead, inherits,
    ?_⟩
  cases child : now.firstChild with
  | none =>
      simp only [child, Option.isNone_none, if_true, Exec.bind_eq_ok] at returns
      obtain ⟨final, -, returns⟩ := returns
      cases returns
      rfl
  | some first =>
      simp only [child, Option.isNone_some, Bool.false_eq_true, if_false, Exec.ok_bind] at returns
      cases returns
      rfl

omit [DecidableEq Hash] in
/-- The nodes that were there before heirs were abandoned are as they were. -/
theorem Cleared.along_back {slot : Nat} {core : Blockchain Hash} {difficulty : ℚ}
    {start : Option Ptr} {path : List Ptr} {heirs : List (BlockchainHeir Hash)}
    (cleared : Cleared env before slot core) (links : before.candidatesList.Links)
    (older : ∀ p, start = some p → p < before.candidatesList.next)
    (along : HeirsAlong env core.candidatesList.nodes difficulty start path heirs) :
    HeirsAlong env before.candidatesList.nodes difficulty start path heirs := by
  induction along with
  | nil base => exact .nil base
  | @cons base p member path hdr heirs live header _ inductionHypothesis =>
      rw [cleared.frame p (older p rfl)] at live
      exact .cons live header (inductionHypothesis (links.nodes p member live).child)

/-- The heirs behind a round that was won: those up to the one above whom the chain competed, and
those along the first children of its head. -/
structure Succeeded (env : ChainEnv Hash) (before after : Blockchain Hash) (slot : Nat)
    (parentHeir : BlockchainHeir Hash) (start : Option Ptr) (path : List Ptr)
    (promoted : List (BlockchainHeir Hash)) : Prop where
  along : HeirsAlong env before.candidatesList.nodes parentHeir.cumulativeDifficulty start path
    promoted
  linked : HashLinked parentHeir.hash promoted
  heirs : after.heirs = before.heirs.take (slot + 1) ++ promoted
  maxSize : after.maxSize = before.maxSize
  fits : after.heirs.length ≤ after.maxSize

theorem winRound_succeeded {top : Ptr} {slot : Nat} {head : Member (BlockInfo Hash)}
    {parentHeir : BlockchainHeir Hash} (consistent : Consistent env before)
    (parentStored : before.heirs[slot]? = some parentHeir)
    (live : before.candidatesList.nodes top = some head)
    (returns : winRound fuel env before top ⟨before.arena, slot⟩ = .ok after) :
    ∃ path promoted,
      Succeeded env before after slot parentHeir head.firstChild path promoted := by
  have inside : slot ≤ before.height := by
    have inRange := (List.getElem?_eq_some_iff.1 parentStored).1
    have length := consistent.length
    omega
  obtain ⟨core, abandons, cleared⟩ := blockchainAbandonInheritances_cleared consistent inside
  obtain ⟨isLast, coreStored⟩ := cleared.isLast parentStored
  obtain ⟨same, orphans, now, inherited, others, again, nowLive, inherits, afterEq⟩ :=
    winRound_inherits returns
  rw [abandons] at again
  cases again
  have below := consistent.links.nodes top head live
  rw [cleared.frame top below.self, live] at nowLive
  cases nowLive
  have fits := blockchainAddInheritances_fits inherits
  have atTip : (⟨before.arena, slot⟩ : HeirRef) = ⟨core.arena, core.height⟩ := by
    rw [cleared.arena, cleared.height]
  rw [atTip] at inherits
  obtain ⟨path, heirs, along, linked, heirsEq, maxSize⟩ := blockchainAddInheritances_linked
    cleared.indexed (by rw [cleared.height]; exact isLast)
    (by rw [cleared.height]; exact coreStored)
    inherits
  refine ⟨path, heirs, cleared.along_back consistent.links below.child along, linked, ?_, ?_, ?_⟩
  · rw [afterEq, ← cleared.heirs]
    exact heirsEq
  · rw [afterEq, ← cleared.maxSize]
    exact maxSize
  · rw [afterEq]
    exact fits

omit [DecidableEq Hash] in
/-- A round that was won keeps the heirs consistent. -/
theorem Succeeded.consistent {slot : Nat} {parentHeir : BlockchainHeir Hash} {start : Option Ptr}
    {path : List Ptr} {promoted : List (BlockchainHeir Hash)}
    (succeeded : Succeeded env before after slot parentHeir start path promoted)
    (consistent : Consistent env before) (parentStored : before.heirs[slot]? = some parentHeir)
    (sound : Sound after) : Consistent env after where
  toSound := sound
  linked := by
    have kept : before.heirs.take (slot + 1) = before.heirs.take slot ++ [parentHeir] := by
      rw [List.take_add_one, parentStored]
      rfl
    rw [succeeded.heirs, kept, List.append_assoc, List.singleton_append, List.isChain_split, ← kept]
    exact ⟨consistent.linked.take _, succeeded.along.isChain succeeded.linked⟩
  capacity := by
    rw [succeeded.maxSize]
    exact consistent.capacity
  inside := by
    have fits := succeeded.fits
    rw [sound.length] at fits
    exact fits

omit [DecidableEq Hash] in
theorem Consistent.withList (consistent : Consistent env before) {list : ActiveChainList Hash}
    (links : list.Links) : Consistent env { before with candidatesList := list } :=
  ⟨consistent.toSound.withList links, consistent.linked, consistent.capacity, consistent.inside⟩

/-- Rule IV keeps the heirs, or a chain won the round. -/
theorem ruleIV_cases {top : Ptr} (consistent : Consistent env before)
    (returns : ruleIV fuel env before top = .ok after) :
    ∃ state won, roundOf fuel env before top = .ok (state, won) ∧ Consistent env state ∧
      state.heirs = before.heirs ∧ state.maxSize = before.maxSize ∧
      (won = none ∧ after = state ∨
        ∃ slot parentHeir head path promoted, won = some ⟨before.arena, slot⟩ ∧
          state.heirs[slot]? = some parentHeir ∧
          state.candidatesList.nodes top = some head ∧
          Succeeded env state after slot parentHeir head.firstChild path promoted) := by
  rw [ruleIV_eq, Exec.bind_eq_ok] at returns
  obtain ⟨⟨state, won⟩, round, returns⟩ := returns
  obtain ⟨head, nodes, live, relinked, rfl, winner⟩ := roundOf_inversion round
  have links : ({ before.candidatesList with nodes } : ActiveChainList Hash).Links :=
    ⟨relinked.links _ consistent.links.nodes, consistent.links.entries⟩
  have middle := consistent.withList links
  refine ⟨_, won, round, middle, rfl, rfl, ?_⟩
  cases won with
  | none =>
      cases returns
      exact .inl ⟨rfl, rfl⟩
  | some ref =>
      obtain ⟨-, parentHeir, readsHeir⟩ := winner ref rfl
      obtain ⟨arena, parentStored⟩ := heirAt_eq_ok.1 readsHeir
      obtain ⟨now, nowLive, -⟩ := relinked.live live
      obtain ⟨refArena, slot⟩ := ref
      change refArena = before.arena at arena
      subst arena
      obtain ⟨path, promoted, succeeded⟩ := winRound_succeeded middle parentStored nowLive returns
      exact .inr ⟨slot, parentHeir, now, path, promoted, rfl, parentStored, nowLive, succeeded⟩

/-- A completed call keeps the heirs consistent. -/
theorem blockchainAdd_consistent {blockHash : Option Hash} {hdr : SatoshiBlockHeader Hash}
    {rc : Int} (consistent : Consistent env before)
    (returns : blockchainAdd fuel env before blockHash hdr = .ok (rc, after)) :
    Consistent env after := by
  rcases (blockchainAdd_inversion returns).2 with
    ⟨-, rfl, -⟩ | ⟨-, placed, top, lets, rule⟩
  · exact consistent
  · obtain ⟨dropped, place⟩ := letIn_inversion consistent.links lets
    have middle := consistent.withList place.links
    have sound := (ruleIV_step middle.toSound rule).1
    obtain ⟨state, won, -, stateConsistent, -, -, outcome⟩ := ruleIV_cases middle rule
    rcases outcome with ⟨-, rfl⟩ | ⟨slot, parentHeir, head, path, promoted, -, stored, -, succeeded⟩
    · exact stateConsistent
    · exact succeeded.consistent stateConsistent stored sound

omit [DecidableEq Hash] in
theorem consistent_blockchainInit (env : ChainEnv Hash) (genesisBlockHash : Option Hash)
    (genesisBlockHdr : Option (SatoshiBlockHeader Hash)) :
    Consistent env (blockchainInit env genesisBlockHash genesisBlockHdr) where
  toSound := sound_blockchainInit env genesisBlockHash genesisBlockHdr
  linked := List.isChain_singleton _
  capacity := Nat.dvd_refl _
  inside := by
    show 0 < blockchainDefaultAllocSize
    decide

theorem Run.consistent {condition : Condition Hash} {headers : List (SatoshiBlockHeader Hash)}
    (run : Run env condition before headers after) (start : Consistent env before) :
    Consistent env after :=
  run.invariant (Consistent env) start fun consistent _ _ returns =>
    blockchainAdd_consistent consistent returns

/-- The genesis block stays. -/
theorem Run.first {condition : Condition Hash} {headers : List (SatoshiBlockHeader Hash)}
    (run : Run env condition before headers after) (start : Sound before) :
    Sound after ∧ after.heirs[0]? = before.heirs[0]? := by
  refine run.invariant (fun (reached : Blockchain Hash) =>
    Sound reached ∧ reached.heirs[0]? = before.heirs[0]?) ⟨start, rfl⟩ ?_
  · intro fuel chain next blockHash hdr rc holds _ _ returns
    obtain ⟨sound, step⟩ := blockchainAdd_step holds.1 returns
    exact ⟨sound, step.first.trans holds.2⟩

/-- In every state that completed calls reach, in whatever order headers arrive and however often
the active chain is reorganised: the heirs start with the genesis block, each one names the hash
of the one before him and adds his difficulty to that one's sum, they are inside their array, no
hash is there twice, and `blockchain_find` finds each one at his height. -/
theorem heirs_linked {genesisBlockHash : Option Hash}
    {genesisBlockHdr : Option (SatoshiBlockHeader Hash)} {headers : List (SatoshiBlockHeader Hash)}
    (run : Run env anyCall (blockchainInit env genesisBlockHash genesisBlockHdr) headers chain) :
    chain.heirs[0]? = some (genesisHeir env (genesisBlockHash.getD env.genesisBlockHash)
        (genesisBlockHdr.getD env.genesisBlockHdr)) ∧
      chain.heirs.length = chain.height + 1 ∧ chain.heirs.length ≤ chain.maxSize ∧
      (∀ i parent heir, chain.heirs[i]? = some parent → chain.heirs[i + 1]? = some heir →
        heir.hdr.prevHash = parent.hash ∧ heir.cumulativeDifficulty =
          parent.cumulativeDifficulty + env.compactUint256ToBdiff heir.bits) ∧
      (chain.heirs.map BlockchainHeir.hash).Nodup ∧
      ∀ i heir, chain.heirs[i]? = some heir →
        blockchainFind chain heir.hash = .ok (some ⟨chain.arena, i⟩) := by
  have consistent := run.consistent (consistent_blockchainInit env genesisBlockHash genesisBlockHdr)
  refine ⟨(run.first (sound_blockchainInit _ _ _)).2, consistent.length, ?_,
    fun i parent heir stored next => ?_, consistent.indexed.distinct, fun i heir stored => ?_⟩
  · rw [consistent.length]
    exact consistent.inside
  · obtain ⟨inRange, rfl⟩ := List.getElem?_eq_some_iff.1 next
    obtain ⟨before, rfl⟩ := List.getElem?_eq_some_iff.1 stored
    exact List.isChain_iff_getElem.1 consistent.linked i inRange
  · exact consistent.indexed.find_eq_some.2 ⟨heir, rfl, stored, rfl⟩

/-- The second branch of a fork replaces the first; both its blocks are linked heirs. -/
theorem heirs_linked_fork : ∃ chain,
    Run sampleEnv anyCall (blockchainInit sampleEnv none none) sampleFork chain ∧
    chain.heirs.map BlockchainHeir.hash =
      [.genesis, .block .genesis 2, .block (.block .genesis 2) 3] ∧
    (∀ i parent heir, chain.heirs[i]? = some parent → chain.heirs[i + 1]? = some heir →
      heir.hdr.prevHash = parent.hash ∧ heir.cumulativeDifficulty =
        parent.cumulativeDifficulty + sampleEnv.compactUint256ToBdiff heir.bits) := by
  have runs : (do
      let chain ← runHeaders anyCall 30 sampleEnv (blockchainInit sampleEnv none none) sampleFork
      .ok (chain.heirs.map BlockchainHeir.hash) : Exec (List SampleHash)) =
        .ok [.genesis, .block .genesis 2, .block (.block .genesis 2) 3] := by
    decide +kernel
  simp only [Exec.bind_eq_ok] at runs
  obtain ⟨chain, returns, result⟩ := runs
  have run := Run.nil.of_runHeaders returns
  obtain ⟨-, -, -, linked, -, -⟩ := heirs_linked run
  exact ⟨chain, run, Exec.ok.inj result, linked⟩

/-! ## The tip -/

/-- The last heir. -/
def Blockchain.tip (chain : Blockchain Hash) : Option (BlockchainHeir Hash) := chain.heirs.getLast?

/-- Where a chain wins the round, its `longest_end` is the end of its first children. -/
def winnerEnds (env : ChainEnv Hash) : Condition Hash := fun fuel blockChain hdr => do
  let placed ← letIn fuel env blockChain hdr
  match placed with
  | none => .ok true
  | some (placed, chain) => do
      let round ← roundOf fuel env { blockChain with candidatesList := placed } chain
      match round with
      | (_, none) => .ok true
      | (state, some _) => do
          let head ← state.candidatesList.nodes.read chain
          let successor ← Exec.deref head.firstChild
          let last ← firstChildEnd fuel state.candidatesList.nodes successor
          let fields ← Exec.deref (state.candidatesList.activeChains chain)
          .ok (fields.longestEnd = some last)

omit [DecidableEq Hash] in
/-- The last of the heirs along a path that is weighed from their base weighs as much as the end
of the path. -/
theorem HeirsAlong.last {nodes : Heap (BlockInfo Hash)} {base : ℚ} {start last : Ptr}
    {path : List Ptr} {heirs : List (BlockchainHeir Hash)}
    (along : HeirsAlong env nodes base (some start) path heirs)
    (weighed : WeighedPath env nodes base (some start))
    (ends : firstChildEnd fuel nodes start = .ok last) :
    ∃ cell heir, nodes last = some cell ∧ heirs.getLast? = some heir ∧
      heir.cumulativeDifficulty = cell.val.cumulativeDifficulty := by
  induction fuel generalizing base start path heirs with
  | zero => cases ends
  | succ fuel inductionHypothesis =>
      cases along with
      | @cons base start member path hdr heirs live header below =>
          cases weighed with
          | node again header' own rest =>
              rw [live] at again
              cases again
              rw [header] at header'
              cases header'
              rw [firstChildEnd, Heap.read_eq live, Exec.ok_bind] at ends
              cases child : member.firstChild with
              | none =>
                  simp only [child] at ends below
                  cases ends
                  cases below
                  exact ⟨member, _, live, rfl, own.symm⟩
              | some next =>
                  simp only [child] at ends
                  rw [child] at below rest
                  rw [own] at rest
                  obtain ⟨cell, heir, cellLive, isLast, same⟩ :=
                    inductionHypothesis below rest ends
                  refine ⟨cell, heir, cellLive, ?_, same⟩
                  rw [List.getLast?_cons, isLast]
                  rfl

/-- A chain wins the round whose `longest_end` is heavier than the last heir after the path of
first children was weighed from the heir the head stands for. -/
theorem roundOf_wins {top : Ptr} {state : Blockchain Hash} {ref : HeirRef}
    (returns : roundOf fuel env before top = .ok (state, some ref)) :
    ∃ head heir current fields longestEnd cell path,
      before.candidatesList.nodes top = some head ∧ before.heirAt ref = .ok heir ∧
      before.heirAt ⟨before.arena, before.height⟩ = .ok current ∧
      UpdatedPath env before.candidatesList.nodes state.candidatesList.nodes
        heir.cumulativeDifficulty head.firstChild path ∧
      state.candidatesList.activeChains top = some fields ∧ fields.longestEnd = some longestEnd ∧
      state.candidatesList.nodes longestEnd = some cell ∧
      current.cumulativeDifficulty < cell.val.cumulativeDifficulty := by
  simp only [roundOf, Exec.bind_eq_ok] at returns
  obtain ⟨head, reads, found, -, returns⟩ := returns
  cases found with
  | none => cases returns
  | some winner =>
      simp only [Exec.bind_eq_ok] at returns
      obtain ⟨heir, readsHeir, nodes, updates, current, readsCurrent, fields, isChain, longestEnd,
        isEnd, cell, readsCell, returns⟩ := returns
      rw [Exec.ok.injEq, Prod.mk.injEq] at returns
      obtain ⟨rfl, wins⟩ := returns
      split at wins
      next heavier =>
        cases wins
        obtain ⟨path, updated⟩ := updateFirstChild_weighed updates
        exact ⟨head, heir, current, fields, longestEnd, cell, path, Heap.read_eq_ok.1 reads,
          readsHeir, readsCurrent, updated, Exec.deref_eq_ok.1 isChain, Exec.deref_eq_ok.1 isEnd,
          Heap.read_eq_ok.1 readsCell, heavier⟩
      next => cases wins

/-- A call keeps the heirs, or a heavier tip replaces the old one. -/
theorem blockchainAdd_rises {blockHash : Option Hash} {hdr : SatoshiBlockHeader Hash} {rc : Int}
    (consistent : Consistent env before) (meets : winnerEnds env fuel before hdr = .ok true)
    (returns : blockchainAdd fuel env before blockHash hdr = .ok (rc, after)) :
    after.heirs = before.heirs ∨
      ∃ old new, before.tip = some old ∧ after.tip = some new ∧
        old.cumulativeDifficulty < new.cumulativeDifficulty := by
  rcases (blockchainAdd_inversion returns).2 with
    ⟨-, rfl, -⟩ | ⟨-, placed, top, lets, rule⟩
  · exact .inl rfl
  · obtain ⟨dropped, place⟩ := letIn_inversion consistent.links lets
    have middle := consistent.withList place.links
    obtain ⟨state, won, round, stateConsistent, heirs, -, outcome⟩ := ruleIV_cases middle rule
    rcases outcome with
      ⟨-, rfl⟩ | ⟨slot, parentHeir, head, path, promoted, rfl, stored, live, succeeded⟩
    · exact .inl heirs
    · right
      obtain ⟨was, heir, current, fields, longestEnd, cell, visited, wasLive, readsHeir,
        readsCurrent, updated, isChain, isEnd, cellLive, heavier⟩ := roundOf_wins round
      rw [winnerEnds, lets, Exec.ok_bind] at meets
      simp only [round, Heap.read_eq live, isChain, Exec.ok_bind, Exec.bind_eq_ok,
        Exec.deref_some, isEnd] at meets
      obtain ⟨successor, isFirst, last, ends, meets⟩ := meets
      have isLast := of_decide_eq_true (Exec.ok.inj meets)
      cases isLast
      -- the first child of the head is as it was before the path was weighed
      obtain ⟨weight, sameLive⟩ := updated.reweighed.live wasLive
      rw [live] at sameLive
      cases sameLive
      have isFirst : was.firstChild = some successor := Exec.deref_eq_ok.1 isFirst
      obtain ⟨-, heirStored⟩ := heirAt_eq_ok.1 readsHeir
      have sameHeir : heir = parentHeir :=
        Option.some.inj (heirStored.symm.trans (heirs ▸ stored))
      subst sameHeir
      have along := succeeded.along
      have weighed := updated.weighed
      change HeirsAlong env _ _ was.firstChild path promoted at along
      rw [isFirst] at along weighed
      obtain ⟨again, new, againLive, isTip, same⟩ := along.last weighed ends
      rw [cellLive] at againLive
      cases againLive
      obtain ⟨-, currentStored⟩ := heirAt_eq_ok.1 readsCurrent
      refine ⟨current, new, ?_, ?_, ?_⟩
      · rw [Blockchain.tip, List.getLast?_eq_getElem?, consistent.length]
        exact currentStored
      · rw [Blockchain.tip, succeeded.heirs, List.getLast?_append, isTip]
        rfl
      · rw [same]
        exact heavier

/-- From any state that completed calls reach, the tip of the active chain never gets lighter over
calls whose winners have their `longest_end` at the end of their first children, and where it is
as heavy as before, the heirs are the same. -/
theorem tip_rises {genesisBlockHash : Option Hash}
    {genesisBlockHdr : Option (SatoshiBlockHeader Hash)}
    {earlier headers : List (SatoshiBlockHeader Hash)}
    (reached : Run env anyCall (blockchainInit env genesisBlockHash genesisBlockHdr) earlier before)
    (run : Run env (winnerEnds env) before headers after) :
    ∃ old new, before.tip = some old ∧ after.tip = some new ∧
      old.cumulativeDifficulty ≤ new.cumulativeDifficulty ∧
      (new.cumulativeDifficulty = old.cumulativeDifficulty → after.heirs = before.heirs) := by
  have start := reached.consistent (consistent_blockchainInit env genesisBlockHash genesisBlockHdr)
  obtain ⟨old, isTip⟩ : ∃ old, before.tip = some old := by
    have inside : before.height < before.heirs.length := by
      rw [start.length]
      exact Nat.lt_succ_self _
    refine ⟨before.heirs[before.height], ?_⟩
    rw [Blockchain.tip, List.getLast?_eq_getElem?, start.length]
    exact List.getElem?_eq_getElem inside
  have whole : Consistent env after ∧ ∃ new, after.tip = some new ∧
      old.cumulativeDifficulty ≤ new.cumulativeDifficulty ∧
      (new.cumulativeDifficulty = old.cumulativeDifficulty → after.heirs = before.heirs) := by
    refine run.invariant (fun (chain : Blockchain Hash) => Consistent env chain ∧ ∃ new,
      chain.tip = some new ∧ old.cumulativeDifficulty ≤ new.cumulativeDifficulty ∧
      (new.cumulativeDifficulty = old.cumulativeDifficulty → chain.heirs = before.heirs))
      ⟨start, old, isTip, le_refl _, fun _ => rfl⟩ ?_
    intro fuel chain next blockHash hdr rc holds _ meets returns
    obtain ⟨consistent, tip, chainTip, notLighter, equal⟩ := holds
    refine ⟨blockchainAdd_consistent consistent returns, ?_⟩
    rcases blockchainAdd_rises consistent meets returns with
      same | ⟨was, now, wasTip, nowTip, heavier⟩
    · refine ⟨tip, ?_, notLighter, fun unchanged => same.trans (equal unchanged)⟩
      rw [Blockchain.tip, same]
      exact chainTip
    · rw [chainTip] at wasTip
      cases wasTip
      refine ⟨now, nowTip, (lt_of_le_of_lt notLighter heavier).le, fun unchanged => ?_⟩
      exact absurd unchanged (lt_of_le_of_lt notLighter heavier).ne'
  obtain ⟨-, new, newTip, notLighter, equal⟩ := whole
  exact ⟨old, new, isTip, newTip, notLighter, equal⟩

/-- The winner of the fork ends its path; the tip gets heavier with it. -/
theorem tip_rises_fork : ∃ earlier before headers after old new,
    Run sampleEnv anyCall (blockchainInit sampleEnv none none) earlier before ∧
    Run sampleEnv (winnerEnds sampleEnv) before headers after ∧
    sampleFork = earlier ++ headers ∧
    after.heirs.map BlockchainHeir.hash =
      [.genesis, .block .genesis 2, .block (.block .genesis 2) 3] ∧
    before.tip = some old ∧ after.tip = some new ∧
    old.cumulativeDifficulty ≤ new.cumulativeDifficulty ∧
    (new.cumulativeDifficulty = old.cumulativeDifficulty → after.heirs = before.heirs) := by
  have runs : (do
      let before ← runHeaders anyCall 30 sampleEnv (blockchainInit sampleEnv none none)
        (sampleFork.take 2)
      let after ← runHeaders (winnerEnds sampleEnv) 30 sampleEnv before (sampleFork.drop 2)
      .ok (after.heirs.map BlockchainHeir.hash) : Exec (List SampleHash)) =
        .ok [.genesis, .block .genesis 2, .block (.block .genesis 2) 3] := by
    decide +kernel
  simp only [Exec.bind_eq_ok] at runs
  obtain ⟨before, first, after, second, result⟩ := runs
  have reached := Run.nil.of_runHeaders first
  have run := Run.nil.of_runHeaders second
  obtain ⟨old, new, oldTip, newTip, rises, equal⟩ := tip_rises reached run
  exact ⟨_, before, _, after, old, new, reached, run, (List.take_append_drop 2 sampleFork).symm,
    Exec.ok.inj result, oldTip, newTip, rises, equal⟩

end BitcoinClib.Chains
