import BitcoinClib.Chains.Tip

/-!
Contract: headers passed to `blockchain_add` a second time.

Owns:
- `Tracked`, every block has a parent and an entry in a searchable index;
- `Ignored`, the hashes that a call finds among the heirs or below a head;
- `winsAtTip`, the calls in which a chain wins the round only above the last heir and with
  an only child, and `TipCalls`, sequences of them;
- that such calls keep a block chain tracked and forget no hash, so that duplicates are
  ignored.
-/

namespace BitcoinClib.Chains

open BitcoinClib.Lib

variable {Hash : Type} [DecidableEq Hash]

/-- Every block has a parent and an entry in the index, which is searchable. -/
structure Tracked (chain : Blockchain Hash) : Prop where
  sound : Sound chain
  stored : Stored chain
  searchable : chain.candidatesList.Searchable
  rooted : chain.candidatesList.Rooted
  blocks : ∀ p member, chain.candidatesList.nodes p = some member → member.val.hdr.isSome →
    p ∈ chain.candidatesList.searchRoot ∧ member.parent.isSome

/-- The hash of an heir, or of an indexed node with a parent. -/
def Ignored (chain : Blockchain Hash) (hash : Hash) : Prop :=
  (∃ heir ∈ chain.heirs, heir.hash = hash) ∨
    ∃ p ∈ chain.candidatesList.searchRoot, ∃ member,
      chain.candidatesList.nodes p = some member ∧ member.val.hash = hash ∧ member.parent.isSome

omit [DecidableEq Hash] in
theorem Tracked.ignored {chain : Blockchain Hash} (tracked : Tracked chain) {hash : Hash}
    (known : Known chain hash) : Ignored chain hash := by
  rcases known with ⟨p, member, live, header, same⟩ | inherited
  · obtain ⟨entry, linked⟩ := tracked.blocks p member live header
    exact .inr ⟨p, entry, member, live, same, linked⟩
  · exact .inl inherited

omit [DecidableEq Hash] in
theorem tracked_blockchainInit (env : ChainEnv Hash) (genesisBlockHash : Option Hash)
    (genesisBlockHdr : Option (SatoshiBlockHeader Hash)) :
    Tracked (blockchainInit env genesisBlockHash genesisBlockHdr) where
  sound := sound_blockchainInit _ _ _
  stored := by
    constructor
    · rintro p q hash ⟨member, live, -⟩
      cases live
    · rintro p heir inside ⟨member, live, -⟩
      cases live
  searchable := by
    refine ⟨List.nodup_nil, fun p entry => absurd entry List.not_mem_nil, fun p entry => ?_⟩
    exact absurd entry List.not_mem_nil
  rooted := by
    intro chain fields stored
    cases stored
  blocks := by
    intro p member live
    cases live

/-! ## A call that finds the hash -/

variable {env : ChainEnv Hash} {before after : Blockchain Hash} {hdr : SatoshiBlockHeader Hash}

/-- A call ignores its header where it finds the hash. -/
theorem ignored_of_letIn {fuel : Nat} (ignores : letIn fuel env before hdr = .ok none) :
    Ignored before (env.hash256 hdr) := by
  simp only [letIn, Exec.bind_eq_ok] at ignores
  obtain ⟨heir, findsHeir, ignores⟩ := ignores
  cases heir with
  | some ref =>
      obtain ⟨heir, -, stored, same⟩ := heirHash_eq_ok.1 (SearchTree.tfind_some findsHeir).2
      exact .inl ⟨heir, List.mem_of_getElem? stored, same⟩
  | none =>
      simp only [Exec.bind_eq_ok] at ignores
      obtain ⟨found, finds, ignores⟩ := ignores
      cases found with
      | none =>
          simp only [Exec.bind_eq_ok] at ignores
          obtain ⟨placed, -, ignores⟩ := ignores
          cases ignores
      | some p =>
          simp only [Exec.bind_eq_ok] at ignores
          obtain ⟨cell, reads, ignores⟩ := ignores
          by_cases linked : cell.parent.isSome
          · obtain ⟨entry, hashes⟩ := SearchTree.tfind_some finds
            obtain ⟨again, againLive, same⟩ := nodeHash_eq_ok.1 hashes
            have live := Heap.read_eq_ok.1 reads
            rw [live] at againLive
            cases againLive
            exact .inr ⟨p, entry, cell, live, same, linked⟩
          · simp only [if_neg linked, Exec.bind_eq_ok] at ignores
            obtain ⟨claimed, -, placed, -, ignores⟩ := ignores
            cases ignores

/-- A header whose hash is ignored changes nothing, whatever the fuel. -/
theorem Tracked.blockchainAdd_ignored (tracked : Tracked before)
    (ignored : Ignored before (env.hash256 hdr)) (fuel : Nat) {blockHash : Option Hash}
    (given : blockHash = none ∨ blockHash = some (env.hash256 hdr)) :
    blockchainAdd fuel env before blockHash hdr = .ok (-1, before) := by
  have ignores : letIn fuel env before hdr = .ok none := by
    obtain ⟨heir, findsHeir⟩ : ∃ heir, blockchainFind before (env.hash256 hdr) = .ok heir :=
      SearchTree.tfind_returns tracked.sound.indexed.live
    rw [letIn, findsHeir, Exec.ok_bind]
    cases heir with
    | some ref => rfl
    | none =>
        rcases ignored with ⟨heir, inside, same⟩ | ⟨p, entry, member, live, same, linked⟩
        · exact absurd same (tracked.sound.indexed.find_eq_none findsHeir heir inside)
        · obtain ⟨indexLive, distinct⟩ := tracked.searchable.index
          have finds : activeChainListFind before.candidatesList (env.hash256 hdr) =
              .ok (some p) :=
            SearchTree.tfind_of_mem indexLive distinct entry
              (nodeHash_eq_ok.2 ⟨member, live, same⟩)
          simp only [finds, Exec.ok_bind, Heap.read_eq live, if_pos linked]
  rw [blockchainAdd_eq, Exec.assert_of given, Exec.ok_bind, ignores]
  rfl

/-! ## Rules 0 to III -/

namespace Tracked

variable {dropped : Ptr → Prop} {placed : ActiveChainList Hash}

/-- The hash of a header that is let in is not that of an indexed node with a parent. -/
theorem fresh (tracked : Tracked before) (place : Placed env hdr before dropped placed) {p : Ptr}
    {member : Member (BlockInfo Hash)} (entry : p ∈ before.candidatesList.searchRoot)
    (live : before.candidatesList.nodes p = some member) (linked : member.parent.isSome) :
    member.val.hash ≠ env.hash256 hdr := by
  intro same
  by_cases claims : ∃ head, dropped head
  · obtain ⟨head, drops⟩ := claims
    obtain ⟨cell, cellLive, cellEntry, cellHash, noParent⟩ := place.head head drops
    have here := tracked.searchable.distinct p entry head cellEntry member cell live cellLive
      (same.trans cellHash.symm)
    subst here
    rw [live] at cellLive
    cases cellLive
    rw [noParent] at linked
    cases linked
  · have noEntry := place.noEntry fun head drops => claims ⟨head, drops⟩
    exact SearchTree.tfind_none noEntry p entry (nodeHash_eq_ok.2 ⟨member, live, same⟩)

/-- An indexed node with a parent stays one. -/
theorem placed_keeps (tracked : Tracked before) (place : Placed env hdr before dropped placed)
    {p : Ptr} {member : Member (BlockInfo Hash)} (entry : p ∈ before.candidatesList.searchRoot)
    (live : before.candidatesList.nodes p = some member) (linked : member.parent.isSome) :
    p ∈ placed.searchRoot ∧ ∃ now, placed.nodes p = some now ∧ SameBlock member now := by
  obtain ⟨entered, enters, grown⟩ := place.steps
  have notDropped : ¬ dropped p := by
    intro drops
    obtain ⟨cell, cellLive, -, -, noParent⟩ := place.head p drops
    rw [live] at cellLive
    cases cellLive
    rw [noParent] at linked
    cases linked
  refine ⟨grown.kept p (enters.index.kept p entry fun old oldLive => ?_), ?_⟩
  · rw [live] at oldLive
    cases oldLive
    exact tracked.fresh place entry live linked
  · obtain ⟨between, betweenLive, first⟩ := enters.kept p member notDropped live
    obtain ⟨now, nowLive, second⟩ := grown.live enters.links betweenLive
    exact ⟨now, nowLive, first.trans second⟩

theorem place (tracked : Tracked before) (place : Placed env hdr before dropped placed)
    (rooted : placed.Rooted) : Tracked { before with candidatesList := placed } := by
  have freshBlock : ∀ p, ¬ IsBlock before.candidatesList.nodes p (env.hash256 hdr) := by
    rintro p ⟨member, live, header, same⟩
    obtain ⟨entry, linked⟩ := tracked.blocks p member live header
    exact tracked.fresh place entry live linked same
  obtain ⟨entered, enters, grown⟩ := place.steps
  refine ⟨tracked.sound.withList place.links,
    place.stored tracked.sound.indexed tracked.stored freshBlock,
    grown.searchable (enters.searchable tracked.searchable), rooted, fun p member live header => ?_⟩
  by_cases new : p = before.candidatesList.next
  · obtain ⟨entry, orphan, orphanLive, linked⟩ := place.orphan
    dsimp only at live
    rw [new, orphanLive] at live
    cases live
    exact ⟨new ▸ entry, linked⟩
  · obtain ⟨old, oldLive, same⟩ := grown.origin live header
    obtain ⟨first, firstLive, firstSame⟩ := enters.origin p old new oldLive
    have firstHeader : first.val.hdr.isSome := by
      rw [← firstSame.hdr, ← same.hdr]
      exact header
    obtain ⟨entry, linked⟩ := tracked.blocks p first firstLive firstHeader
    exact ⟨(tracked.placed_keeps place entry firstLive linked).1,
      same.parent (firstSame.parent linked)⟩

/-- No hash is forgotten, and that of the header is ignored from now on. -/
theorem place_ignored (tracked : Tracked before) (place : Placed env hdr before dropped placed)
    {hash : Hash} (ignored : Ignored before hash ∨ hash = env.hash256 hdr) :
    Ignored { before with candidatesList := placed } hash := by
  rcases ignored with (inherited | ⟨p, entry, member, live, same, linked⟩) | rfl
  · exact .inl inherited
  · obtain ⟨stays, now, nowLive, sameBlock⟩ := tracked.placed_keeps place entry live linked
    exact .inr ⟨p, stays, now, nowLive, sameBlock.hash.trans same, sameBlock.parent linked⟩
  · obtain ⟨entry, orphan, orphanLive, linked⟩ := place.orphan
    obtain ⟨entered, enters, grown⟩ := place.steps
    obtain ⟨member, live, hash, -⟩ := enters.entered
    obtain ⟨now, nowLive, same⟩ := grown.live enters.links live
    rw [orphanLive] at nowLive
    cases nowLive
    exact .inr ⟨_, entry, orphan, orphanLive, same.hash.trans hash, linked⟩

/-! ## Rule IV -/

omit [DecidableEq Hash] in
theorem relink {nodes : Heap (BlockInfo Hash)} (tracked : Tracked before)
    (relinked : Relinked before.candidatesList.nodes nodes) :
    Tracked { before with candidatesList := { before.candidatesList with nodes } } := by
  refine ⟨tracked.sound.withList ⟨relinked.links _ tracked.sound.links.nodes,
    tracked.sound.links.entries⟩, ⟨fun p q hash first second => ?_, fun p heir inside isBlock => ?_⟩,
    tracked.searchable.transfer (List.Sublist.refl _) fun p entry old oldLive => ?_,
    tracked.rooted, fun p member live header => ?_⟩
  · exact tracked.stored.unique p q hash (relinked.isBlock.1 first) (relinked.isBlock.1 second)
  · exact tracked.stored.apart p heir inside (relinked.isBlock.1 isBlock)
  · obtain ⟨now, nowLive, same⟩ := relinked.live oldLive
    exact ⟨now, nowLive, same.hash⟩
  · obtain ⟨old, oldLive, same⟩ := relinked.origin live
    obtain ⟨entry, linked⟩ := tracked.blocks p old oldLive (same.hdr ▸ header)
    exact ⟨entry, same.parent linked⟩

omit [DecidableEq Hash] in
theorem relink_ignored {nodes : Heap (BlockInfo Hash)} {hash : Hash}
    (relinked : Relinked before.candidatesList.nodes nodes) (ignored : Ignored before hash) :
    Ignored { before with candidatesList := { before.candidatesList with nodes } } hash := by
  rcases ignored with inherited | ⟨p, entry, member, live, same, linked⟩
  · exact .inl inherited
  · obtain ⟨now, nowLive, sameBlock⟩ := relinked.live live
    exact .inr ⟨p, entry, now, nowLive, sameBlock.hash.trans same, sameBlock.parent linked⟩

/-- An only child above the last heir becomes an heir with the first children below him. -/
theorem win {fuel : Nat} {chain : Ptr} {ref : HeirRef} {head : Member (BlockInfo Hash)}
    {heir : BlockchainHeir Hash} (tracked : Tracked before)
    (headLive : before.candidatesList.nodes chain = some head) (arena : ref.arena = before.arena)
    (heirStored : before.heirs[ref.slot]? = some heir) (headHash : heir.hash = head.val.hash)
    (tip : ref.slot = before.height)
    (alone : ∀ successor cell, head.firstChild = some successor →
      before.candidatesList.nodes successor = some cell → cell.nextSibling = none)
    (returns : winRound fuel env before chain ref = .ok after) :
    Tracked after ∧ ∀ hash, Ignored before hash → Ignored after hash := by
  obtain ⟨promoted, reorganised⟩ := winRound_reorganised tracked.sound.indexed
    tracked.sound.length tracked.sound.links arena heirStored headLive returns
  obtain ⟨abandoned, orphans, now, path, heirs, searchRoot, abandons, nowLive, along, -, departure,
    afterEq, -⟩ := winRound_steps tracked.sound.indexed tracked.sound.length tracked.sound.links
      arena heirStored returns
  obtain ⟨-, -, -, -, atTip, -⟩ := blockchainAbandonInheritances_abandoned tracked.sound.indexed
    tracked.sound.length tracked.sound.links arena abandons
  obtain ⟨rfl, rfl⟩ := atTip tip
  rw [headLive] at nowLive
  cases nowLive
  have departed := departure.departed tracked.sound.links
  have settled := departure.settled tracked.sound.links tracked.searchable tracked.rooted alone
  have heirsEq : after.heirs = abandoned.heirs ++ heirs := by rw [afterEq]
  -- an indexed node off the path keeps its entry, unless an heir has its hash
  have keeps : ∀ p member, p ∉ path → p ∈ abandoned.candidatesList.searchRoot →
      abandoned.candidatesList.nodes p = some member → member.val.hash ≠ head.val.hash →
      p ∈ after.candidatesList.searchRoot := by
    intro p member off entry live notHead
    refine departed.kept p entry fun again againLive => ?_
    rw [live] at againLive
    cases againLive
    refine ⟨?_, notHead⟩
    rintro ⟨q, onPath, cell, cellLive, same⟩
    obtain ⟨block, blockLive, header, blockHash⟩ := along.isBlock onPath cellLive
    rw [cellLive] at blockLive
    cases blockLive
    have qEntry := (tracked.blocks q cell cellLive header).1
    exact off (tracked.searchable.distinct q qEntry p entry cell member cellLive live same ▸ onPath)
  constructor
  · refine ⟨reorganised.sound, reorganised.stored tracked.stored, settled.searchable,
      settled.rooted, fun p member live header => ?_⟩
    obtain ⟨off, old, oldLive, same⟩ := departed.origin p member live header
    have oldHeader : old.val.hdr.isSome := same.hdr ▸ header
    obtain ⟨entry, linked⟩ := tracked.blocks p old oldLive oldHeader
    refine ⟨keeps p old off entry oldLive fun clash => ?_, same.parent linked⟩
    exact tracked.stored.apart p heir (List.mem_of_getElem? heirStored)
      ⟨old, oldLive, oldHeader, clash.trans headHash.symm⟩
  · rintro hash (⟨inherited, inside, same⟩ | ⟨p, entry, member, live, same, linked⟩)
    · refine .inl ⟨inherited, ?_, same⟩
      rw [heirsEq]
      exact List.mem_append_left _ inside
    · by_cases onPath : p ∈ path
      · obtain ⟨new, isNew, newHash⟩ := along.heir_of_block onPath (along.isBlock onPath live)
        refine .inl ⟨new, ?_, newHash.trans same⟩
        rw [heirsEq]
        exact List.mem_append_right _ isNew
      · by_cases isHead : member.val.hash = head.val.hash
        · refine .inl ⟨heir, ?_, headHash.trans (isHead.symm.trans same)⟩
          rw [heirsEq]
          exact List.mem_append_left _ (List.mem_of_getElem? heirStored)
        · have notChain : p ≠ chain := by
            rintro rfl
            rw [headLive] at live
            cases live
            exact isHead rfl
          obtain ⟨last, lastLive, sameBlock⟩ := settled.live p member onPath notChain live
          exact .inr ⟨p, keeps p member onPath entry live isHead, last, lastLive,
            sameBlock.hash.trans same, sameBlock.parent linked⟩

end Tracked

/-! ## Calls at the tip -/

/-- If the call lets a chain win the round, the chain competes above the last heir and its first
child has no sibling. -/
def winsAtTip (fuel : Nat) (env : ChainEnv Hash) (blockChain : Blockchain Hash)
    (hdr : SatoshiBlockHeader Hash) : Exec Bool := do
  let placed ← letIn fuel env blockChain hdr
  match placed with
  | none => .ok true
  | some (placed, chain) => do
      let round ← roundOf fuel env { blockChain with candidatesList := placed } chain
      match round with
      | (_, none) => .ok true
      | (state, some ref) => do
          let head ← state.candidatesList.nodes.read chain
          let successor ← Exec.deref head.firstChild
          let cell ← state.candidatesList.nodes.read successor
          .ok (ref.slot = state.height ∧ cell.nextSibling = none)

theorem winsAtTip_inversion {fuel : Nat} {placed : ActiveChainList Hash} {chain : Ptr}
    {state : Blockchain Hash} {ref : HeirRef} {head : Member (BlockInfo Hash)}
    (wins : winsAtTip fuel env before hdr = .ok true)
    (lets : letIn fuel env before hdr = .ok (some (placed, chain)))
    (round : roundOf fuel env { before with candidatesList := placed } chain =
      .ok (state, some ref)) (live : state.candidatesList.nodes chain = some head) :
    ref.slot = state.height ∧ ∀ successor cell, head.firstChild = some successor →
      state.candidatesList.nodes successor = some cell → cell.nextSibling = none := by
  simp only [winsAtTip, lets, round, Heap.read_eq live, Exec.ok_bind, Exec.bind_eq_ok] at wins
  obtain ⟨first, isFirst, only, reads, result⟩ := wins
  have both : ref.slot = state.height ∧ only.nextSibling = none := by simpa using result
  refine ⟨both.1, fun successor cell same cellLive => ?_⟩
  rw [Exec.deref_eq_ok.1 isFirst] at same
  cases same
  rw [Heap.read_eq_ok.1 reads] at cellLive
  cases cellLive
  exact both.2

/-- Such a call forgets no hash, and that of its header is ignored from then on. -/
theorem Tracked.call {fuel : Nat} {blockHash : Option Hash} {rc : Int} (tracked : Tracked before)
    (wins : winsAtTip fuel env before hdr = .ok true)
    (returns : blockchainAdd fuel env before blockHash hdr = .ok (rc, after)) :
    Tracked after ∧ ∀ hash, Ignored before hash ∨ hash = env.hash256 hdr → Ignored after hash := by
  rcases (blockchainAdd_inversion returns).2 with
    ⟨-, rfl, lets⟩ | ⟨-, placed, top, lets, rule⟩
  · refine ⟨tracked, ?_⟩
    rintro hash (ignored | rfl)
    · exact ignored
    · exact ignored_of_letIn lets
  · obtain ⟨dropped, place⟩ := letIn_inversion tracked.sound.links lets
    have placedTracked := tracked.place place (letIn_rooted tracked.sound.links tracked.rooted lets)
    rw [ruleIV_eq, Exec.bind_eq_ok] at rule
    obtain ⟨⟨state, won⟩, round, rule⟩ := rule
    obtain ⟨head, nodes, live, relinked, rfl, winner⟩ := roundOf_inversion round
    have stateTracked := placedTracked.relink relinked
    have stateIgnored : ∀ hash, Ignored before hash ∨ hash = env.hash256 hdr → Ignored _ hash :=
      fun hash ignored => Tracked.relink_ignored relinked (tracked.place_ignored place ignored)
    cases won with
    | none =>
        cases rule
        exact ⟨stateTracked, stateIgnored⟩
    | some ref =>
        obtain ⟨finds, heir, readsHeir⟩ := winner ref rfl
        obtain ⟨arena, heirStored⟩ := heirAt_eq_ok.1 readsHeir
        obtain ⟨found, -, foundStored, foundHash⟩ :=
          heirHash_eq_ok.1 (SearchTree.tfind_some finds).2
        rw [heirStored] at foundStored
        cases foundStored
        obtain ⟨now, nowLive, same⟩ := relinked.live live
        obtain ⟨tip, alone⟩ := winsAtTip_inversion wins lets round nowLive
        obtain ⟨afterTracked, ignores⟩ := stateTracked.win nowLive arena heirStored
          (foundHash.trans same.hash.symm) tip alone rule
        exact ⟨afterTracked, fun hash ignored => ignores hash (stateIgnored hash ignored)⟩

/-- Completed calls one after the other that let a chain win the round at the tip only. -/
inductive TipCalls (env : ChainEnv Hash) (start : Blockchain Hash) :
    List (SatoshiBlockHeader Hash) → Blockchain Hash → Prop
  | nil : TipCalls env start [] start
  | snoc {headers : List (SatoshiBlockHeader Hash)} {before after : Blockchain Hash}
      {hdr : SatoshiBlockHeader Hash} {fuel : Nat} {blockHash : Option Hash} {rc : Int}
      (earlier : TipCalls env start headers before)
      (wins : winsAtTip fuel env before hdr = .ok true)
      (returns : blockchainAdd fuel env before blockHash hdr = .ok (rc, after)) :
      TipCalls env start (headers ++ [hdr]) after

theorem TipCalls.tracked {start : Blockchain Hash} {headers : List (SatoshiBlockHeader Hash)}
    (run : TipCalls env start headers after) (startTracked : Tracked start) :
    Tracked after ∧ ∀ hdr ∈ headers, Ignored after (env.hash256 hdr) := by
  induction run with
  | nil => exact ⟨startTracked, fun hdr inside => absurd inside List.not_mem_nil⟩
  | snoc _ wins returns inductionHypothesis =>
      obtain ⟨tracked, ignored⟩ := inductionHypothesis
      obtain ⟨afterTracked, ignores⟩ := tracked.call wins returns
      refine ⟨afterTracked, fun hdr inside => ignores _ ?_⟩
      rcases List.mem_append.1 inside with earlier | last
      · exact .inl (ignored hdr earlier)
      · rw [List.mem_singleton.1 last]
        exact .inr rfl

/-- Passing first occurrences only reaches the same block chain. -/
theorem TipCalls.firstOccurrences {start : Blockchain Hash}
    {headers : List (SatoshiBlockHeader Hash)} (run : TipCalls env start headers after)
    (startTracked : Tracked start) : TipCalls env start headers.eraseDups after := by
  induction run with
  | nil => exact .nil
  | @snoc headers before after hdr fuel blockHash rc earlier wins returns inductionHypothesis =>
      rw [List.eraseDups_append]
      by_cases again : hdr ∈ headers
      · obtain ⟨tracked, ignored⟩ := earlier.tracked startTracked
        have unchanged := tracked.blockchainAdd_ignored (ignored hdr again) fuel
          (blockchainAdd_inversion returns).1
        rw [returns] at unchanged
        cases unchanged
        have nothing : [hdr].removeAll headers = [] := by simp [List.removeAll, again]
        rw [nothing]
        simpa using inductionHypothesis
      · have new : ([hdr].removeAll headers).eraseDups = [hdr] := by
          simp [List.removeAll, again, List.eraseDups_cons]
        rw [new]
        exact .snoc inductionHypothesis wins returns

/-- Duplicate headers are ignored as long as chains win the round at the tip only, with an only
child: a header that was passed before, or that has the hash of a block or an heir, changes
nothing, and repetitions may be left out. -/
theorem duplicates_ignored {genesisBlockHash : Option Hash}
    {genesisBlockHdr : Option (SatoshiBlockHeader Hash)}
    {headers : List (SatoshiBlockHeader Hash)} {chain : Blockchain Hash}
    (run : TipCalls env (blockchainInit env genesisBlockHash genesisBlockHdr) headers chain) :
    (∀ hdr, hdr ∈ headers ∨ Known chain (env.hash256 hdr) → ∀ fuel blockHash,
      blockHash = none ∨ blockHash = some (env.hash256 hdr) →
        blockchainAdd fuel env chain blockHash hdr = .ok (-1, chain)) ∧
      TipCalls env (blockchainInit env genesisBlockHash genesisBlockHdr) headers.eraseDups
        chain := by
  have start := tracked_blockchainInit env genesisBlockHash genesisBlockHdr
  obtain ⟨tracked, ignored⟩ := run.tracked start
  refine ⟨fun hdr seen fuel blockHash given => ?_, run.firstOccurrences start⟩
  refine tracked.blockchainAdd_ignored ?_ fuel given
  rcases seen with passed | known
  · exact ignored hdr passed
  · exact tracked.ignored known

/-- A block that waits for its parent, the parent, and the block again. -/
theorem duplicates_ignored_again : ∃ chain,
    TipCalls sampleEnv (blockchainInit sampleEnv none none)
      [sampleHdr (.block .genesis 1) 2, sampleHdr .genesis 1, sampleHdr (.block .genesis 1) 2]
      chain ∧
    chain.heirs.length = 3 ∧
    blockchainAdd 1 sampleEnv chain none (sampleHdr .genesis 1) = .ok (-1, chain) := by
  have runs : (do
      let first ← winsAtTip 30 sampleEnv (blockchainInit sampleEnv none none)
        (sampleHdr (.block .genesis 1) 2)
      let (_, waiting) ← blockchainAdd 30 sampleEnv (blockchainInit sampleEnv none none) none
        (sampleHdr (.block .genesis 1) 2)
      let second ← winsAtTip 30 sampleEnv waiting (sampleHdr .genesis 1)
      let (_, joined) ← blockchainAdd 30 sampleEnv waiting none (sampleHdr .genesis 1)
      let third ← winsAtTip 30 sampleEnv joined (sampleHdr (.block .genesis 1) 2)
      let (_, after) ← blockchainAdd 30 sampleEnv joined none (sampleHdr (.block .genesis 1) 2)
      .ok ((first, second, third), after.heirs.length)) =
        (.ok ((true, true, true), 3) : Exec ((Bool × Bool × Bool) × Nat)) := by
    decide +kernel
  simp only [Exec.bind_eq_ok] at runs
  obtain ⟨first, wins, ⟨_, waiting⟩, adds, second, winsAgain, ⟨_, joined⟩, addsAgain, third,
    winsLast, ⟨_, after⟩, addsLast, result⟩ := runs
  simp only [Exec.ok.injEq, Prod.mk.injEq] at result
  obtain ⟨⟨rfl, rfl, rfl⟩, length⟩ := result
  have run : TipCalls sampleEnv (blockchainInit sampleEnv none none)
      [sampleHdr (.block .genesis 1) 2, sampleHdr .genesis 1, sampleHdr (.block .genesis 1) 2]
      after :=
    .snoc (.snoc (.snoc .nil wins adds) winsAgain addsAgain) winsLast addsLast
  exact ⟨after, run, length, (duplicates_ignored run).1 _ (.inl (by simp)) 1 none (.inl rfl)⟩

/-- After the second branch of a fork replaced the first, the block of the first branch is not
recognised any more: its node has no parent. -/
theorem duplicates_notIgnored : ∃ calls chain,
    Calls sampleEnv (blockchainInit sampleEnv none none) calls chain ∧
    (sampleHdr .genesis 1, 0) ∈ calls ∧
    ∀ fuel, blockchainAdd fuel sampleEnv chain none (sampleHdr .genesis 1) ≠ .ok (-1, chain) := by
  have runs : (do
      let (calls, chain) ← addHeaders 30 sampleEnv (blockchainInit sampleEnv none none) sampleFork
      let heir ← blockchainFind chain (.block .genesis 1)
      let found ← activeChainListFind chain.candidatesList (.block .genesis 1)
      let orphan ← Exec.deref found
      let cell ← chain.candidatesList.nodes.read orphan
      .ok (calls, heir, cell.parent)) =
        (.ok (sampleFork.map (·, 0), none, none) :
          Exec (List (SatoshiBlockHeader SampleHash × Int) × Option HeirRef × Option Ptr)) := by
    decide +kernel
  simp only [Exec.bind_eq_ok] at runs
  obtain ⟨⟨calls, chain⟩, adds, heir, findsHeir, found, finds, orphan, points, cell, reads,
    result⟩ := runs
  simp only [Exec.ok.injEq, Prod.mk.injEq] at result
  obtain ⟨rfl, rfl, noParent⟩ := result
  refine ⟨_, chain, calls_of_addHeaders adds, List.mem_cons_self, fun fuel returns => ?_⟩
  rcases (blockchainAdd_inversion returns).2 with ⟨-, -, ignores⟩ | ⟨accepted, -⟩
  · rw [Exec.deref_eq_ok.1 points] at finds
    have hash : sampleEnv.hash256 (sampleHdr .genesis 1) = .block .genesis 1 := rfl
    simp only [letIn, hash, findsHeir, finds, reads, noParent, Exec.ok_bind, Option.isSome_none,
      Bool.false_eq_true, if_false, Exec.bind_eq_ok] at ignores
    obtain ⟨claimed, -, placed, -, ignores⟩ := ignores
    cases ignores
  · cases accepted

end BitcoinClib.Chains
