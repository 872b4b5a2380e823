import BitcoinClib.Chains.Reorganise

/-!
Contract: completed calls of `blockchain_add` and sequences of them.

Owns:
- `Sound`, what every state between two calls satisfies;
- `letIn` and `roundOf`, the two halves of a call up to the branch of the winner;
- `Placed`, the outcome of Rules 0 to III for a header that is not ignored;
- what Rule IV and a whole call do to a sound block chain;
- `Calls`, a sequence of completed calls with fewer heirs than the preallocated capacity.
-/

namespace BitcoinClib.Chains

open BitcoinClib.Lib

variable {Hash : Type} [DecidableEq Hash]

/-- The index points to the heirs, `height` counts them, and addresses in use are below the
next one. -/
structure Sound (chain : Blockchain Hash) : Prop where
  indexed : HeirsIndexed chain
  length : chain.heirs.length = chain.height + 1
  links : chain.candidatesList.Links

omit [DecidableEq Hash] in
/-- The list of chains is replaced. -/
theorem Sound.withList {chain : Blockchain Hash} (sound : Sound chain)
    {list : ActiveChainList Hash} (links : list.Links) :
    Sound { chain with candidatesList := list } :=
  ⟨⟨sound.indexed.index, sound.indexed.distinct⟩, sound.length, links⟩

omit [DecidableEq Hash] in
theorem Reorganised.sound {slot : Nat} {promoted : List (BlockchainHeir Hash)}
    {before after : Blockchain Hash} (reorganised : Reorganised slot promoted before after) :
    Sound after :=
  ⟨reorganised.indexed, reorganised.length, reorganised.links⟩

omit [DecidableEq Hash] in
theorem sound_blockchainInit (env : ChainEnv Hash) (genesisBlockHash : Option Hash)
    (genesisBlockHdr : Option (SatoshiBlockHeader Hash)) :
    Sound (blockchainInit env genesisBlockHash genesisBlockHdr) where
  indexed := ⟨List.Perm.refl _, List.nodup_singleton _⟩
  length := rfl
  links := by
    refine ⟨fun p member live => ?_, fun p entry => absurd entry List.not_mem_nil⟩
    cases live

/-! ## The two halves of a call -/

/-- Rules 0 to III of `blockchain_add`: nothing where the header is ignored, and the list with
the chain of the new block otherwise. -/
def letIn (fuel : Nat) (env : ChainEnv Hash) (blockChain : Blockchain Hash)
    (hdr : SatoshiBlockHeader Hash) : Exec (Option (ActiveChainList Hash × Ptr)) := do
  let hash := env.hash256 hdr
  let heir ← blockchainFind blockChain hash
  match heir with
  | some _ => .ok none
  | none => do
      let list := blockChain.candidatesList
      let found ← activeChainListFind list hash
      match found with
      | some orphan => do
          let cell ← list.nodes.read orphan
          if cell.parent.isSome then .ok none
          else do
            let claimed ← chainSubRules fuel env list orphan hash hdr
            let placed ← placeOrphan fuel env claimed list.next hdr
            .ok (some placed)
      | none => do
          let placed ← placeOrphan fuel env (newOrphan env list hash hdr) list.next hdr
          .ok (some placed)

/-- Rule IV of `blockchain_add` up to its branch: the block chain with the difficulties of the
chain, and the heir above whom the chain wins the round, if it does. -/
def roundOf (fuel : Nat) (env : ChainEnv Hash) (blockChain : Blockchain Hash) (chain : Ptr) :
    Exec (Blockchain Hash × Option HeirRef) := do
  let list := blockChain.candidatesList
  let head ← list.nodes.read chain
  let found ← blockchainFind blockChain head.val.hash
  match found with
  | none => .ok (blockChain, none)
  | some ref => do
      let heir ← blockChain.heirAt ref
      let nodes ← updateFirstChildCumulativeDifficulty env fuel list.nodes head.firstChild
        heir.cumulativeDifficulty
      let current ← blockChain.heirAt ⟨blockChain.arena, blockChain.height⟩
      let fields ← Exec.deref (list.activeChains chain)
      let longestEnd ← Exec.deref fields.longestEnd
      let cell ← nodes.read longestEnd
      let blockChain := { blockChain with candidatesList := { list with nodes } }
      .ok (blockChain,
        if current.cumulativeDifficulty < cell.val.cumulativeDifficulty then some ref else none)

variable {fuel : Nat} {env : ChainEnv Hash} {before after : Blockchain Hash} {chain : Ptr}

/-- `blockchain_add` as its two halves. -/
theorem blockchainAdd_eq (blockHash : Option Hash) (hdr : SatoshiBlockHeader Hash) :
    blockchainAdd fuel env before blockHash hdr = (do
      Exec.assert (blockHash = none ∨ blockHash = some (env.hash256 hdr))
      let placed ← letIn fuel env before hdr
      match placed with
      | none => .ok (-1, before)
      | some (placed, chain) => do
          let after ← ruleIV fuel env { before with candidatesList := placed } chain
          .ok (0, after)) := by
  simp only [blockchainAdd, letIn, bind_assoc]
  refine bind_congr fun _ => bind_congr fun heir => ?_
  cases heir with
  | some _ => rfl
  | none =>
      simp only [addOrphan, bind_assoc]
      refine bind_congr fun found => ?_
      cases found with
      | none => simp only [bind_assoc, Exec.ok_bind]
      | some orphan =>
          simp only [bind_assoc]
          refine bind_congr fun cell => ?_
          by_cases linked : cell.parent.isSome
          · simp only [if_pos linked, Exec.ok_bind]
          · simp only [if_neg linked, bind_assoc, Exec.ok_bind]

/-- Rule IV as a round and what the winner does. -/
theorem ruleIV_eq : ruleIV fuel env before chain = (do
    let (state, won) ← roundOf fuel env before chain
    match won with
    | none => .ok state
    | some ref => winRound fuel env state chain ref) := by
  unfold ruleIV roundOf
  simp only [bind_assoc]
  refine bind_congr fun head => bind_congr fun found => ?_
  cases found with
  | none => rfl
  | some ref =>
      simp only [bind_assoc, Exec.ok_bind]
      refine bind_congr fun heir => bind_congr fun nodes => bind_congr fun current =>
        bind_congr fun fields => bind_congr fun longestEnd => bind_congr fun cell => ?_
      split <;> rfl

/-- A round relinks the nodes of the chain. Its winner competes above an heir with the hash of
the head. -/
theorem roundOf_inversion {state : Blockchain Hash} {won : Option HeirRef}
    (returns : roundOf fuel env before chain = .ok (state, won)) :
    ∃ head nodes,
      before.candidatesList.nodes chain = some head ∧
      Relinked before.candidatesList.nodes nodes ∧
      state = { before with candidatesList := { before.candidatesList with nodes } } ∧
      ∀ ref, won = some ref → blockchainFind before head.val.hash = .ok (some ref) ∧
        ∃ heir, before.heirAt ref = .ok heir := by
  simp only [roundOf, Exec.bind_eq_ok] at returns
  obtain ⟨head, reads, found, finds, returns⟩ := returns
  have live := Heap.read_eq_ok.1 reads
  cases found with
  | none =>
      cases returns
      exact ⟨head, _, live, .refl _, rfl, fun _ impossible => nomatch impossible⟩
  | some ref =>
      simp only [Exec.bind_eq_ok] at returns
      obtain ⟨heir, readsHeir, nodes, updates, current, -, fields, -, longestEnd, -, cell, -,
        returns⟩ := returns
      cases returns
      refine ⟨head, nodes, live, updateFirstChild_relinked updates, rfl, fun winner wins => ?_⟩
      split at wins
      · cases wins
        exact ⟨finds, heir, readsHeir⟩
      · cases wins

/-! ## One call -/

/-- Rules 0 to III let the header of a new block in. `dropped` holds of the head of the chain
whose missing block arrived, if there was one. -/
structure Placed (env : ChainEnv Hash) (hdr : SatoshiBlockHeader Hash) (before : Blockchain Hash)
    (dropped : Ptr → Prop) (placed : ActiveChainList Hash) : Prop where
  noHeir : blockchainFind before (env.hash256 hdr) = .ok none
  head : ∀ p, dropped p → ∃ cell, before.candidatesList.nodes p = some cell ∧
    p ∈ before.candidatesList.searchRoot ∧ cell.val.hash = env.hash256 hdr ∧ cell.parent = none
  noEntry : (∀ p, ¬ dropped p) →
    activeChainListFind before.candidatesList (env.hash256 hdr) = .ok none
  steps : ∃ entered,
    Entered (env.hash256 hdr) hdr dropped before.candidatesList entered ∧ Grown entered placed
  orphan : before.candidatesList.next ∈ placed.searchRoot ∧
    ∃ member, placed.nodes before.candidatesList.next = some member ∧ member.parent.isSome

/-- A header that is let in belongs to a new node, which may be the missing parent of a chain. -/
theorem letIn_steps {hdr : SatoshiBlockHeader Hash} {placed : ActiveChainList Hash}
    (returns : letIn fuel env before hdr = .ok (some (placed, chain))) :
    ∃ entered,
      blockchainFind before (env.hash256 hdr) = .ok none ∧
      (activeChainListFind before.candidatesList (env.hash256 hdr) = .ok none ∧
          entered = newOrphan env before.candidatesList (env.hash256 hdr) hdr ∨
        ∃ head cell, before.candidatesList.nodes head = some cell ∧
          head ∈ before.candidatesList.searchRoot ∧ cell.val.hash = env.hash256 hdr ∧
          cell.parent = none ∧
          chainSubRules fuel env before.candidatesList head (env.hash256 hdr) hdr = .ok entered) ∧
      placeOrphan fuel env entered before.candidatesList.next hdr = .ok (placed, chain) := by
  simp only [letIn, Exec.bind_eq_ok] at returns
  obtain ⟨heir, findsHeir, returns⟩ := returns
  cases heir with
  | some ref => cases returns
  | none =>
      simp only [Exec.bind_eq_ok] at returns
      obtain ⟨found, finds, returns⟩ := returns
      cases found with
      | none =>
          simp only [Exec.bind_eq_ok] at returns
          obtain ⟨⟨list, top⟩, places, returns⟩ := returns
          cases returns
          exact ⟨_, findsHeir, .inl ⟨finds, rfl⟩, places⟩
      | some head =>
          simp only [Exec.bind_eq_ok] at returns
          obtain ⟨cell, reads, returns⟩ := returns
          by_cases linked : cell.parent.isSome
          · rw [if_pos linked] at returns
            cases returns
          · simp only [if_neg linked, Exec.bind_eq_ok] at returns
            obtain ⟨claimed, claims, ⟨list, top⟩, places, returns⟩ := returns
            cases returns
            have live := Heap.read_eq_ok.1 reads
            obtain ⟨entry, hashes⟩ := SearchTree.tfind_some finds
            obtain ⟨again, againLive, headHash⟩ := nodeHash_eq_ok.1 hashes
            rw [live] at againLive
            cases againLive
            exact ⟨_, findsHeir, .inr ⟨head, cell, live, entry, headHash, by simpa using linked,
              claims⟩, places⟩

/-- What letting a header in does to the list. -/
theorem letIn_inversion {hdr : SatoshiBlockHeader Hash} {placed : ActiveChainList Hash}
    (links : before.candidatesList.Links)
    (returns : letIn fuel env before hdr = .ok (some (placed, chain))) :
    ∃ dropped, Placed env hdr before dropped placed := by
  obtain ⟨entered, noHeir, ⟨noEntry, rfl⟩ | ⟨head, cell, live, entry, headHash, noParent, claims⟩,
    places⟩ := letIn_steps returns
  · have enters : Entered (env.hash256 hdr) hdr (fun _ => False) before.candidatesList
        (newOrphan env before.candidatesList (env.hash256 hdr) hdr) :=
      newOrphan_entered links
    obtain ⟨grown, orphan⟩ := placeOrphan_grown enters.links places
    exact ⟨fun _ => False, noHeir, fun p impossible => impossible.elim, fun _ => noEntry,
      ⟨_, enters, grown⟩, orphan⟩
  · have enters := chainSubRules_entered links live headHash claims
    obtain ⟨grown, orphan⟩ := placeOrphan_grown enters.links places
    refine ⟨(· = head), noHeir, ?_, fun notDropped => absurd rfl (notDropped head),
      ⟨_, enters, grown⟩, orphan⟩
    rintro p rfl
    exact ⟨cell, live, entry, headHash, noParent⟩

/-- A completed call ignores the header, or lets it in and applies Rule IV. -/
theorem blockchainAdd_inversion {blockHash : Option Hash} {hdr : SatoshiBlockHeader Hash}
    {rc : Int} (returns : blockchainAdd fuel env before blockHash hdr = .ok (rc, after)) :
    (blockHash = none ∨ blockHash = some (env.hash256 hdr)) ∧
      (rc = -1 ∧ after = before ∧ letIn fuel env before hdr = .ok none ∨
        rc = 0 ∧ ∃ placed top, letIn fuel env before hdr = .ok (some (placed, top)) ∧
          ruleIV fuel env { before with candidatesList := placed } top = .ok after) := by
  rw [blockchainAdd_eq] at returns
  simp only [Exec.bind_eq_ok] at returns
  obtain ⟨_, asserts, outcome, lets, returns⟩ := returns
  refine ⟨Exec.assert_eq_ok.1 asserts, ?_⟩
  cases outcome with
  | none =>
      cases returns
      exact .inl ⟨rfl, rfl, lets⟩
  | some placed =>
      simp only [Exec.bind_eq_ok] at returns
      obtain ⟨final, rule, returns⟩ := returns
      cases returns
      exact .inr ⟨rfl, placed.1, placed.2, lets, rule⟩

/-- The heirs and the callbacks of a block chain before and after a call. -/
inductive HeirsStep (before after : Blockchain Hash) : Prop
  | same (heirs : after.heirs = before.heirs) (callbacks : after.callbacks = before.callbacks)
  | reorganised (slot : Nat) (promoted : List (BlockchainHeir Hash))
      (inside : slot < before.heirs.length)
      (heirs : after.heirs = before.heirs.take (slot + 1) ++ promoted)
      (callbacks : after.callbacks = before.callbacks ++
        (removals (before.heirs.drop (slot + 1)) (slot + 1) ++ additions promoted (slot + 1)))

/-- Rule IV keeps a block chain sound. -/
theorem ruleIV_step (sound : Sound before)
    (returns : ruleIV fuel env before chain = .ok after) :
    Sound after ∧ HeirsStep before after ∧
      (Stored before → Stored after ∧ (after.heirs = before.heirs →
        after.callbacks = before.callbacks)) ∧
      ∀ hash, Known after hash → Known before hash := by
  rw [ruleIV_eq, Exec.bind_eq_ok] at returns
  obtain ⟨⟨state, won⟩, round, returns⟩ := returns
  obtain ⟨head, nodes, live, relinked, rfl, winner⟩ := roundOf_inversion round
  have middle : Sound { before with
      candidatesList := { before.candidatesList with nodes } } :=
    sound.withList ⟨relinked.links _ sound.links.nodes, sound.links.entries⟩
  have stored : Stored before →
      Stored { before with candidatesList := { before.candidatesList with nodes } } :=
    fun stored => ⟨fun p q hash first second =>
      stored.unique p q hash (relinked.isBlock.1 first) (relinked.isBlock.1 second),
      fun p heir inside isBlock => stored.apart p heir inside (relinked.isBlock.1 isBlock)⟩
  have known : ∀ hash,
      Known { before with candidatesList := { before.candidatesList with nodes } } hash →
        Known before hash := by
    rintro hash (⟨p, isBlock⟩ | inherited)
    · exact .inl ⟨p, relinked.isBlock.1 isBlock⟩
    · exact .inr inherited
  cases won with
  | none =>
    cases returns
    exact ⟨middle, .same rfl rfl, fun whole => ⟨stored whole, fun _ => rfl⟩, known⟩
  | some ref =>
    obtain ⟨-, heir, readsHeir⟩ := winner ref rfl
    obtain ⟨arena, heirStored⟩ := heirAt_eq_ok.1 readsHeir
    obtain ⟨now, nowLive, -⟩ := relinked.live live
    obtain ⟨promoted, reorganised⟩ := winRound_reorganised middle.indexed middle.length
      middle.links arena heirStored nowLive returns
    refine ⟨reorganised.sound, .reorganised ref.slot promoted
      (List.getElem?_eq_some_iff.1 heirStored).1 reorganised.heirs reorganised.callbacks,
      fun whole => ⟨reorganised.stored (stored whole), fun same => ?_⟩,
      fun hash isKnown => known hash (reorganised.known hash isKnown)⟩
    -- a promoted block was in the list, so his hash is new among the heirs
    obtain ⟨entered, inside, p, isBlock⟩ := reorganised.entered
    have isHeir : entered ∈ before.heirs := by
      rw [← same, reorganised.heirs]
      exact List.mem_append_right _ inside
    exact absurd isBlock ((stored whole).apart p entered isHeir)

namespace Placed

variable {hdr : SatoshiBlockHeader Hash} {dropped : Ptr → Prop} {placed : ActiveChainList Hash}

theorem links (place : Placed env hdr before dropped placed) : placed.Links := by
  obtain ⟨entered, -, grown⟩ := place.steps
  exact grown.links

/-- A block is the new one or was there before. -/
theorem isBlock (place : Placed env hdr before dropped placed) {p : Ptr} {hash : Hash}
    (isBlock : IsBlock placed.nodes p hash) :
    p = before.candidatesList.next ∧ hash = env.hash256 hdr ∨
      IsBlock before.candidatesList.nodes p hash := by
  obtain ⟨entered, enters, grown⟩ := place.steps
  obtain ⟨member, live, header, rfl⟩ := isBlock
  obtain ⟨old, oldLive, same⟩ := grown.origin live header
  by_cases new : p = before.candidatesList.next
  · obtain ⟨stored, storedLive, storedHash, -⟩ := enters.entered
    rw [new, storedLive] at oldLive
    cases oldLive
    exact .inl ⟨new, same.hash.trans storedHash⟩
  · obtain ⟨first, firstLive, firstSame⟩ := enters.origin p old new oldLive
    refine .inr ⟨first, firstLive, ?_, (same.hash.trans firstSame.hash).symm⟩
    rw [← firstSame.hdr, ← same.hdr]
    exact header

/-- A hash that no block had may enter. -/
theorem stored (place : Placed env hdr before dropped placed) (indexed : HeirsIndexed before)
    (stored : Stored before)
    (fresh : ∀ p, ¬ IsBlock before.candidatesList.nodes p (env.hash256 hdr)) :
    Stored { before with candidatesList := placed } := by
  constructor
  · intro p q hash first second
    rcases place.isBlock first with ⟨pNew, rfl⟩ | pOld
    · rcases place.isBlock second with ⟨qNew, -⟩ | qOld
      · rw [pNew, qNew]
      · exact absurd qOld (fresh q)
    · rcases place.isBlock second with ⟨-, rfl⟩ | qOld
      · exact absurd pOld (fresh p)
      · exact stored.unique p q hash pOld qOld
  · intro p heir inside isBlock
    rcases place.isBlock isBlock with ⟨-, same⟩ | old
    · exact indexed.find_eq_none place.noHeir heir inside same
    · exact stored.apart p heir inside old

theorem known (place : Placed env hdr before dropped placed) {hash : Hash}
    (isKnown : Known { before with candidatesList := placed } hash) :
    Known before hash ∨ hash = env.hash256 hdr := by
  rcases isKnown with ⟨p, isBlock⟩ | inherited
  · rcases place.isBlock isBlock with ⟨-, same⟩ | old
    · exact .inr same
    · exact .inl (.inl ⟨p, old⟩)
  · exact .inl (.inr inherited)

end Placed

/-- A completed call keeps a block chain sound. -/
theorem blockchainAdd_step {blockHash : Option Hash} {hdr : SatoshiBlockHeader Hash} {rc : Int}
    (sound : Sound before)
    (returns : blockchainAdd fuel env before blockHash hdr = .ok (rc, after)) :
    Sound after ∧ HeirsStep before after := by
  rcases (blockchainAdd_inversion returns).2 with
    ⟨-, rfl, -⟩ | ⟨-, placed, top, lets, rule⟩
  · exact ⟨sound, .same rfl rfl⟩
  · obtain ⟨dropped, place⟩ := letIn_inversion sound.links lets
    obtain ⟨afterSound, step, -⟩ := ruleIV_step (sound.withList place.links) rule
    refine ⟨afterSound, ?_⟩
    cases step with
    | same heirs callbacks => exact .same heirs callbacks
    | reorganised slot promoted inside heirs callbacks =>
        exact .reorganised slot promoted inside heirs callbacks

/-- A completed call keeps the hashes of blocks and heirs apart, unless it lets in a header
whose hash a block has. -/
theorem blockchainAdd_stored {blockHash : Option Hash} {hdr : SatoshiBlockHeader Hash}
    {rc : Int} (sound : Sound before) (stored : Stored before)
    (fresh : rc = 0 → ∀ p, ¬ IsBlock before.candidatesList.nodes p (env.hash256 hdr))
    (returns : blockchainAdd fuel env before blockHash hdr = .ok (rc, after)) :
    Stored after ∧ (after.heirs = before.heirs → after.callbacks = before.callbacks) ∧
      ∀ hash, Known after hash → Known before hash ∨ rc = 0 ∧ hash = env.hash256 hdr := by
  rcases (blockchainAdd_inversion returns).2 with
    ⟨-, rfl, -⟩ | ⟨accepted, placed, top, lets, rule⟩
  · exact ⟨stored, fun _ => rfl, fun _ => .inl⟩
  · obtain ⟨dropped, place⟩ := letIn_inversion sound.links lets
    obtain ⟨-, -, whole, known⟩ := ruleIV_step (sound.withList place.links) rule
    obtain ⟨afterStored, unchanged⟩ := whole (place.stored sound.indexed stored (fresh accepted))
    refine ⟨afterStored, unchanged, fun hash isKnown => ?_⟩
    rcases place.known (known hash isKnown) with old | same
    · exact .inl old
    · exact .inr ⟨accepted, same⟩

/-! ## Sequences of calls -/

/-- A call that returns, with enough fuel and with the hash of the header or with NULL. -/
def Completes (env : ChainEnv Hash) (before : Blockchain Hash) (hdr : SatoshiBlockHeader Hash)
    (rc : Int) (after : Blockchain Hash) : Prop :=
  ∃ fuel blockHash, blockchainAdd fuel env before blockHash hdr = .ok (rc, after)

/-- A completed call before which there are fewer heirs than the preallocated capacity. -/
structure Call (env : ChainEnv Hash) (before : Blockchain Hash) (hdr : SatoshiBlockHeader Hash)
    (rc : Int) (after : Blockchain Hash) : Prop where
  fewer : before.heirs.length < blockchainDefaultAllocSize
  completes : Completes env before hdr rc after

/-- Completed calls one after the other, with their headers and results. -/
inductive Calls (env : ChainEnv Hash) (start : Blockchain Hash) :
    List (SatoshiBlockHeader Hash × Int) → Blockchain Hash → Prop
  | nil : Calls env start [] start
  | snoc {calls : List (SatoshiBlockHeader Hash × Int)} {before after : Blockchain Hash}
      {hdr : SatoshiBlockHeader Hash} {rc : Int} (earlier : Calls env start calls before)
      (call : Call env before hdr rc after) :
      Calls env start (calls ++ [(hdr, rc)]) after

/-- The hashes of the headers that were let in. -/
def acceptedHashes (env : ChainEnv Hash) (calls : List (SatoshiBlockHeader Hash × Int)) :
    List Hash :=
  (calls.filter (·.2 = 0)).map fun call => env.hash256 call.1

theorem Calls.sound {start : Blockchain Hash} {calls : List (SatoshiBlockHeader Hash × Int)}
    (run : Calls env start calls after) (startSound : Sound start) : Sound after := by
  induction run with
  | nil => exact startSound
  | snoc _ call inductionHypothesis =>
      obtain ⟨fuel, blockHash, returns⟩ := call.completes
      exact (blockchainAdd_step inductionHypothesis returns).1

omit [DecidableEq Hash] in
theorem acceptedHashes_concat (calls : List (SatoshiBlockHeader Hash × Int))
    (hdr : SatoshiBlockHeader Hash) (rc : Int) :
    acceptedHashes env (calls ++ [(hdr, rc)]) =
      acceptedHashes env calls ++ if rc = 0 then [env.hash256 hdr] else [] := by
  by_cases accepted : rc = 0 <;> simp [acceptedHashes, accepted]

omit [DecidableEq Hash] in
/-- The genesis block stays. -/
theorem HeirsStep.first (step : HeirsStep before after) : after.heirs[0]? = before.heirs[0]? := by
  cases step with
  | same heirs _ => rw [heirs]
  | reorganised slot promoted inside heirs _ =>
      have length : 0 < (before.heirs.take (slot + 1)).length := by
        rw [List.length_take]
        omega
      rw [heirs, List.getElem?_append_left length, List.getElem?_take_of_lt (Nat.succ_pos _)]

theorem Calls.first {start : Blockchain Hash} {calls : List (SatoshiBlockHeader Hash × Int)}
    (run : Calls env start calls after) (startSound : Sound start) :
    after.heirs[0]? = start.heirs[0]? := by
  induction run with
  | nil => rfl
  | snoc earlier call inductionHypothesis =>
      obtain ⟨fuel, blockHash, returns⟩ := call.completes
      have step := (blockchainAdd_step (earlier.sound startSound) returns).2
      exact step.first.trans inductionHypothesis

omit [DecidableEq Hash] in
/-- The block chain `blockchain_init` returns has no blocks, and one heir. -/
theorem known_blockchainInit {genesisBlockHash : Option Hash}
    {genesisBlockHdr : Option (SatoshiBlockHeader Hash)} {hash : Hash}
    (isKnown : Known (blockchainInit env genesisBlockHash genesisBlockHdr) hash) :
    hash = genesisBlockHash.getD env.genesisBlockHash := by
  rcases isKnown with ⟨p, member, live, -⟩ | ⟨heir, inside, same⟩
  · cases live
  · cases List.mem_singleton.1 inside
    exact same.symm

/-- A hash that was not accepted before, and is accepted, has no block. -/
theorem Calls.fresh {genesisBlockHash : Option Hash}
    {genesisBlockHdr : Option (SatoshiBlockHeader Hash)}
    {calls : List (SatoshiBlockHeader Hash × Int)} {hdr : SatoshiBlockHeader Hash} {rc : Int}
    (run : Calls env (blockchainInit env genesisBlockHash genesisBlockHdr) calls before)
    (stored : Stored before)
    (known : ∀ hash, Known before hash →
      hash = genesisBlockHash.getD env.genesisBlockHash ∨ hash ∈ acceptedHashes env calls)
    (distinct : (acceptedHashes env (calls ++ [(hdr, rc)])).Nodup) (accepted : rc = 0) (p : Ptr) :
    ¬ IsBlock before.candidatesList.nodes p (env.hash256 hdr) := by
  intro isBlock
  rw [acceptedHashes_concat, if_pos accepted, List.nodup_append] at distinct
  rcases known _ (.inl ⟨p, isBlock⟩) with genesis | seen
  · have first := run.first (sound_blockchainInit _ _ _)
    exact stored.apart p _ (List.mem_of_getElem? first) (genesis ▸ isBlock)
  · exact distinct.2.2 _ seen (env.hash256 hdr) (List.mem_singleton_self _) rfl

/-- Where no hash is accepted twice, the hashes of blocks and heirs stay apart, and they are
the accepted ones and that of the genesis block. -/
theorem Calls.stored {genesisBlockHash : Option Hash}
    {genesisBlockHdr : Option (SatoshiBlockHeader Hash)}
    {calls : List (SatoshiBlockHeader Hash × Int)}
    (run : Calls env (blockchainInit env genesisBlockHash genesisBlockHdr) calls after)
    (distinct : (acceptedHashes env calls).Nodup) :
    Stored after ∧ ∀ hash, Known after hash →
      hash = genesisBlockHash.getD env.genesisBlockHash ∨ hash ∈ acceptedHashes env calls := by
  induction run with
  | nil =>
      refine ⟨⟨?_, ?_⟩, fun hash isKnown => .inl (known_blockchainInit isKnown)⟩
      · rintro p q hash ⟨member, live, -⟩
        cases live
      · rintro p heir inside ⟨member, live, -⟩
        cases live
  | @snoc calls before after hdr rc earlier call inductionHypothesis =>
      obtain ⟨fuel, blockHash, returns⟩ := call.completes
      have whole := distinct
      rw [acceptedHashes_concat, List.nodup_append] at distinct
      obtain ⟨stored, known⟩ := inductionHypothesis distinct.1
      have sound := earlier.sound (sound_blockchainInit _ _ _)
      obtain ⟨afterStored, -, afterKnown⟩ :=
        blockchainAdd_stored sound stored (earlier.fresh stored known whole) returns
      refine ⟨afterStored, fun hash isKnown => ?_⟩
      rw [acceptedHashes_concat, List.mem_append]
      rcases afterKnown hash isKnown with old | ⟨accepted, same⟩
      · rcases known hash old with genesis | seen
        · exact .inl genesis
        · exact .inr (.inl seen)
      · exact .inr (.inr (by simp [accepted, same]))

/-! ## Runs -/

/-- Headers passed to `blockchain_add` one after the other, without their hashes and while there
is room for heirs; the calls and the block chain behind them. -/
def addHeaders (fuel : Nat) (env : ChainEnv Hash) (chain : Blockchain Hash) :
    List (SatoshiBlockHeader Hash) →
      Exec (List (SatoshiBlockHeader Hash × Int) × Blockchain Hash)
  | [] => .ok ([], chain)
  | hdr :: rest =>
      if chain.heirs.length < blockchainDefaultAllocSize then do
        let (rc, chain) ← blockchainAdd fuel env chain none hdr
        let (calls, chain) ← addHeaders fuel env chain rest
        .ok ((hdr, rc) :: calls, chain)
      else .fault .bounds

theorem Calls.append {start middle : Blockchain Hash}
    {first second : List (SatoshiBlockHeader Hash × Int)} (left : Calls env start first middle)
    (right : Calls env middle second after) : Calls env start (first ++ second) after := by
  induction right with
  | nil =>
      rw [List.append_nil]
      exact left
  | snoc _ call inductionHypothesis =>
      rw [← List.append_assoc]
      exact .snoc inductionHypothesis call

theorem calls_of_addHeaders {headers : List (SatoshiBlockHeader Hash)}
    {calls : List (SatoshiBlockHeader Hash × Int)}
    (returns : addHeaders fuel env before headers = .ok (calls, after)) :
    Calls env before calls after := by
  induction headers generalizing before calls with
  | nil =>
      cases returns
      exact .nil
  | cons hdr rest inductionHypothesis =>
      rw [addHeaders] at returns
      split at returns
      next fewer =>
        simp only [Exec.bind_eq_ok] at returns
        obtain ⟨⟨rc, next⟩, adds, ⟨others, last⟩, continues, returns⟩ := returns
        cases returns
        have first : Calls env before [(hdr, rc)] next := .snoc .nil ⟨fewer, fuel, none, adds⟩
        exact first.append (inductionHypothesis continues)
      next => cases returns

/-- Hashes that grow with the chain: that of the previous block and the nonce. -/
inductive SampleHash where
  | zero
  | genesis
  | block (prevHash : SampleHash) (nonce : Nat)
deriving DecidableEq

/-- A hash without collisions between headers with different nonces or previous blocks, and a
difficulty of 1 for zeroed bits. -/
def sampleEnv : ChainEnv SampleHash where
  zeroHash := .zero
  hash256 hdr := .block hdr.prevHash hdr.nonce.toNat
  compactUint256ToBdiff bits := bits.toNat + 1
  genesisBlockHash := .genesis
  genesisBlockHdr := ⟨1, .zero, .zero, 0, 0, 0⟩

/-- A header with zeroed bits. -/
def sampleHdr (prevHash : SampleHash) (nonce : UInt32) : SatoshiBlockHeader SampleHash :=
  ⟨1, prevHash, .zero, 0, 0, nonce⟩

/-- Two branches above the genesis block: the first has one block, the second two. -/
def sampleFork : List (SatoshiBlockHeader SampleHash) :=
  [sampleHdr .genesis 1, sampleHdr .genesis 2, sampleHdr (.block .genesis 2) 3]

end BitcoinClib.Chains
