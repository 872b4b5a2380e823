import BitcoinClib.Chains.Switch

/-!
Contract: heirs beyond the capacity of the array.

Owns:
- `blockchainRealloc`, the growth with the answer of `realloc`, and `add_heir` and
  `blockchain_add_inheritances` over it;
- what the loop of a promotion does with an array that has room;
- that no add beyond the capacity preserves the chain.

A promotion asks for the size with the height it started from, so it grows the array at most
once, before its first heir.
-/

namespace BitcoinClib.Chains

open BitcoinClib.Lib

variable {Hash : Type} [DecidableEq Hash]

/-! ## The array and `realloc` -/

/-- `blockchain_resize`; `stays` tells for each capacity whether `realloc` extends the
allocation where it is. -/
def blockchainRealloc (stays : Nat → Bool) (env : ChainEnv Hash) (chain : Blockchain Hash)
    (size : Nat) : Blockchain Hash :=
  let resized := blockchainResize env chain size
  if stays chain.maxSize then { resized with arena := chain.arena } else resized

/-- `add_heir` over a growth of the array. -/
def addHeirWith (grow : Blockchain Hash → Nat → Blockchain Hash) (env : ChainEnv Hash)
    (chain : Blockchain Hash) (parent : HeirRef) (child : Ptr) : Exec (Blockchain Hash) := do
  let parentHeir ← chain.heirAt parent
  let cell ← chain.candidatesList.nodes.read child
  let hdr ← Exec.deref cell.val.hdr
  Exec.assert (parentHeir.hash = hdr.prevHash)
  let chain := grow chain ((1 + chain.height) + 1)
  let heir : HeirRef := ⟨parent.arena, parent.slot + 1⟩
  let parentHeir ← chain.heirAt parent
  let difficulty := env.compactUint256ToBdiff hdr.bits
  let chain ← chain.setHeir heir
    ⟨cell.val.hash, hdr.timestamp.toUInt64, hdr.bits,
      parentHeir.cumulativeDifficulty + difficulty, hdr⟩
  let (entry, searchRoot) ← SearchTree.tsearch chain.heirHash chain.searchRoot heir
  Exec.assert (entry = heir)
  .ok { chain with searchRoot }

/-- The loop of `blockchain_add_inheritances` over a growth of the array. -/
def addInheritancesLoopWith (grow : Blockchain Hash → Nat → Blockchain Hash)
    (env : ChainEnv Hash) :
    Nat → Blockchain Hash → HeirRef → Option Ptr → Nat → Exec (Blockchain Hash × Nat)
  | 0, _, _, _, _ => .timeout
  | _ + 1, chain, _, none, height => .ok (chain, height)
  | fuel + 1, chain, parent, some child, height => do
      let chain ← addHeirWith grow env chain parent child
      let parent : HeirRef := ⟨parent.arena, parent.slot + 1⟩
      let cell ← chain.candidatesList.nodes.read child
      let hdr ← Exec.deref cell.val.hdr
      let chain := chain.notify (.addBlock cell.val.hash parent.slot hdr)
      addInheritancesLoopWith grow env fuel chain parent cell.firstChild (height + 1)

/-- `blockchain_add_inheritances` over a growth of the array. -/
def blockchainAddInheritancesWith (grow : Blockchain Hash → Nat → Blockchain Hash)
    (fuel : Nat) (env : ChainEnv Hash) (chain : Blockchain Hash) (parent : HeirRef)
    (child : Option Ptr) : Exec (Blockchain Hash × Option Ptr) := do
  Exec.assert (child.isSome)
  let (chain, orphans) ← blockchainAbandonInheritances env chain parent
  let (chain, height) ← addInheritancesLoopWith grow env fuel chain parent child parent.slot
  .ok ({ chain with height }, orphans)

/-- A growth that preserves the chain: the heirs up to the parent keep their contents and are
found where they are, and the first new heir is behind the parent. -/
structure GrowthPreserves (before : Blockchain Hash) (slot : Nat)
    (promoted : List (BlockchainHeir Hash)) (after : Blockchain Hash) : Prop where
  kept : ∀ height ≤ slot, after.heirs[height]? = before.heirs[height]?
  designates : ∀ height ≤ slot, ∀ heir, before.heirs[height]? = some heir →
    ∃ ref ∈ after.searchRoot, after.heirAt ref = .ok heir ∧
      blockchainFind after heir.hash = .ok (some ref)
  next : after.heirs[slot + 1]? = promoted.head?

/-- The array has its size from `blockchain_resize` and takes another heir as it is. -/
structure Roomy (chain : Blockchain Hash) : Prop where
  capacity : blockchainDefaultAllocSize ∣ chain.maxSize
  room : chain.height + 2 ≤ chain.maxSize

section Growth

variable {env : ChainEnv Hash} {chain after : Blockchain Hash} {parent : HeirRef}
  {grow : Blockchain Hash → Nat → Blockchain Hash} {stays : Nat → Bool}

omit [DecidableEq Hash] in
theorem Roomy.congr (roomy : Roomy chain) (height : after.height = chain.height)
    (maxSize : after.maxSize = chain.maxSize) : Roomy after := by
  constructor
  · rw [maxSize]
    exact roomy.capacity
  · rw [height, maxSize]
    exact roomy.room

/-! ## Over `blockchain_resize` -/

theorem addHeirWith_blockchainResize : addHeirWith (blockchainResize env) env = addHeir env := rfl

theorem addInheritancesLoopWith_blockchainResize {fuel height : Nat} {start : Option Ptr} :
    addInheritancesLoopWith (blockchainResize env) env fuel chain parent start height =
      addInheritancesLoop env fuel chain parent start height := by
  induction fuel generalizing chain parent start height with
  | zero => rfl
  | succ fuel inductionHypothesis =>
      cases start with
      | none => rfl
      | some child =>
          rw [addInheritancesLoopWith, addInheritancesLoop, addHeirWith_blockchainResize]
          apply Exec.bind_congr_of rfl
          intro extended
          apply Exec.bind_congr_of rfl
          intro cell
          apply Exec.bind_congr_of rfl
          intro hdr
          exact inductionHypothesis

/-- An array that always moves is the one of `blockchain_add_inheritances`. -/
theorem blockchainAddInheritancesWith_moves {fuel : Nat} {start : Option Ptr} :
    blockchainAddInheritancesWith (blockchainRealloc (fun _ => false) env) fuel env chain parent
      start = blockchainAddInheritances fuel env chain parent start := by
  have moves : blockchainRealloc (fun _ => false) env = blockchainResize env := by
    funext chain size
    rw [blockchainRealloc]
    exact if_neg Bool.false_ne_true
  rw [moves, blockchainAddInheritancesWith, blockchainAddInheritances]
  apply Exec.bind_congr_of rfl
  intro _
  apply Exec.bind_congr_of rfl
  intro abandoned
  exact Exec.bind_congr_of addInheritancesLoopWith_blockchainResize fun _ => rfl

theorem addHeirWith_congr {child : Ptr}
    (same : grow chain (1 + chain.height + 1) = blockchainResize env chain (1 + chain.height + 1)) :
    addHeirWith grow env chain parent child = addHeir env chain parent child := by
  rw [← addHeirWith_blockchainResize, addHeirWith, addHeirWith, same]

/-- What `add_heir` does when it returns. -/
theorem addHeirWith_inversion {child : Ptr}
    (returns : addHeirWith grow env chain parent child = .ok after) :
    ∃ resized heir searchRoot, resized = grow chain (1 + chain.height + 1) ∧
      parent.arena = resized.arena ∧ parent.slot < resized.heirs.length ∧
      after = { resized with
        heirs := resized.heirs.take (parent.slot + 1) ++ [heir]
        searchRoot } := by
  simp only [addHeirWith, Exec.bind_eq_ok] at returns
  obtain ⟨_, -, member, -, hdr, -, _, -, again, readsAgain, written, writes,
    ⟨entry, searchRoot⟩, -, _, -, returns⟩ := returns
  obtain ⟨arena, stored⟩ := heirAt_eq_ok.1 readsAgain
  rw [Blockchain.setHeir, if_pos arena] at writes
  split at writes
  · cases writes
    cases returns
    exact ⟨_, _, searchRoot, rfl, arena, (List.getElem?_eq_some_iff.1 stored).1, rfl⟩
  · cases writes

omit [DecidableEq Hash] in
/-- An array with room does not grow. -/
theorem blockchainRealloc_room (roomy : Roomy chain) :
    blockchainRealloc stays env chain (1 + chain.height + 1) = chain := by
  rw [blockchainRealloc, blockchainResize_room roomy.capacity roomy.room]
  split
  · rfl
  · rfl

/-- While there is room, an added heir leaves the others, and the room stays. -/
theorem addHeirWith_room {child : Ptr} (roomy : Roomy chain)
    (returns : addHeirWith (blockchainRealloc stays env) env chain parent child = .ok after) :
    Roomy after ∧ ∀ height ≤ parent.slot, after.heirs[height]? = chain.heirs[height]? := by
  obtain ⟨resized, heir, searchRoot, grown, -, inside, rfl⟩ := addHeirWith_inversion returns
  rw [blockchainRealloc_room roomy] at grown
  subst grown
  refine ⟨roomy.congr rfl rfl, ?_⟩
  intro height below
  rw [List.getElem?_append_left (by rw [List.length_take]; omega),
    List.getElem?_take_of_lt (Nat.lt_succ_of_le below)]

/-- A promotion into an array with room leaves the heirs up to the parent. -/
theorem addInheritancesLoopWith_room {fuel height tip : Nat} {start : Option Ptr}
    (roomy : Roomy chain)
    (returns : addInheritancesLoopWith (blockchainRealloc stays env) env fuel chain parent start
      height = .ok (after, tip)) :
    ∀ i ≤ parent.slot, after.heirs[i]? = chain.heirs[i]? := by
  induction fuel generalizing chain parent start height with
  | zero => cases returns
  | succ fuel inductionHypothesis =>
      cases start with
      | none =>
          cases returns
          exact fun i _ => rfl
      | some child =>
          simp only [addInheritancesLoopWith, Exec.bind_eq_ok] at returns
          obtain ⟨extended, adds, cell, -, hdr, -, rest⟩ := returns
          obtain ⟨stillRoomy, kept⟩ := addHeirWith_room roomy adds
          have notified : Roomy (extended.notify
              (.addBlock cell.val.hash (parent.slot + 1) hdr)) := stillRoomy.congr rfl rfl
          have later := inductionHypothesis notified rest
          intro i below
          exact (later i (Nat.le_succ_of_le below)).trans (kept i below)

/-- A promotion into an array with room never asks `realloc`. -/
theorem addInheritancesLoopWith_eq {fuel height : Nat} {start : Option Ptr}
    (roomy : Roomy chain) :
    addInheritancesLoopWith (blockchainRealloc stays env) env fuel chain parent start height =
      addInheritancesLoop env fuel chain parent start height := by
  induction fuel generalizing chain parent start height with
  | zero => rfl
  | succ fuel inductionHypothesis =>
      cases start with
      | none => rfl
      | some child =>
          have same : addHeirWith (blockchainRealloc stays env) env chain parent child =
              addHeir env chain parent child := by
            apply addHeirWith_congr
            rw [blockchainRealloc_room roomy, blockchainResize_room roomy.capacity roomy.room]
          rw [addInheritancesLoopWith, addInheritancesLoop, same]
          cases adds : addHeir env chain parent child with
          | fault fault => rw [Exec.fault_bind, Exec.fault_bind]
          | timeout => rw [Exec.timeout_bind, Exec.timeout_bind]
          | ok extended =>
              obtain ⟨stillRoomy, -⟩ := addHeirWith_room roomy (same.trans adds)
              rw [Exec.ok_bind, Exec.ok_bind]
              dsimp only
              apply Exec.bind_congr_of rfl
              intro cell
              apply Exec.bind_congr_of rfl
              intro hdr
              have notified : Roomy (extended.notify
                  (.addBlock cell.val.hash (parent.slot + 1) hdr)) := stillRoomy.congr rfl rfl
              exact inductionHypothesis notified

/-! ## A full array -/

omit [DecidableEq Hash] in
/-- A full array grows by one allocation unit, whose size is cleared at its start. -/
theorem blockchainResize_full (capacity : blockchainDefaultAllocSize ∣ chain.maxSize)
    (full : chain.height + 1 = chain.maxSize) :
    blockchainResize env chain (1 + chain.height + 1) = { chain with
      heirs := List.replicate (min blockchainDefaultAllocSize chain.heirs.length) env.zeroHeir ++
        chain.heirs.drop blockchainDefaultAllocSize
      arena := chain.arena + 1
      maxSize := chain.maxSize + blockchainDefaultAllocSize } := by
  have rounded : (1 + chain.height + 1 + blockchainDefaultAllocSize - 1) /
      blockchainDefaultAllocSize * blockchainDefaultAllocSize =
        chain.maxSize + blockchainDefaultAllocSize := by
    obtain ⟨units, size⟩ := capacity
    rw [size] at full ⊢
    simp only [blockchainDefaultAllocSize] at full ⊢
    omega
  have grows : ¬ chain.maxSize + blockchainDefaultAllocSize ≤ chain.maxSize := by
    simp only [blockchainDefaultAllocSize]
    omega
  rw [blockchainResize, rounded, if_neg grows, Nat.add_sub_cancel_left]

/-- `add_heir` on a full array returns only where `realloc` stays, and clears the first heirs. -/
theorem addHeirWith_full {child : Ptr} (capacity : blockchainDefaultAllocSize ∣ chain.maxSize)
    (full : chain.height + 1 = chain.maxSize) (length : chain.heirs.length = chain.height + 1)
    (returns : addHeirWith (blockchainRealloc stays env) env chain ⟨chain.arena, chain.height⟩
      child = .ok after) :
    Roomy after ∧
      ∀ i < blockchainDefaultAllocSize, i ≤ chain.height → after.heirs[i]? = some env.zeroHeir := by
  obtain ⟨resized, heir, searchRoot, grown, arena, inside, rfl⟩ := addHeirWith_inversion returns
  rw [blockchainRealloc, blockchainResize_full capacity full] at grown
  split at grown
  next =>
    subst grown
    constructor
    · constructor
      · exact Nat.dvd_add capacity (Nat.dvd_refl _)
      · show chain.height + 2 ≤ chain.maxSize + blockchainDefaultAllocSize
        rw [← full]
        simp only [blockchainDefaultAllocSize]
        omega
    · intro i cleared below
      show ((List.replicate (min blockchainDefaultAllocSize chain.heirs.length) env.zeroHeir ++
        chain.heirs.drop blockchainDefaultAllocSize).take (chain.height + 1) ++ [heir])[i]? = _
      have early : i < min blockchainDefaultAllocSize chain.heirs.length := by
        rw [length]
        exact lt_min cleared (Nat.lt_succ_of_le below)
      rw [List.getElem?_append_left (by
          rw [List.length_take, List.length_append, List.length_replicate]
          omega),
        List.getElem?_take_of_lt (Nat.lt_succ_of_le below),
        List.getElem?_append_left (by rw [List.length_replicate]; exact early),
        List.getElem?_replicate, if_pos early]
  next =>
    -- `parent` points to the allocation that was released
    rw [grown] at arena
    exact absurd arena (Nat.succ_ne_self _).symm

/-! ## Beyond the capacity -/

variable {slot : Nat} {child : Ptr} {path : List Ptr} {promoted : List (BlockchainHeir Hash)}
  {parentHeir : BlockchainHeir Hash} {core : Blockchain Hash}

/-- With room for the first heir only: the promotion does not return, since the array does not
grow again. -/
theorem addInheritancesLoopWith_beyond {fuel height : Nat} {result : Blockchain Hash × Nat}
    (indexed : HeirsIndexed core) (roomy : Roomy core)
    (isLast : core.heirs.length = slot + 1) (stored : core.heirs[slot]? = some parentHeir)
    (along : HeirsAlong env core.candidatesList.nodes parentHeir.cumulativeDifficulty (some child)
      path promoted)
    (exceeds : core.maxSize ≤ slot + promoted.length) :
    addInheritancesLoopWith (blockchainRealloc stays env) env fuel core ⟨core.arena, slot⟩
      (some child) height ≠ .ok result := by
  intro returns
  rw [addInheritancesLoopWith_eq roomy] at returns
  obtain ⟨extended, tip⟩ := result
  have fits := addInheritancesLoop_fits (fun absent => absurd absent (Option.some_ne_none _)) returns
  obtain ⟨other, heirs, searchRoot, again, rfl, -, -⟩ :=
    addInheritancesLoop_along indexed isLast stored returns
  rw [along.unique again] at exceeds
  dsimp only at fits
  rw [List.length_append, isLast] at fits
  omega

/-- On a full array: a promotion that returns has cleared the first two heirs. -/
theorem addInheritancesLoopWith_full {fuel height tip : Nat}
    (capacity : blockchainDefaultAllocSize ∣ core.maxSize)
    (full : core.height + 1 = core.maxSize) (length : core.heirs.length = core.height + 1)
    (returns : addInheritancesLoopWith (blockchainRealloc stays env) env fuel core
      ⟨core.arena, core.height⟩ (some child) height = .ok (after, tip)) :
    ∀ i < blockchainDefaultAllocSize, i ≤ core.height → after.heirs[i]? = some env.zeroHeir := by
  cases fuel with
  | zero => cases returns
  | succ fuel =>
      simp only [addInheritancesLoopWith, Exec.bind_eq_ok] at returns
      obtain ⟨extended, adds, cell, -, hdr, -, rest⟩ := returns
      obtain ⟨roomy, cleared⟩ := addHeirWith_full capacity full length adds
      have notified : Roomy (extended.notify
          (.addBlock cell.val.hash (core.height + 1) hdr)) := roomy.congr rfl rfl
      have kept := addInheritancesLoopWith_room notified rest
      intro i first below
      exact (kept i (Nat.le_succ_of_le below)).trans (cleared i first below)

/-- An add that makes the heirs exceed the capacity returns from a full array only, and has
cleared the first heirs. -/
theorem blockchainAddInheritancesWith_clears {fuel : Nat} {orphans : Option Ptr}
    (consistent : Consistent env chain) (stored : chain.heirs[slot]? = some parentHeir)
    (along : HeirsAlong env chain.candidatesList.nodes parentHeir.cumulativeDifficulty (some child)
      path promoted)
    (exceeds : chain.maxSize ≤ slot + promoted.length)
    (returns : blockchainAddInheritancesWith (blockchainRealloc stays env) fuel env chain
      ⟨chain.arena, slot⟩ (some child) = .ok (after, orphans)) :
    blockchainDefaultAllocSize ≤ slot + 1 ∧
      ∀ i < blockchainDefaultAllocSize, after.heirs[i]? = some env.zeroHeir := by
  have inside : slot ≤ chain.height := by
    have inRange := (List.getElem?_eq_some_iff.1 stored).1
    have length := consistent.length
    omega
  obtain ⟨core, abandons, cleared⟩ := blockchainAbandonInheritances_cleared consistent inside
  obtain ⟨isLast, coreStored⟩ := cleared.isLast stored
  rw [blockchainAddInheritancesWith, Exec.assert_of Option.isSome_some, Exec.ok_bind, abandons,
    Exec.ok_bind, Exec.bind_eq_ok] at returns
  obtain ⟨⟨extended, tip⟩, loops, sets⟩ := returns
  cases sets
  dsimp only at loops
  rw [← cleared.arena] at loops
  have capacity : blockchainDefaultAllocSize ∣ core.maxSize := by
    rw [cleared.maxSize]
    exact consistent.capacity
  by_cases room : core.height + 2 ≤ core.maxSize
  · -- the array has room for the first heir, and the loop keeps asking for that one's size
    refine absurd loops (addInheritancesLoopWith_beyond cleared.indexed ⟨capacity, room⟩ isLast
      coreStored (cleared.along consistent.links along) ?_)
    rw [cleared.maxSize]
    exact exceeds
  · -- the array is full, and its start is cleared
    have below := consistent.inside
    have full : core.height + 1 = core.maxSize := by
      rw [cleared.height, cleared.maxSize] at room ⊢
      omega
    have units := Nat.le_of_dvd (Nat.lt_of_lt_of_eq (Nat.succ_pos _) full) capacity
    rw [← cleared.height] at loops
    have zeroed := addInheritancesLoopWith_full capacity full
      (by rw [isLast, cleared.height]) loops
    rw [← full, cleared.height] at units
    refine ⟨units, ?_⟩
    intro i first
    apply zeroed i first
    rw [cleared.height]
    exact Nat.le_of_lt_succ (Nat.lt_of_lt_of_le first units)

/-- No add that makes the heirs exceed the capacity preserves the chain, whatever `realloc`
does. -/
theorem blockchainAddInheritancesWith_never (stays : Nat → Bool) (consistent : Consistent env chain)
    (stored : chain.heirs[slot]? = some parentHeir)
    (along : HeirsAlong env chain.candidatesList.nodes parentHeir.cumulativeDifficulty (some child)
      path promoted)
    (exceeds : chain.maxSize ≤ slot + promoted.length) :
    ¬ ∃ fuel after orphans, blockchainAddInheritancesWith (blockchainRealloc stays env) fuel env
        chain ⟨chain.arena, slot⟩ (some child) = .ok (after, orphans) ∧
      GrowthPreserves chain slot promoted after := by
  intro grown
  obtain ⟨fuel, after, orphans, returns, preserves⟩ := grown
  obtain ⟨units, zeroed⟩ :=
    blockchainAddInheritancesWith_clears consistent stored along exceeds returns
  have two : 1 < blockchainDefaultAllocSize := by decide
  have first := (preserves.kept 0 (Nat.zero_le _)).symm.trans (zeroed 0 (Nat.zero_lt_of_lt two))
  have second := (preserves.kept 1 (Nat.le_of_lt_succ (Nat.lt_of_lt_of_le two units))).symm.trans
    (zeroed 1 two)
  exact Nat.zero_ne_one (consistent.indexed.slot_inj first second rfl)

end Growth

/-! ### Samples -/

theorem sampleHash_inj {first second : Nat} (same : sampleHash first = sampleHash second) :
    first = second := by
  induction first generalizing second with
  | zero =>
      cases second with
      | zero => rfl
      | succ second => cases same
  | succ first inductionHypothesis =>
      cases second with
      | zero => cases same
      | succ second => rw [inductionHypothesis (SampleHash.block.inj same).1]

theorem sampleHeirs_hash (base : ℚ) (p count : Nat) :
    (sampleHeirs base p count).map BlockchainHeir.hash =
      (List.range' (p + 1) count).map sampleHash := by
  induction count generalizing base p with
  | zero => rfl
  | succ count inductionHypothesis =>
      rw [sampleHeirs, List.map_cons, inductionHypothesis, List.range'_succ, List.map_cons]
      rfl

/-- The heirs up to a height. -/
def sampleStored (height : Nat) : List (BlockchainHeir SampleHash) :=
  genesisHeir sampleEnv .genesis sampleEnv.genesisBlockHdr :: sampleHeirs sampleBase 0 height

theorem sampleStored_hash (height : Nat) : (sampleStored height).map BlockchainHeir.hash =
    (List.range' 0 (height + 1)).map sampleHash := by
  rw [sampleStored, List.map_cons, sampleHeirs_hash, List.range'_succ, List.map_cons]
  rfl

theorem sampleStored_length (height : Nat) : (sampleStored height).length = height + 1 := by
  rw [sampleStored, List.length_cons, sampleHeirs_length]

/-- A chain of a height, and a candidate above its tip at address 0. -/
def sampleChain (height : Nat) : Blockchain SampleHash :=
  { blockchainInit sampleEnv none none with
    heirs := sampleStored height
    height
    searchRoot := (List.range (sampleStored height).length).map (HeirRef.mk 0)
    candidatesList := ⟨fun p => if p = 0 then
      some ⟨⟨sampleHash (height + 1), some (sampleHdr (sampleHash height) 0), 0⟩, none, none, none⟩
      else none, fun _ => none, 1, [], []⟩ }

theorem sampleChain_consistent {height : Nat} (inside : height < blockchainDefaultAllocSize) :
    Consistent sampleEnv (sampleChain height) where
  indexed := by
    refine ⟨List.Perm.refl _, ?_⟩
    show ((sampleStored height).map BlockchainHeir.hash).Nodup
    rw [sampleStored_hash]
    exact (List.nodup_range' ..).map fun _ _ => sampleHash_inj
  length := sampleStored_length height
  links := by
    refine ⟨fun p member live => ?_, fun p entry => absurd entry List.not_mem_nil⟩
    change (if p = 0 then some _ else none) = some member at live
    split at live
    next first =>
      cases live
      subst first
      constructor
      · exact Nat.zero_lt_one
      · exact fun q points => nomatch points
      · exact fun q points => nomatch points
    next => cases live
  linked := by
    cases height with
    | zero => exact List.isChain_singleton _
    | succ height =>
        exact (sampleHeirs_along sampleBase (Nat.zero_add (height + 1))).isChain
          (sampleHeirs_linked sampleBase 0 (height + 1))
  capacity := ⟨1, rfl⟩
  inside := inside

/-- The tip, and the heir the candidate becomes. -/
theorem sampleChain_path (height : Nat) :
    ∃ tip promoted, (sampleChain height).heirs[height]? = some tip ∧
      HeirsAlong sampleEnv (sampleChain height).candidatesList.nodes tip.cumulativeDifficulty
        (some 0) [0] promoted ∧
      HashLinked tip.hash promoted ∧ promoted.length = 1 := by
  have inRange : height < (sampleStored height).length := by
    rw [sampleStored_length]
    exact Nat.lt_succ_self height
  have hash : ((sampleStored height).map BlockchainHeir.hash)[height]? =
      some (sampleHash height) := by
    rw [sampleStored_hash, List.getElem?_map,
      List.getElem?_range' (Nat.lt_succ_self height), Nat.zero_add, Nat.one_mul]
    rfl
  rw [List.getElem?_map, List.getElem?_eq_getElem inRange] at hash
  refine ⟨(sampleStored height)[height], _, List.getElem?_eq_getElem inRange,
    .cons rfl rfl (.nil _), ⟨?_, trivial⟩, rfl⟩
  exact (Option.some.inj hash).symm

/-- The chain that fills the array. -/
theorem blockchainAddInheritancesWith_never_sampleChain :
    ∃ tip promoted, (sampleChain 5255999).heirs[5255999]? = some tip ∧
      ¬ ∃ fuel after orphans, blockchainAddInheritancesWith
          (blockchainRealloc (fun _ => true) sampleEnv) fuel sampleEnv (sampleChain 5255999)
          ⟨0, 5255999⟩ (some 0) = .ok (after, orphans) ∧
        GrowthPreserves (sampleChain 5255999) 5255999 promoted after := by
  have inside : 5255999 < blockchainDefaultAllocSize := by decide
  obtain ⟨tip, promoted, stored, along, -, one⟩ := sampleChain_path 5255999
  have exceeds : (sampleChain 5255999).maxSize ≤ 5255999 + promoted.length := by
    rw [one]
    exact Nat.le_refl blockchainDefaultAllocSize
  exact ⟨tip, promoted, stored, blockchainAddInheritancesWith_never (fun _ => true)
    (sampleChain_consistent inside) stored along exceeds⟩

/-- A full array and one more block: the genesis heir is gone, or `parent` dangles. -/
theorem blockchainRealloc_sampleChain :
    Consistent sampleEnv (sampleChain 5255999) ∧
    ∃ tip promoted, (sampleChain 5255999).heirs[5255999]? = some tip ∧
      HeirsAlong sampleEnv (sampleChain 5255999).candidatesList.nodes tip.cumulativeDifficulty
        (some 0) [0] promoted ∧
      HashLinked tip.hash promoted ∧
      (sampleChain 5255999).maxSize ≤ 5255999 + promoted.length ∧
      ¬ ∃ stays fuel after orphans, blockchainAddInheritancesWith
          (blockchainRealloc stays sampleEnv) fuel sampleEnv (sampleChain 5255999)
          ⟨0, 5255999⟩ (some 0) = .ok (after, orphans) ∧
        GrowthPreserves (sampleChain 5255999) 5255999 promoted after := by
  have inside : 5255999 < blockchainDefaultAllocSize := by decide
  have consistent := sampleChain_consistent inside
  obtain ⟨tip, promoted, stored, along, linked, one⟩ := sampleChain_path 5255999
  have exceeds : (sampleChain 5255999).maxSize ≤ 5255999 + promoted.length := by
    rw [one]
    exact Nat.le_refl blockchainDefaultAllocSize
  refine ⟨consistent, tip, promoted, stored, along, linked, exceeds, ?_⟩
  intro grown
  obtain ⟨stays, fuel, after, orphans, returns, preserves⟩ := grown
  obtain ⟨-, zeroed⟩ :=
    blockchainAddInheritancesWith_clears consistent stored along exceeds returns
  have genesis : (sampleChain 5255999).heirs[0]? =
      some (genesisHeir sampleEnv .genesis sampleEnv.genesisBlockHdr) := rfl
  have first := (zeroed 0 (Nat.zero_lt_of_lt inside)).symm.trans
    ((preserves.kept 0 (Nat.zero_le _)).trans genesis)
  have hash := congrArg BlockchainHeir.hash (Option.some.inj first)
  exact SampleHash.noConfusion hash

end BitcoinClib.Chains
