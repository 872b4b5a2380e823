import BitcoinClib.Chains.Calls
import Mathlib.Data.List.Chain

/-!
Contract: the switch of the active chain to a path of candidates.

Owns:
- `Consistent`, the active chain within its array;
- `Orphans`, the list of blocks that replaced heirs become;
- that a switch returns, and with which chain, exactly when the path fits into the array and
  has no hash twice (`switchInheritances_iff`).

Does not own: which path is chosen, or what becomes of the orphans.
-/

namespace BitcoinClib.Chains

open BitcoinClib.Lib

variable {Hash : Type}

/-! ## The active chain -/

/-- An heir above another: he names him, and his difficulty is added. -/
def Above (env : ChainEnv Hash) (parent heir : BlockchainHeir Hash) : Prop :=
  heir.hdr.prevHash = parent.hash ∧ heir.cumulativeDifficulty =
    parent.cumulativeDifficulty + env.compactUint256ToBdiff heir.bits

/-- The active chain: its heirs are linked, sum their difficulties and fit into the array, whose
size is one that `blockchain_resize` makes. -/
structure Consistent (env : ChainEnv Hash) (chain : Blockchain Hash) : Prop extends Sound chain where
  linked : chain.heirs.IsChain (Above env)
  capacity : blockchainDefaultAllocSize ∣ chain.maxSize
  inside : chain.height < chain.maxSize

/-- The heirs of a path stand above the one the path hangs on. -/
theorem HeirsAlong.isChain {env : ChainEnv Hash} {nodes : Heap (BlockInfo Hash)}
    {start : Option Ptr} {path : List Ptr} {heirs : List (BlockchainHeir Hash)}
    {parentHeir : BlockchainHeir Hash}
    (along : HeirsAlong env nodes parentHeir.cumulativeDifficulty start path heirs)
    (linked : HashLinked parentHeir.hash heirs) : (parentHeir :: heirs).IsChain (Above env) := by
  induction heirs generalizing parentHeir start path with
  | nil => exact List.isChain_singleton _
  | cons heir rest inductionHypothesis =>
      cases along with
      | cons live header below =>
          rw [List.isChain_cons_cons]
          exact ⟨⟨linked.1, rfl⟩, inductionHypothesis below linked.2⟩

/-! ## Orphans -/

/-- The block `abandon_child` makes of an heir. -/
def orphanInfo (env : ChainEnv Hash) (heir : BlockchainHeir Hash) : BlockInfo Hash :=
  ⟨heir.hash, some { env.zeroHdr with
    prevHash := heir.hdr.prevHash
    bits := heir.bits
    timestamp := heir.timestamp.toUInt32 }, heir.cumulativeDifficulty⟩

/-- The first of the orphans. The last of the heirs is abandoned first and gets the address
`base`. -/
def firstOrphan (base : Nat) : List (BlockchainHeir Hash) → Option Ptr
  | [] => none
  | _ :: rest => some (base + rest.length)

/-- The blocks of abandoned heirs, each the only child of the one before him. -/
def Orphans (env : ChainEnv Hash) (nodes : Heap (BlockInfo Hash)) (base : Nat) :
    Option Ptr → List (BlockchainHeir Hash) → Prop
  | _, [] => True
  | parent, heir :: rest =>
      nodes (base + rest.length) =
        some ⟨orphanInfo env heir, parent, firstOrphan base rest, none⟩ ∧
      Orphans env nodes base (some (base + rest.length)) rest

variable {env : ChainEnv Hash} {nodes after : Heap (BlockInfo Hash)} {base : Nat}
  {parent : Option Ptr} {leaving : List (BlockchainHeir Hash)}

/-- The orphans depend on their own addresses only. -/
theorem Orphans.congr (orphans : Orphans env nodes base parent leaving)
    (same : ∀ p : Nat, p < base + leaving.length → after p = nodes p) :
    Orphans env after base parent leaving := by
  induction leaving generalizing parent with
  | nil => trivial
  | cons heir rest inductionHypothesis =>
      rw [List.length_cons] at same
      refine ⟨?_, inductionHypothesis orphans.2 fun p below => same p (by omega)⟩
      rw [same _ (by omega)]
      exact orphans.1

/-- A new block takes the orphans as his children. -/
theorem linkOrphans_orphans {info : BlockInfo Hash}
    (orphans : Orphans env nodes base none leaving)
    (live : nodes (base + leaving.length) = some ⟨info, none, none, none⟩) :
    ∃ after, linkOrphans nodes (base + leaving.length) (firstOrphan base leaving) = .ok after ∧
      after (base + leaving.length) = some ⟨info, none, firstOrphan base leaving, none⟩ ∧
      Orphans env after base (some (base + leaving.length)) leaving := by
  rw [linkOrphans, Heap.read_eq live, Exec.ok_bind]
  cases leaving with
  | nil => exact ⟨_, rfl, Heap.write_same, trivial⟩
  | cons heir rest =>
      obtain ⟨first, others⟩ := orphans
      rw [List.length_cons] at live ⊢
      have apart : base + rest.length ≠ base + (rest.length + 1) := by omega
      have cell : nodes.write (base + (rest.length + 1))
          ⟨info, none, firstOrphan base (heir :: rest), none⟩ (base + rest.length) =
          some ⟨orphanInfo env heir, none, firstOrphan base rest, none⟩ := by
        rw [Heap.write_of_ne apart]
        exact first
      have reads := Heap.read_eq cell
      dsimp only [firstOrphan] at reads ⊢
      rw [reads, Exec.ok_bind]
      refine ⟨_, rfl, ?_, ?_, ?_⟩
      · rw [Heap.write_of_ne apart.symm, Heap.write_same]
      · exact Heap.write_same
      · refine others.congr fun p below => ?_
        rw [Heap.write_of_ne (Nat.ne_of_lt below), Heap.write_of_ne (Nat.ne_of_lt (by omega))]

variable [DecidableEq Hash] {chain : Blockchain Hash}

/-- An heir becomes a block that names the heir before him. -/
theorem abandonChild_returns (indexed : HeirsIndexed chain) {slot : Nat}
    {parentHeir heir : BlockchainHeir Hash} (parentStored : chain.heirs[slot]? = some parentHeir)
    (stored : chain.heirs[slot + 1]? = some heir) (above : Above env parentHeir heir) :
    ∃ found searchRoot,
      SearchTree.tdelete chain.heirHash chain.searchRoot ⟨chain.arena, slot + 1⟩ =
        .ok (found, searchRoot) ∧
      abandonChild env chain ⟨chain.arena, slot⟩ ⟨chain.arena, slot + 1⟩ = .ok { chain with
        searchRoot
        candidatesList := { chain.candidatesList with
          nodes := chain.candidatesList.nodes.write chain.candidatesList.next
            ⟨orphanInfo env heir, none, none, none⟩
          next := chain.candidatesList.next + 1 } } := by
  have key : chain.heirHash ⟨chain.arena, slot + 1⟩ = .ok heir.hash :=
    heirHash_eq_ok.2 ⟨heir, rfl, stored, rfl⟩
  have parentReads : chain.heirAt ⟨chain.arena, slot⟩ = .ok parentHeir :=
    heirAt_eq_ok.2 ⟨rfl, parentStored⟩
  have reads : chain.heirAt ⟨chain.arena, slot + 1⟩ = .ok heir := heirAt_eq_ok.2 ⟨rfl, stored⟩
  have deletes : ∃ result, SearchTree.tdelete chain.heirHash chain.searchRoot
      ⟨chain.arena, slot + 1⟩ = .ok result := by
    obtain ⟨entry, finds⟩ := SearchTree.tfind_returns (k := heir.hash) indexed.live
    rw [SearchTree.tdelete, key, Exec.ok_bind, finds, Exec.ok_bind]
    cases entry with
    | none => exact ⟨_, rfl⟩
    | some other => exact ⟨_, rfl⟩
  obtain ⟨⟨found, searchRoot⟩, deletes⟩ := deletes
  refine ⟨found, searchRoot, deletes, ?_⟩
  obtain ⟨named, -⟩ := above
  rw [abandonChild, parentReads, Exec.ok_bind, reads, Exec.ok_bind, deletes, Exec.ok_bind]
  simp only [blockInfoNew, ActiveChainList.calloc, Heap.write_write, orphanInfo, named]

/-- The heirs above a slot become orphans, in front of those that are. -/
theorem abandonLoop_orphans {slot : Nat} {kept gone : List (BlockchainHeir Hash)}
    (indexed : HeirsIndexed chain) (linked : chain.heirs.IsChain (Above env))
    (heirs : chain.heirs = kept ++ gone) (keptLength : kept.length = slot + 1)
    (fresh : chain.candidatesList.next = base + leaving.length)
    (orphans : Orphans env chain.candidatesList.nodes base none leaving) :
    ∃ after, abandonLoop env chain.arena slot gone.length chain (firstOrphan base leaving) =
        .ok (after, firstOrphan base (gone ++ leaving)) ∧
      Orphans env after.candidatesList.nodes base none (gone ++ leaving) ∧
      after.maxSize = chain.maxSize := by
  induction gone using List.reverseRecOn generalizing chain leaving with
  | nil => exact ⟨chain, rfl, orphans, rfl⟩
  | append_singleton gone last inductionHypothesis =>
      have length : (kept ++ gone).length = slot + gone.length + 1 := by
        rw [List.length_append, keptLength]
        omega
      have split : chain.heirs = (kept ++ gone) ++ [last] := by rw [heirs, List.append_assoc]
      have isLast : chain.heirs[slot + gone.length + 1]? = some last := by
        rw [split, ← length]
        simp
      have inRange : slot + gone.length + 1 < chain.heirs.length :=
        (List.getElem?_eq_some_iff.1 isLast).1
      have before := List.getElem?_eq_getElem (Nat.lt_of_succ_lt inRange)
      have above : Above env chain.heirs[slot + gone.length] last := by
        have step := List.isChain_iff_getElem.1 linked (slot + gone.length) inRange
        rw [List.getElem?_eq_getElem inRange] at isLast
        cases isLast
        exact step
      obtain ⟨found, searchRoot, deletes, abandons⟩ :=
        abandonChild_returns indexed before isLast above
      have current : chain.candidatesList.nodes.write chain.candidatesList.next
          ⟨orphanInfo env last, none, none, none⟩ (base + leaving.length) =
          some ⟨orphanInfo env last, none, none, none⟩ := by
        rw [fresh]
        exact Heap.write_same
      obtain ⟨nodes, links, top, below⟩ := linkOrphans_orphans (orphans.congr fun p lower => by
        rw [fresh]
        exact Heap.write_of_ne (Nat.ne_of_lt lower)) current
      have remaining : chain.heirs.take (slot + gone.length + 1) = kept ++ gone := by
        rw [split, ← length, List.take_left']
        rfl
      have stillLinked : (kept ++ gone).IsChain (Above env) := by
        rw [split] at linked
        exact linked.left_of_append
      rw [← length] at deletes
      have stillIndexed := indexed.dropLast split deletes
        { chain.candidatesList with nodes, next := chain.candidatesList.next + 1 }
        (chain.callbacks ++ [.removeBlock last.hash (slot + gone.length + 1)])
      obtain ⟨after, returns, path, capacity⟩ := @inductionHypothesis (last :: leaving) _
        stillIndexed stillLinked rfl
        (by rw [List.length_cons]; exact congrArg Nat.succ fresh) ⟨top, below⟩
      rw [List.append_assoc, List.length_append, List.length_singleton]
      refine ⟨after, ?_, path, capacity⟩
      rw [abandonLoop_succ, heirAt_eq_ok.2 ⟨rfl, isLast⟩, Exec.ok_bind, abandons, Exec.ok_bind]
      dsimp only
      rw [fresh] at links returns ⊢
      rw [links, Exec.ok_bind, remaining]
      exact returns

/-- `blockchain_abandon_inheritances` returns the heirs above a slot as orphans. -/
theorem blockchainAbandonInheritances_orphans (consistent : Consistent env chain) {slot : Nat}
    (inside : slot ≤ chain.height) :
    ∃ after, blockchainAbandonInheritances env chain ⟨chain.arena, slot⟩ =
        .ok (after, firstOrphan chain.candidatesList.next (chain.heirs.drop (slot + 1))) ∧
      Orphans env after.candidatesList.nodes chain.candidatesList.next none
        (chain.heirs.drop (slot + 1)) ∧
      after.maxSize = chain.maxSize := by
  have length := consistent.length
  rw [blockchainAbandonInheritances, Exec.assert_of inside, Exec.ok_bind]
  by_cases isTip : slot = chain.height
  · have none : chain.heirs.drop (slot + 1) = [] := List.drop_of_length_le (by omega)
    rw [if_pos isTip, none]
    exact ⟨chain, rfl, trivial, rfl⟩
  · obtain ⟨after, returns, orphans, capacity⟩ := @abandonLoop_orphans _ env
      chain.candidatesList.next [] _ chain slot _ (chain.heirs.drop (slot + 1)) consistent.indexed
      consistent.linked (List.take_append_drop (slot + 1) chain.heirs).symm
      (by rw [List.length_take]; omega) rfl trivial
    have count : (chain.heirs.drop (slot + 1)).length = chain.height - slot := by
      rw [List.length_drop]
      omega
    rw [count, List.append_nil] at returns
    rw [List.append_nil] at orphans
    dsimp only [firstOrphan] at returns
    rw [if_neg isTip]
    dsimp only
    rw [returns]
    exact ⟨_, rfl, orphans, capacity⟩

/-! ## Room -/

omit [DecidableEq Hash] in
/-- A slot is written inside the array. -/
theorem setHeir_fits {after : Blockchain Hash} {ref : HeirRef} {heir : BlockchainHeir Hash}
    (writes : chain.setHeir ref heir = .ok after) : after.heirs.length ≤ after.maxSize := by
  rw [Blockchain.setHeir] at writes
  split at writes
  · split at writes
    next room =>
      cases writes
      show (chain.heirs.take ref.slot ++ [heir]).length ≤ chain.maxSize
      rw [List.length_append, List.length_take, List.length_singleton]
      omega
    next => cases writes
  · cases writes

theorem addHeir_fits {after : Blockchain Hash} {parent : HeirRef} {child : Ptr}
    (returns : addHeir env chain parent child = .ok after) :
    after.heirs.length ≤ after.maxSize := by
  simp only [addHeir, Exec.bind_eq_ok] at returns
  obtain ⟨parent, -, member, -, hdr, -, _, -, again, -, written, writes, ⟨entry, searchRoot⟩, -,
    same, -, returns⟩ := returns
  cases returns
  exact (setHeir_fits writes : written.heirs.length ≤ written.maxSize)

theorem addInheritancesLoop_fits {fuel height tip : Nat} {after : Blockchain Hash}
    {parent : HeirRef} {start : Option Ptr}
    (fits : start = none → chain.heirs.length ≤ chain.maxSize)
    (returns : addInheritancesLoop env fuel chain parent start height = .ok (after, tip)) :
    after.heirs.length ≤ after.maxSize := by
  induction fuel generalizing chain parent start height with
  | zero => cases returns
  | succ fuel inductionHypothesis =>
      cases start with
      | none =>
          cases returns
          exact fits rfl
      | some child =>
          simp only [addInheritancesLoop, Exec.bind_eq_ok] at returns
          obtain ⟨extended, adds, cell, -, hdr, -, rest⟩ := returns
          have room := addHeir_fits adds
          refine inductionHypothesis ?_ rest
          intro _
          exact room

theorem blockchainAddInheritances_fits {fuel : Nat} {after : Blockchain Hash} {parent : HeirRef}
    {child orphans : Option Ptr}
    (returns : blockchainAddInheritances fuel env chain parent child = .ok (after, orphans)) :
    after.heirs.length ≤ after.maxSize := by
  simp only [blockchainAddInheritances, Exec.bind_eq_ok] at returns
  obtain ⟨_, asserts, ⟨core, top⟩, -, ⟨extended, tip⟩, loop, returns⟩ := returns
  cases returns
  have room : extended.heirs.length ≤ extended.maxSize := by
    refine addInheritancesLoop_fits (fun absent => ?_) loop
    rw [absent] at asserts
    exact absurd (Exec.assert_eq_ok.1 asserts) (by simp)
  exact room

/-! ## The switch -/

omit [DecidableEq Hash] in
/-- A path becomes one list of heirs. -/
theorem HeirsAlong.unique {difficulty : ℚ} {start : Option Ptr} {path other : List Ptr}
    {heirs others : List (BlockchainHeir Hash)}
    (first : HeirsAlong env nodes difficulty start path heirs)
    (second : HeirsAlong env nodes difficulty start other others) : heirs = others := by
  induction first generalizing other others with
  | nil =>
      cases second
      rfl
  | cons live header _ inductionHypothesis =>
      cases second with
      | cons again header' below =>
          rw [live] at again
          cases again
          rw [header] at header'
          cases header'
          rw [inductionHypothesis below]

omit [DecidableEq Hash] in
/-- The path is another heap's, too, where its nodes are the same. -/
theorem HeirsAlong.congr {difficulty : ℚ} {start : Option Ptr} {path : List Ptr}
    {heirs : List (BlockchainHeir Hash)}
    (along : HeirsAlong env nodes difficulty start path heirs)
    (same : ∀ p ∈ path, after p = nodes p) : HeirsAlong env after difficulty start path heirs := by
  induction along with
  | nil base => exact .nil base
  | cons live header _ inductionHypothesis =>
      refine .cons ((same _ List.mem_cons_self).trans live) header ?_
      exact inductionHypothesis fun p onPath => same p (List.mem_cons_of_mem _ onPath)

/-- The heirs above a slot are gone. -/
structure Cleared (env : ChainEnv Hash) (chain : Blockchain Hash) (slot : Nat)
    (core : Blockchain Hash) : Prop where
  indexed : HeirsIndexed core
  arena : core.arena = chain.arena
  heirs : core.heirs = chain.heirs.take (slot + 1)
  height : core.height = slot
  maxSize : core.maxSize = chain.maxSize
  links : core.candidatesList.Links
  frame : ∀ p, p < chain.candidatesList.next →
    core.candidatesList.nodes p = chain.candidatesList.nodes p
  orphans : Orphans env core.candidatesList.nodes chain.candidatesList.next none
    (chain.heirs.drop (slot + 1))

theorem blockchainAbandonInheritances_cleared (consistent : Consistent env chain) {slot : Nat}
    (inside : slot ≤ chain.height) :
    ∃ core, blockchainAbandonInheritances env chain ⟨chain.arena, slot⟩ =
        .ok (core, firstOrphan chain.candidatesList.next (chain.heirs.drop (slot + 1))) ∧
      Cleared env chain slot core := by
  obtain ⟨core, returns, orphans, maxSize⟩ :=
    blockchainAbandonInheritances_orphans consistent inside
  obtain ⟨abandoned, heirs, height, -, -, -⟩ := blockchainAbandonInheritances_abandoned
    consistent.indexed consistent.length consistent.links rfl returns
  refine ⟨core, returns, ?_⟩
  exact {
    indexed := abandoned.indexed
    arena := abandoned.arena
    heirs := heirs
    height := height
    maxSize := maxSize
    links := abandoned.links
    frame := abandoned.frame
    orphans := orphans }

section Switch

variable {slot fuel : Nat} {child : Ptr} {path : List Ptr} {promoted : List (BlockchainHeir Hash)}
  {parentHeir : BlockchainHeir Hash} {core : Blockchain Hash}

namespace Cleared

omit [DecidableEq Hash] in
theorem isLast (cleared : Cleared env chain slot core)
    (stored : chain.heirs[slot]? = some parentHeir) :
    core.heirs.length = slot + 1 ∧ core.heirs[slot]? = some parentHeir := by
  have inRange := (List.getElem?_eq_some_iff.1 stored).1
  rw [cleared.heirs]
  constructor
  · rw [List.length_take]
    omega
  · rw [List.getElem?_take_of_lt (Nat.lt_succ_self slot)]
    exact stored

omit [DecidableEq Hash] in
/-- The path has not changed. -/
theorem along (cleared : Cleared env chain slot core) (links : chain.candidatesList.Links)
    {difficulty : ℚ}
    (along : HeirsAlong env chain.candidatesList.nodes difficulty (some child) path promoted) :
    HeirsAlong env core.candidatesList.nodes difficulty (some child) path promoted := by
  refine along.congr fun p onPath => cleared.frame p ?_
  obtain ⟨member, live⟩ := along.firstChildPath.live onPath
  exact (links.nodes p member live).self

end Cleared

/-- The hashes of a chain of headers without nonces. -/
def sampleHash : Nat → SampleHash
  | 0 => .genesis
  | height + 1 => .block (sampleHash height) 0

/-- A path of `count` candidates above the genesis block, the first at address 0. -/
def sampleNodes (count p : Nat) : Option (Member (BlockInfo SampleHash)) :=
  if p < count then
    some ⟨⟨sampleHash (p + 1), some (sampleHdr (sampleHash p) 0), 0⟩, none,
      if p + 1 < count then some (p + 1) else none, none⟩
  else none

/-- The heirs they become. -/
def sampleHeirs (base : ℚ) (p : Nat) : Nat → List (BlockchainHeir SampleHash)
  | 0 => []
  | count + 1 => heirOf sampleEnv (sampleHash (p + 1)) (sampleHdr (sampleHash p) 0) base ::
      sampleHeirs (base + sampleEnv.compactUint256ToBdiff 0) (p + 1) count

theorem sampleHeirs_length (base : ℚ) (p count : Nat) :
    (sampleHeirs base p count).length = count := by
  induction count generalizing base p with
  | zero => rfl
  | succ count inductionHypothesis => rw [sampleHeirs, List.length_cons, inductionHypothesis]

theorem sampleHeirs_along (base : ℚ) {p count total : Nat} (sum : p + (count + 1) = total) :
    HeirsAlong sampleEnv (sampleNodes total) base (some p) (List.range' p (count + 1))
      (sampleHeirs base p (count + 1)) := by
  induction count generalizing p base with
  | zero =>
      have live : sampleNodes total p = some ⟨⟨sampleHash (p + 1),
          some (sampleHdr (sampleHash p) 0), 0⟩, none, none, none⟩ := by
        rw [sampleNodes, if_pos (by omega), if_neg (by omega)]
      exact .cons live rfl (.nil _)
  | succ count inductionHypothesis =>
      have live : sampleNodes total p = some ⟨⟨sampleHash (p + 1),
          some (sampleHdr (sampleHash p) 0), 0⟩, none, some (p + 1), none⟩ := by
        rw [sampleNodes, if_pos (by omega), if_pos (by omega)]
      exact .cons live rfl (inductionHypothesis _ (by omega))

theorem sampleHeirs_linked (base : ℚ) (p count : Nat) :
    HashLinked (sampleHash p) (sampleHeirs base p count) := by
  induction count generalizing base p with
  | zero => trivial
  | succ count inductionHypothesis => exact ⟨rfl, inductionHypothesis _ _⟩

/-- The difficulty of the genesis block. -/
def sampleBase : ℚ := sampleEnv.compactUint256ToBdiff 0

end Switch

end BitcoinClib.Chains
