import BitcoinClib.Chains.Synchronise
import BitcoinClib.Lib.MaximalRuns
import Mathlib.Data.Nat.Cast.Order.Ring

/-!
Contract: the headers of one chain, passed to `blockchain_add` in any order.

Owns:
- the heirs and the runs of the list as the segments of the chain of headers;
- what a call, and any sequence of calls, makes of them.

Does not own: chains with forks, or a growth of the array of heirs.
-/

namespace BitcoinClib.Chains

open BitcoinClib.Lib BitcoinClib.Lib.MaximalRuns

variable {Hash : Type} {env : ChainEnv Hash} {list : ActiveChainList Hash}
  {runs others : List (ChainRun Hash)} {chain : Blockchain Hash} {fuel : Nat}

/-! ## Headers that follow each other -/

/-- The hash of the last header, or the hash before the first one. -/
def tipHash (env : ChainEnv Hash) : Hash → List (SatoshiBlockHeader Hash) → Hash
  | hash, [] => hash
  | _, hdr :: rest => tipHash env (env.hash256 hdr) rest

theorem tipHash_concat (hash : Hash) (headers : List (SatoshiBlockHeader Hash))
    (hdr : SatoshiBlockHeader Hash) :
    tipHash env hash (headers ++ [hdr]) = env.hash256 hdr := by
  induction headers generalizing hash with
  | nil => rfl
  | cons first rest inductionHypothesis => exact inductionHypothesis (env.hash256 first)

theorem follows_append {hash : Hash} {left right : List (SatoshiBlockHeader Hash)} :
    Follows env hash (left ++ right) ↔
      Follows env hash left ∧ Follows env (tipHash env hash left) right := by
  induction left generalizing hash with
  | nil => simp [Follows, tipHash]
  | cons hdr rest inductionHypothesis =>
      simp only [List.cons_append, Follows, tipHash, inductionHypothesis, and_assoc]

/-- The hashes from the one before the first header on end with that of the tip. -/
theorem hashes_eq_concat (env : ChainEnv Hash) (hash : Hash) (headers : List (SatoshiBlockHeader Hash)) :
    ∃ front, hash :: headers.map env.hash256 = front ++ [tipHash env hash headers] := by
  induction headers generalizing hash with
  | nil => exact ⟨[], rfl⟩
  | cons hdr rest inductionHypothesis =>
      obtain ⟨front, same⟩ := inductionHypothesis (env.hash256 hdr)
      exact ⟨hash :: front, congrArg (List.cons hash) same⟩

/-- The hash that a run waits for and its headers. -/
def ChainRun.key (run : ChainRun Hash) : Hash × List (SatoshiBlockHeader Hash) :=
  (run.missing, run.headers)

/-- The hashes in the index for runs with such keys. -/
def indexHashes (env : ChainEnv Hash) (keys : List (Hash × List (SatoshiBlockHeader Hash))) :
    List Hash :=
  keys.flatMap fun key => key.1 :: key.2.map env.hash256

theorem Strand.rows_snd (strand : Strand Hash) :
    (strand.rows env).map Prod.snd = (strand.map Prod.snd).map env.hash256 := by
  rw [Strand.rows, List.map_map, List.map_map]
  rfl

theorem rows_snd (runs : List (ChainRun Hash)) :
    (runs.flatMap (ChainRun.rows env)).map Prod.snd = indexHashes env (runs.map ChainRun.key) := by
  rw [indexHashes, List.map_flatMap, List.flatMap_map]
  refine congrArg runs.flatMap (funext fun run => ?_)
  rw [ChainRun.rows, List.map_cons, Strand.rows_snd]
  rfl

theorem indexHashes_perm (env : ChainEnv Hash)
    {left right : List (Hash × List (SatoshiBlockHeader Hash))}
    (same : left.Perm right) : (indexHashes env left).Perm (indexHashes env right) :=
  same.flatMap_right _

theorem indexHashes_behind (hash : Hash) (run : List (SatoshiBlockHeader Hash))
    (keys : List (Hash × List (SatoshiBlockHeader Hash))) :
    ∀ key ∈ indexHashes env (behind hash run keys),
      key ∈ hash :: run.map env.hash256 ++ indexHashes env keys := by
  cases run with
  | nil => exact fun _ inside => List.mem_cons_of_mem _ inside
  | cons => exact fun _ inside => inside

/-- The run with a key can be put in front. -/
theorem exists_run {key : Hash × List (SatoshiBlockHeader Hash)}
    {keys : List (Hash × List (SatoshiBlockHeader Hash))}
    (same : (runs.map ChainRun.key).Perm (key :: keys)) :
    ∃ run rest, runs.Perm (run :: rest) ∧ run.key = key ∧ (rest.map ChainRun.key).Perm keys := by
  obtain ⟨run, inside, isKey⟩ := List.mem_map.1 (same.mem_iff.2 List.mem_cons_self)
  obtain ⟨front, back, rfl⟩ := List.append_of_mem inside
  refine ⟨run, front ++ back, List.perm_middle, isKey, ?_⟩
  have moved := (List.perm_middle.map ChainRun.key).symm.trans same
  rw [List.map_cons, isKey] at moved
  exact moved.cons_inv

/-! ## One call -/

section Call

variable [DecidableEq Hash] {hdr : SatoshiBlockHeader Hash} {gap : Hash}
  {middle run : List (SatoshiBlockHeader Hash)}
  {keys : List (Hash × List (SatoshiBlockHeader Hash))}

/-- The header enters in front of the run that waited for it, if there was one. -/
theorem letIn_enters (lined : Lined env chain.candidatesList [] [] runs)
    (noHeir : blockchainFind chain (env.hash256 hdr) = .ok none)
    (waiting : (runs.map ChainRun.key).Perm (behind (env.hash256 hdr) run keys))
    (absent : env.hash256 hdr ∉ indexHashes env keys)
    (positive : ∀ h ∈ hdr :: run, 0 < env.compactUint256ToBdiff h.bits)
    (enough : (hdr :: run).length < fuel) :
    ∃ entered strand rest, letIn fuel env chain hdr =
        entering fuel env entered chain.candidatesList.next hdr ∧
      Lined env entered strand ((chain.candidatesList.next, hdr) :: strand) rest ∧
      strand.map Prod.snd = run ∧ (rest.map ChainRun.key).Perm keys := by
  cases run with
  | nil =>
      have notThere : env.hash256 hdr ∉ (runs.flatMap (ChainRun.rows env)).map Prod.snd := by
        rw [rows_snd, (indexHashes_perm env waiting).mem_iff]
        exact absent
      obtain ⟨entered, enters, enteredLined⟩ := letIn_alone fuel lined noHeir notThere
      exact ⟨entered, [], runs, enters, enteredLined, rfl, waiting⟩
  | cons first later =>
      obtain ⟨claimed, rest, same, isKey, restKeys⟩ := exists_run waiting
      obtain ⟨isParent, isRun⟩ := Prod.mk.inj isKey
      have lengths : claimed.blocks.length = (first :: later).length := by
        rw [← isRun]
        exact (List.length_map _).symm
      have blocksPositive : ∀ block ∈ (chain.candidatesList.next, hdr) :: claimed.blocks,
          0 < env.compactUint256ToBdiff block.2.bits := by
        rw [← isRun] at positive
        refine List.forall_mem_cons.2 ⟨positive hdr List.mem_cons_self, fun block inside => ?_⟩
        exact positive _ (List.mem_cons_of_mem _ (List.mem_map_of_mem inside))
      obtain ⟨entered, enters, enteredLined⟩ := letIn_claims (lined.perm same) noHeir isParent
        blocksPositive (by rw [lengths]; exact enough)
      exact ⟨entered, claimed.blocks, rest, enters, enteredLined, isRun, restKeys⟩

/-- The header and the run behind it join the run in front of them, if there is one. -/
theorem entering_places {strand : Strand Hash} {orphan : Ptr}
    (lined : Lined env list strand ((orphan, hdr) :: strand) runs)
    (isRun : strand.map Prod.snd = run)
    (waiting : (runs.map ChainRun.key).Perm (behind gap middle keys))
    (linked : Follows env gap (middle ++ hdr :: run))
    (distinct : (gap :: (middle ++ hdr :: run).map env.hash256 ++ indexHashes env keys).Nodup)
    (positive : ∀ h ∈ hdr :: run, 0 < env.compactUint256ToBdiff h.bits)
    (enough : (middle ++ hdr :: run).length < fuel) :
    ∃ placed joined others, entering fuel env list orphan hdr =
        .ok (some (placed, joined.head)) ∧
      Lined env placed [] [] (joined :: others) ∧ joined.key = (gap, middle ++ hdr :: run) ∧
      (others.map ChainRun.key).Perm keys := by
  subst isRun
  have strandPositive : ∀ b ∈ (orphan, hdr) :: strand, 0 < env.compactUint256ToBdiff b.2.bits := by
    refine List.forall_mem_cons.2 ⟨positive hdr List.mem_cons_self, fun block inside => ?_⟩
    exact positive _ (List.mem_cons_of_mem _ (List.mem_map_of_mem inside))
  have strandLength : (strand.map Prod.snd).length = strand.length := List.length_map _
  have indexed : ∀ (first : Strand Hash) (runs : List (ChainRun Hash)),
      (first.rows env ++ runs.flatMap (ChainRun.rows env)).map Prod.snd =
        (first.map Prod.snd).map env.hash256 ++ indexHashes env (runs.map ChainRun.key) := by
    intro first runs
    rw [List.map_append, Strand.rows_snd, rows_snd]
  rw [List.map_append, List.map_cons] at distinct
  rw [List.length_append, List.length_cons, strandLength] at enough
  cases middle with
  | nil =>
      have keysOff := List.nodup_cons.1 distinct
      have absent : env.hash256 hdr ∉
          (strand.rows env ++ runs.flatMap (ChainRun.rows env)).map Prod.snd := by
        rw [indexed, List.mem_append, (indexHashes_perm env waiting).mem_iff, ← List.mem_append]
        exact (List.nodup_cons.1 keysOff.2).1
      have unlinked : hdr.prevHash ∉ (Strand.rows env ((orphan, hdr) :: strand) ++
          runs.flatMap (ChainRun.rows env)).map Prod.snd := by
        rw [indexed, List.mem_append, (indexHashes_perm env waiting).mem_iff, ← List.mem_append,
          linked.1]
        exact keysOff.1
      obtain ⟨placed, places, placedLined⟩ :=
        entering_alone lined absent unlinked strandPositive (by simpa using enough)
      refine ⟨placed, _, runs, places, placedLined, ?_, waiting⟩
      exact congrArg (·, hdr :: strand.map Prod.snd) linked.1
  | cons first later =>
      obtain ⟨target, rest, same, isKey, restKeys⟩ := exists_run waiting
      obtain ⟨isGap, isMiddle⟩ := Prod.mk.inj isKey
      have targetLength : target.blocks.length = (first :: later).length := by
        rw [← isMiddle]
        exact (List.length_map _).symm
      have absent : env.hash256 hdr ∉
          (strand.rows env ++ (target :: rest).flatMap (ChainRun.rows env)).map Prod.snd := by
        have apart : env.hash256 hdr ∉ (gap :: (first :: later).map env.hash256) ++
            ((strand.map Prod.snd).map env.hash256 ++ indexHashes env keys) := by
          refine (List.nodup_cons.1 (List.nodup_middle.1 ?_)).1
          rw [← List.cons_append, List.append_assoc] at distinct
          exact distinct
        have sameRest := (indexHashes_perm env restKeys).mem_iff (a := env.hash256 hdr)
        rw [indexed, List.map_cons, isKey]
        simp only [indexHashes, List.flatMap_cons, List.mem_append, List.mem_cons] at apart sameRest ⊢
        rw [sameRest]
        tauto
      obtain ⟨front, last, isLast⟩ :=
        (List.eq_nil_or_concat target.blocks).resolve_left (List.cons_ne_nil _ _)
      rw [List.concat_eq_append] at isLast
      have names : hdr.prevHash = env.hash256 last.2 := by
        have follows := (follows_append.1 linked).2.1
        rw [← isMiddle, ChainRun.headers, isLast, List.map_append, List.map_singleton,
          tipHash_concat] at follows
        exact follows
      obtain ⟨placed, places, placedLined⟩ := entering_joins (lined.perm same) absent isLast names
        strandPositive (by
          rw [List.length_append, List.length_cons, targetLength]
          exact enough)
      refine ⟨placed, ⟨target.head, target.top, target.below ++ (orphan, hdr) :: strand⟩, rest,
        places, placedLined, ?_, restKeys⟩
      have headers : (target.blocks ++ (orphan, hdr) :: strand).map Prod.snd =
          first :: later ++ hdr :: strand.map Prod.snd := by
        rw [List.map_append, ← isMiddle]
        rfl
      exact Prod.ext isGap headers

/-- What Rules I to III make of a list of runs. -/
theorem letIn_places (lined : Lined env chain.candidatesList [] [] runs)
    (noHeir : blockchainFind chain (env.hash256 hdr) = .ok none)
    (waiting : (runs.map ChainRun.key).Perm
      (behind (env.hash256 hdr) run (behind gap middle keys)))
    (linked : Follows env gap (middle ++ hdr :: run))
    (distinct : (gap :: (middle ++ hdr :: run).map env.hash256 ++ indexHashes env keys).Nodup)
    (positive : ∀ h ∈ hdr :: run, 0 < env.compactUint256ToBdiff h.bits)
    (enough : (middle ++ hdr :: run).length < fuel) :
    ∃ placed joined others, letIn fuel env chain hdr = .ok (some (placed, joined.head)) ∧
      Lined env placed [] [] (joined :: others) ∧ joined.key = (gap, middle ++ hdr :: run) ∧
      (others.map ChainRun.key).Perm keys := by
  have absent : env.hash256 hdr ∉ indexHashes env (behind gap middle keys) := by
    intro inside
    have apart : env.hash256 hdr ∉ (gap :: middle.map env.hash256) ++
        (run.map env.hash256 ++ indexHashes env keys) := by
      refine (List.nodup_cons.1 (List.nodup_middle.1 ?_)).1
      rw [List.map_append, List.map_cons, ← List.cons_append, List.append_assoc] at distinct
      exact distinct
    have bound := indexHashes_behind gap middle keys _ inside
    simp only [List.mem_append, List.mem_cons, not_or] at apart bound
    tauto
  have shorter : (hdr :: run).length < fuel := by
    rw [List.length_append] at enough
    exact Nat.lt_of_le_of_lt (Nat.le_add_left _ _) enough
  obtain ⟨entered, strand, rest, enters, enteredLined, isRun, restKeys⟩ :=
    letIn_enters lined noHeir waiting absent positive shorter
  obtain ⟨placed, joined, others, places, placedLined, isKey, othersKeys⟩ :=
    entering_places enteredLined isRun restKeys linked distinct positive enough
  exact ⟨placed, joined, others, enters.trans places, placedLined, isKey, othersKeys⟩

end Call

/-! ## Any sequence of calls -/

/-- The heirs are the leading headers that have arrived, and the list holds a run for each
maximal run of headers that have arrived beyond. -/
structure Synced (env : ChainEnv Hash) (genesis : BlockchainHeir Hash)
    (headers : List (SatoshiBlockHeader Hash)) (present : SatoshiBlockHeader Hash → Prop)
    [DecidablePred present] (chain : Blockchain Hash) : Prop where
  runs : ∃ runs, Lined env chain.candidatesList [] [] runs ∧
    (runs.map ChainRun.key).Perm
      ((segments present headers).2.map (Prod.map env.hash256 id))
  heirs : chain.heirs =
    genesis :: heirsOf env genesis.cumulativeDifficulty (segments present headers).1
  height : chain.height = (segments present headers).1.length
  indexed : HeirsIndexed chain
  capacity : chain.maxSize = blockchainDefaultAllocSize

/-- The headers of one chain above the genesis block. -/
structure OneChain (env : ChainEnv Hash) (genesis : Hash)
    (headers : List (SatoshiBlockHeader Hash)) : Prop where
  linked : Follows env genesis headers
  distinct : (genesis :: headers.map env.hash256).Nodup
  positive : ∀ hdr ∈ headers, 0 < env.compactUint256ToBdiff hdr.bits
  room : headers.length + 1 < blockchainDefaultAllocSize

section Steps

variable {genesis : BlockchainHeir Hash} {headers left right : List (SatoshiBlockHeader Hash)}
  {hdr : SatoshiBlockHeader Hash} {present later : SatoshiBlockHeader Hash → Prop}
  [DecidablePred present] [DecidablePred later]

/-- The sum of the difficulties of headers. -/
def totalDifficulty (env : ChainEnv Hash) (headers : List (SatoshiBlockHeader Hash)) : ℚ :=
  (headers.map fun hdr => env.compactUint256ToBdiff hdr.bits).sum

theorem heirsOf_append (base : ℚ) (front back : List (SatoshiBlockHeader Hash)) :
    heirsOf env base (front ++ back) =
      heirsOf env base front ++ heirsOf env (base + totalDifficulty env front) back := by
  induction front generalizing base with
  | nil => simp [heirsOf, totalDifficulty]
  | cons hdr rest inductionHypothesis =>
      simp only [List.cons_append, heirsOf, inductionHypothesis, totalDifficulty, List.map_cons,
        List.sum_cons, add_assoc]

theorem heirsOf_getElem? (base : ℚ) (headers : List (SatoshiBlockHeader Hash)) (i : Nat) :
    (heirsOf env base headers)[i]? = headers[i]?.map fun hdr =>
      heirOf env (env.hash256 hdr) hdr (base + totalDifficulty env (headers.take i)) := by
  induction headers generalizing base i with
  | nil => rfl
  | cons hdr rest inductionHypothesis =>
      cases i with
      | zero => simp [heirsOf, totalDifficulty]
      | succ i =>
          rw [heirsOf, List.getElem?_cons_succ, inductionHypothesis, List.getElem?_cons_succ,
            List.take_succ_cons, totalDifficulty, totalDifficulty, List.map_cons, List.sum_cons,
            add_assoc]

/-- The last heir. -/
theorem tip_stored (env : ChainEnv Hash) (base : BlockchainHeir Hash)
    (leading : List (SatoshiBlockHeader Hash)) :
    ∃ tip, (base :: heirsOf env base.cumulativeDifficulty leading)[leading.length]? = some tip ∧
      tip.hash = tipHash env base.hash leading ∧
      tip.cumulativeDifficulty = base.cumulativeDifficulty + totalDifficulty env leading := by
  cases leading using List.reverseRecOn with
  | nil => exact ⟨base, rfl, rfl, (add_zero _).symm⟩
  | append_singleton front last _ =>
      refine ⟨heirOf env (env.hash256 last) last
        (base.cumulativeDifficulty + totalDifficulty env front), ?_, ?_, ?_⟩
      · rw [List.length_append, List.length_singleton, List.getElem?_cons_succ, heirsOf_getElem?,
          List.getElem?_concat_length, List.take_left]
        rfl
      · exact (tipHash_concat base.hash front last).symm
      · simp only [heirOf, totalDifficulty, List.map_append, List.map_singleton, List.sum_append,
          List.sum_singleton, add_assoc]

variable [DecidableEq Hash]

/-- A header that has not arrived is no heir. -/
theorem Synced.noHeir (synced : Synced env genesis headers present chain)
    (oneChain : OneChain env genesis.hash headers) (inside : hdr ∈ headers)
    (absent : ¬ present hdr) : blockchainFind chain (env.hash256 hdr) = .ok none := by
  have notInherited : ∀ heir ∈ chain.heirs, heir.hash ≠ env.hash256 hdr := by
    intro heir isHeir same
    have hashes := List.mem_map_of_mem (f := BlockchainHeir.hash) isHeir
    rw [synced.heirs, List.map_cons, heirsOf_hash, same] at hashes
    obtain ⟨notGenesis, distinct⟩ := List.nodup_cons.1 oneChain.distinct
    rcases List.mem_cons.1 hashes with isGenesis | isLeading
    · exact notGenesis (isGenesis ▸ List.mem_map_of_mem inside)
    · obtain ⟨other, otherInside, sameHash⟩ := List.mem_map.1 isLeading
      rw [segments_leading] at otherInside
      have isPresent := List.mem_takeWhile_imp otherInside
      have isSame := List.inj_on_of_nodup_map distinct ((List.takeWhile_sublist _).subset
        otherInside) inside sameHash
      rw [isSame] at isPresent
      exact absent (by simpa using isPresent)
  refine SearchTree.tfind_of_absent synced.indexed.live fun ref entry same => ?_
  obtain ⟨heir, -, stored, sameHash⟩ := heirHash_eq_ok.1 same
  exact notInherited heir (List.mem_of_getElem? stored) sameHash

omit [DecidableEq Hash] in
theorem indexHashes_map (runs : List (SatoshiBlockHeader Hash × List (SatoshiBlockHeader Hash))) :
    indexHashes env (runs.map (Prod.map env.hash256 id)) = (spread runs).map env.hash256 := by
  rw [indexHashes, List.flatMap_map, spread, List.map_flatMap]
  rfl

omit [DecidableEq Hash] [DecidablePred present] in
/-- The parts of the chain have different hashes. -/
theorem OneChain.distinct_of_sublist (oneChain : OneChain env genesis.hash headers)
    {part : List (SatoshiBlockHeader Hash)} (isPart : part.Sublist headers) :
    (genesis.hash :: part.map env.hash256).Nodup :=
  oneChain.distinct.sublist ((isPart.map env.hash256).cons_cons genesis.hash)

/-- The header continues the heirs. -/
theorem Synced.step_leading {run : List (SatoshiBlockHeader Hash)}
    {rest : List (SatoshiBlockHeader Hash × List (SatoshiBlockHeader Hash))}
    {blockHash : Option Hash} (synced : Synced env genesis headers present chain)
    (oneChain : OneChain env genesis.hash headers) (inside : hdr ∈ headers)
    (absent : ¬ present hdr) (names : blockHash = none ∨ blockHash = some (env.hash256 hdr))
    (enough : headers.length + 1 < fuel)
    (before : segments present headers = (left, behind hdr run rest))
    (afterwards : segments later headers = (left ++ hdr :: run, rest)) :
    ∃ after, blockchainAdd fuel env chain blockHash hdr = .ok (0, after) ∧
      Synced env genesis headers later after := by
  have noHeir := synced.noHeir oneChain inside absent
  obtain ⟨runs, lined, keys⟩ := synced.runs
  rw [before, map_behind] at keys
  -- the new leading headers
  have isPrefix : left ++ hdr :: run ++ headers.dropWhile (fun h => later h) = headers := by
    have isLeading := segments_leading later headers
    rw [afterwards] at isLeading
    exact (congrArg (· ++ _) isLeading).trans List.takeWhile_append_dropWhile
  have linked := oneChain.linked
  rw [← isPrefix, List.append_assoc, follows_append, follows_append] at linked
  have parts := segments_sublist later headers
  rw [afterwards] at parts
  have isSubset : ∀ h ∈ hdr :: run, h ∈ headers := fun h member =>
    parts.subset (List.mem_append_left _ (List.mem_append_right _ member))
  have positive : ∀ h ∈ hdr :: run, 0 < env.compactUint256ToBdiff h.bits :=
    fun h member => oneChain.positive h (isSubset h member)
  have lengths : (left ++ hdr :: run).length ≤ headers.length :=
    ((List.sublist_append_left _ _).trans parts).length_le
  rw [List.length_append] at lengths
  obtain ⟨tip, tipStored, isTip, tipDifficulty⟩ := tip_stored env genesis left
  have distinct := oneChain.distinct_of_sublist parts
  have tipDistinct : (tipHash env genesis.hash left :: ([] ++ hdr :: run).map env.hash256 ++
      indexHashes env (rest.map (Prod.map env.hash256 id))).Nodup := by
    obtain ⟨front, isFront⟩ := hashes_eq_concat env genesis.hash left
    rw [List.map_append, List.map_append, ← List.cons_append, ← List.cons_append, isFront,
      List.append_assoc, List.append_assoc] at distinct
    rw [indexHashes_map]
    exact (List.nodup_append.1 distinct).2.1
  have waiting : (runs.map ChainRun.key).Perm (behind (env.hash256 hdr) run
      (behind (tipHash env genesis.hash left) [] (rest.map (Prod.map env.hash256 id)))) := keys
  have shorter : ([] ++ hdr :: run).length < fuel := by
    rw [List.nil_append]
    omega
  obtain ⟨placed, joined, others, lets, placedLined, isKey, othersKeys⟩ :=
    letIn_places lined noHeir waiting linked.2.1 tipDistinct positive shorter
  obtain ⟨isMissing, isRun⟩ := Prod.mk.inj isKey
  rw [List.nil_append] at isRun
  have blocksLength : joined.blocks.length = (hdr :: run).length := by
    rw [← isRun]
    exact (List.length_map _).symm
  -- the run becomes heirs
  have height : chain.height = left.length := by rw [synced.height, before]
  have heirs : chain.heirs = genesis :: heirsOf env genesis.cumulativeDifficulty left := by
    rw [synced.heirs, before]
  have placedIndexed : HeirsIndexed { chain with candidatesList := placed } :=
    ⟨synced.indexed.index, synced.indexed.distinct⟩
  have heirsLength : chain.heirs.length = chain.height + 1 := by
    rw [heirs, height, List.length_cons, heirsOf_length]
  have stored : chain.heirs[chain.height]? = some tip := by
    rw [heirs, height]
    exact tipStored
  have fresh : (chain.heirs.map BlockchainHeir.hash ++
      joined.blocks.map fun block => env.hash256 block.2).Nodup := by
    have hashes : joined.blocks.map (fun block => env.hash256 block.2) =
        (hdr :: run).map env.hash256 := by
      rw [← isRun, ChainRun.headers, List.map_map]
      rfl
    rw [heirs, hashes, List.map_cons, heirsOf_hash, List.cons_append, ← List.map_append]
    exact oneChain.distinct_of_sublist ((List.sublist_append_left _ _).trans parts)
  have blocksPositive : ∀ block ∈ joined.blocks, 0 < env.compactUint256ToBdiff block.2.bits := by
    intro block member
    apply positive block.2
    rw [← isRun]
    exact List.mem_map_of_mem member
  have room : chain.height + joined.blocks.length < blockchainDefaultAllocSize := by
    have capacity := oneChain.room
    rw [blocksLength, height]
    omega
  have follows : Follows env tip.hash joined.headers := by
    rw [isTip, isRun]
    exact linked.2.1
  have enoughBlocks : joined.blocks.length < fuel := by omega
  obtain ⟨after, rule, afterLined, afterIndexed, afterHeirs, afterHeight, afterSize⟩ :=
    ruleIV_promotes placedLined placedIndexed heirsLength stored (isTip.trans isMissing.symm)
      synced.capacity room follows fresh blocksPositive enoughBlocks
  refine ⟨after, ?_, ⟨others, afterLined, ?_⟩, ?_, ?_, afterIndexed,
    afterSize.trans synced.capacity⟩
  · rw [blockchainAdd_eq, Exec.assert_of names, Exec.ok_bind, lets, Exec.ok_bind]
    dsimp only
    rw [rule, Exec.ok_bind]
  · rw [afterwards]
    exact othersKeys
  · rw [afterHeirs, afterwards, heirs, isRun, tipDifficulty, heirsOf_append]
    rfl
  · rw [afterHeight, afterwards, blocksLength, height, List.length_append]

/-- The header joins or starts a run that waits for another one. -/
theorem Synced.step_waiting {run leading middle : List (SatoshiBlockHeader Hash)}
    {front rest : List (SatoshiBlockHeader Hash × List (SatoshiBlockHeader Hash))}
    {gap : SatoshiBlockHeader Hash} {blockHash : Option Hash}
    (synced : Synced env genesis headers present chain)
    (oneChain : OneChain env genesis.hash headers) (inside : hdr ∈ headers)
    (absent : ¬ present hdr) (same : ∀ other ∈ headers, other ≠ hdr → present other → later other)
    (names : blockHash = none ∨ blockHash = some (env.hash256 hdr))
    (arrives : later hdr) (enough : headers.length + 1 < fuel)
    (before : segments present headers =
      (leading, front ++ behind gap middle (behind hdr run rest)))
    (afterwards : segments later headers = (leading, front ++ (gap, middle ++ hdr :: run) :: rest)) :
    ∃ after, blockchainAdd fuel env chain blockHash hdr = .ok (0, after) ∧
      Synced env genesis headers later after := by
  have noHeir := synced.noHeir oneChain inside absent
  obtain ⟨runs, lined, keys⟩ := synced.runs
  have parts := segments_sublist later headers
  rw [afterwards] at parts
  -- the run that waits for `gap`
  have isSegment : (gap, middle ++ hdr :: run) ∈ (segments later headers).2 := by
    rw [afterwards]
    exact List.mem_append_right _ List.mem_cons_self
  obtain ⟨-, gapAbsent, -, start, stop, isSplit, -⟩ := mem_segments.1 isSegment
  have gapInside : gap ∈ headers := by
    rw [isSplit]
    exact List.mem_append_right _ List.mem_cons_self
  have gapNotPresent : ¬ present gap := by
    intro isPresent
    refine gapAbsent (same gap gapInside ?_ isPresent)
    rintro rfl
    exact gapAbsent arrives
  have linked := oneChain.linked
  rw [isSplit, follows_append] at linked
  have follows := (follows_append.1 linked.2.2).1
  have isSubset : ∀ h ∈ hdr :: run, h ∈ headers := by
    intro h member
    rw [isSplit]
    refine List.mem_append_right _ (List.mem_cons_of_mem _ (List.mem_append_left _ ?_))
    exact List.mem_append_right _ member
  have positive : ∀ h ∈ hdr :: run, 0 < env.compactUint256ToBdiff h.bits :=
    fun h member => oneChain.positive h (isSubset h member)
  have lengths := congrArg List.length isSplit
  rw [List.length_append, List.length_cons, List.length_append] at lengths
  have shorter : (middle ++ hdr :: run).length < fuel := by omega
  have distinct : (env.hash256 gap :: (middle ++ hdr :: run).map env.hash256 ++
      indexHashes env ((front ++ rest).map (Prod.map env.hash256 id))).Nodup := by
    have whole := (List.nodup_cons.1 (oneChain.distinct_of_sublist parts)).2
    rw [List.map_append, spread_append, List.nodup_append] at whole
    have moved : (spread front ++ spread ((gap, middle ++ hdr :: run) :: rest)).Perm
        ((gap :: (middle ++ hdr :: run)) ++ spread (front ++ rest)) := by
      rw [spread_append]
      show (spread front ++ ((gap :: (middle ++ hdr :: run)) ++ spread rest)).Perm _
      rw [← List.append_assoc, ← List.append_assoc]
      exact List.perm_append_comm.append_right _
    rw [indexHashes_map, ← List.map_cons, ← List.map_append]
    exact ((moved.map env.hash256).nodup_iff).1 whole.2.1
  have waiting : (runs.map ChainRun.key).Perm (behind (env.hash256 hdr) run
      (behind (env.hash256 gap) middle ((front ++ rest).map (Prod.map env.hash256 id)))) := by
    rw [before, List.map_append, map_behind, map_behind] at keys
    rw [List.map_append]
    exact keys.trans (behind_perm _ _ _ _ _ _)
  obtain ⟨placed, joined, others, lets, placedLined, isKey, othersKeys⟩ :=
    letIn_places lined noHeir waiting follows distinct positive shorter
  have gapNoHeir : blockchainFind { chain with candidatesList := placed } joined.missing =
      .ok none := by
    rw [(Prod.mk.inj isKey).1]
    exact synced.noHeir oneChain gapInside gapNotPresent
  refine ⟨{ chain with candidatesList := placed }, ?_, ⟨joined :: others, placedLined, ?_⟩, ?_, ?_,
    ⟨synced.indexed.index, synced.indexed.distinct⟩, synced.capacity⟩
  · rw [blockchainAdd_eq, Exec.assert_of names, Exec.ok_bind, lets, Exec.ok_bind]
    dsimp only
    rw [ruleIV_waits placedLined gapNoHeir, Exec.ok_bind]
  · rw [afterwards, List.map_cons, isKey, List.map_append, List.map_cons]
    rw [List.map_append] at othersKeys
    exact (othersKeys.cons _).trans List.perm_middle.symm
  · rw [afterwards]
    have heirs := synced.heirs
    rwa [before] at heirs
  · rw [afterwards]
    have height := synced.height
    rwa [before] at height

/-- One of the headers arrives. -/
theorem Synced.step {blockHash : Option Hash} (synced : Synced env genesis headers present chain)
    (oneChain : OneChain env genesis.hash headers) (inside : hdr ∈ headers)
    (absent : ¬ present hdr) (arrives : later hdr)
    (same : ∀ other, other ≠ hdr → (later other ↔ present other))
    (names : blockHash = none ∨ blockHash = some (env.hash256 hdr))
    (enough : headers.length + 1 < fuel) :
    ∃ after, blockchainAdd fuel env chain blockHash hdr = .ok (0, after) ∧
      Synced env genesis headers later after := by
  obtain ⟨left, right, isSplit⟩ := List.append_of_mem inside
  have elsewhere : ∀ other ∈ left ++ right, later other ↔ present other := by
    intro other member
    apply same other
    rintro rfl
    have distinct := ((List.nodup_cons.1 oneChain.distinct).2).of_map
    rw [isSplit, List.nodup_middle] at distinct
    exact (List.nodup_cons.1 distinct).1 member
  obtain ⟨run, rest, ⟨before, afterwards⟩ | ⟨leading, front, gap, middle, before, afterwards⟩⟩ :=
    segments_insert absent arrives elsewhere
  · rw [← isSplit] at before afterwards
    exact synced.step_leading oneChain inside absent names enough before afterwards
  · rw [← isSplit] at before afterwards
    exact synced.step_waiting oneChain inside absent
      (fun other _ differs => (same other differs).2) names arrives enough before afterwards

end Steps

/-! ## Runs -/

section Order

variable [DecidableEq Hash]

/-- Calls of `blockchain_add` one after the other, each with a hash or NULL; the results and the
block chain behind them. -/
def addAll (fuel : Nat) (env : ChainEnv Hash) (chain : Blockchain Hash) :
    List (Option Hash × SatoshiBlockHeader Hash) → Exec (List Int × Blockchain Hash)
  | [] => .ok ([], chain)
  | (blockHash, hdr) :: rest => do
      let (rc, chain) ← blockchainAdd fuel env chain blockHash hdr
      let (results, chain) ← addAll fuel env chain rest
      .ok (rc :: results, chain)

/-- Each call passes NULL or the hash of its header. -/
def Named (env : ChainEnv Hash) (calls : List (Option Hash × SatoshiBlockHeader Hash)) : Prop :=
  ∀ call ∈ calls, call.1 = none ∨ call.1 = some (env.hash256 call.2)

/-- `height` counts the leading headers that have arrived, the heirs above the genesis block are
these headers with the sums of the difficulties, and the list has one chain for each maximal run
of headers that have arrived beyond, whose head has the hash of the missing block. -/
structure InSync (env : ChainEnv Hash) (genesis : BlockchainHeir Hash)
    (headers arrived : List (SatoshiBlockHeader Hash)) (chain : Blockchain Hash) : Prop where
  height : chain.height = (headers.takeWhile fun hdr => hdr ∈ arrived).length
  heirs : chain.heirs.length = chain.height + 1 ∧ chain.heirs[0]? = some genesis
  heir : ∀ i hdr, (headers.takeWhile fun hdr => hdr ∈ arrived)[i]? = some hdr →
    ∃ heir, chain.heirs[i + 1]? = some heir ∧ heir.hash = env.hash256 hdr ∧ heir.hdr = hdr ∧
      heir.cumulativeDifficulty =
        genesis.cumulativeDifficulty + totalDifficulty env (headers.take (i + 1))
  chains : ∃ runs : List (ChainRun Hash),
    chain.candidatesList.chains.Perm (runs.map ChainRun.head) ∧
    (∀ run ∈ runs, run.At env chain.candidatesList) ∧
    (runs.map ChainRun.missing).Nodup ∧
    (∀ run ∈ runs, ∃ gap, run.missing = env.hash256 gap ∧
      IsRun (· ∈ arrived) headers gap run.headers) ∧
    ∀ gap blocks, IsRun (· ∈ arrived) headers gap blocks →
      ∃ run ∈ runs, run.missing = env.hash256 gap ∧ run.headers = blocks

variable {genesis : BlockchainHeir Hash} {headers arrived : List (SatoshiBlockHeader Hash)}

omit [DecidableEq Hash] in
theorem missing_nodup {indexed loose : Strand Hash} (lined : Lined env list indexed loose runs) :
    (runs.map ChainRun.missing).Nodup := by
  have isPart : ∀ others : List (ChainRun Hash), (others.map ChainRun.missing).Sublist
      ((others.flatMap (ChainRun.rows env)).map Prod.snd) := by
    intro others
    induction others with
    | nil => exact List.Sublist.refl _
    | cons run rest inductionHypothesis =>
        rw [List.flatMap_cons, List.map_append, ChainRun.rows, List.map_cons, List.map_cons,
          List.cons_append]
        exact (inductionHypothesis.trans (List.sublist_append_right _ _)).cons_cons _
  have keys := lined.keys
  rw [List.map_append] at keys
  exact (List.nodup_append.1 keys).2.1.sublist (isPart runs)

theorem Synced.inSync (synced : Synced env genesis headers (· ∈ arrived) chain) :
    InSync env genesis headers arrived chain := by
  have leading := segments_leading (· ∈ arrived) headers
  obtain ⟨runs, lined, keys⟩ := synced.runs
  refine ⟨?_, ⟨?_, ?_⟩, fun i hdr isHdr => ?_,
    ⟨runs, lined.chains, lined.isAt, missing_nodup lined, fun run inside => ?_,
      fun gap blocks isRun => ?_⟩⟩
  · rw [synced.height, leading]
  · rw [synced.heirs, synced.height, List.length_cons, heirsOf_length]
  · rw [synced.heirs]
    rfl
  · obtain ⟨later, isSplit⟩ := List.takeWhile_prefix (l := headers) fun hdr => hdr ∈ arrived
    have inRange := (List.getElem?_eq_some_iff.1 isHdr).1
    have sameFront : (headers.takeWhile fun hdr => hdr ∈ arrived).take i = headers.take i := by
      conv_rhs => rw [← isSplit, List.take_append_of_le_length (Nat.le_of_lt inRange)]
    have sameHdr : headers[i]? = some hdr := by
      rw [← isSplit, List.getElem?_append_left inRange]
      exact isHdr
    refine ⟨heirOf env (env.hash256 hdr) hdr
      (genesis.cumulativeDifficulty + totalDifficulty env (headers.take i)), ?_, rfl, rfl, ?_⟩
    · rw [synced.heirs, List.getElem?_cons_succ, heirsOf_getElem?, leading, isHdr, sameFront]
      rfl
    · rw [List.take_add_one, sameHdr]
      simp only [heirOf, totalDifficulty, Option.toList_some, List.map_append, List.map_singleton,
        List.sum_append, List.sum_singleton, add_assoc]
  · have isKey := keys.mem_iff.1 (List.mem_map_of_mem inside)
    obtain ⟨⟨gap, blocks⟩, isSegment, same⟩ := List.mem_map.1 isKey
    obtain ⟨isMissing, isBlocks⟩ := Prod.mk.inj same
    exact ⟨gap, isMissing.symm, isBlocks ▸ mem_segments.1 isSegment⟩
  · have isSegment := List.mem_map_of_mem (f := Prod.map env.hash256 id) (mem_segments.2 isRun)
    obtain ⟨run, inside, isKey⟩ := List.mem_map.1 (keys.mem_iff.2 isSegment)
    obtain ⟨isMissing, isBlocks⟩ := Prod.mk.inj isKey
    exact ⟨run, inside, isMissing, isBlocks⟩

/-- Calls with headers that have not arrived. -/
theorem Synced.calls {fuel : Nat} (oneChain : OneChain env genesis.hash headers)
    (enough : headers.length + 1 < fuel)
    {calls : List (Option Hash × SatoshiBlockHeader Hash)} (names : Named env calls)
    (arePart : ∀ call ∈ calls, call.2 ∈ headers)
    (distinct : (arrived ++ calls.map Prod.snd).Nodup)
    (synced : Synced env genesis headers (· ∈ arrived) chain) :
    ∃ after, addAll fuel env chain calls = .ok (List.replicate calls.length 0, after) ∧
      Synced env genesis headers (· ∈ arrived ++ calls.map Prod.snd) after := by
  induction calls generalizing chain arrived with
  | nil =>
      refine ⟨chain, rfl, ?_⟩
      rw [List.map_nil, List.append_nil]
      exact synced
  | cons call rest inductionHypothesis =>
      have absent : call.2 ∉ arrived := fun inside =>
        (List.nodup_append.1 distinct).2.2 _ inside _ List.mem_cons_self rfl
      obtain ⟨next, adds, nextSynced⟩ : ∃ next,
          blockchainAdd fuel env chain call.1 call.2 = .ok (0, next) ∧
            Synced env genesis headers (· ∈ arrived ++ [call.2]) next :=
        synced.step oneChain (arePart call List.mem_cons_self) absent (by simp)
          (fun other differs => by simp [differs]) (names call List.mem_cons_self) enough
      have moved : arrived ++ (call :: rest).map Prod.snd =
          arrived ++ [call.2] ++ rest.map Prod.snd := by
        rw [List.append_assoc]
        rfl
      rw [moved] at distinct ⊢
      obtain ⟨after, continues, afterSynced⟩ := inductionHypothesis
        (fun other inside => names other (List.mem_cons_of_mem _ inside))
        (fun other inside => arePart other (List.mem_cons_of_mem _ inside)) distinct nextSynced
      refine ⟨after, ?_, afterSynced⟩
      rw [addAll, adds, Exec.ok_bind]
      dsimp only
      rw [continues, Exec.ok_bind]
      rfl

theorem synced_blockchainInit (env : ChainEnv Hash) (genesisBlockHash : Option Hash)
    (genesisBlockHdr : Option (SatoshiBlockHeader Hash))
    (headers : List (SatoshiBlockHeader Hash)) :
    Synced env (genesisHeir env (genesisBlockHash.getD env.genesisBlockHash)
      (genesisBlockHdr.getD env.genesisBlockHdr)) headers (· ∈ ([] : List _))
      (blockchainInit env genesisBlockHash genesisBlockHdr) := by
  have nothing : segments (· ∈ ([] : List (SatoshiBlockHeader Hash))) headers = ([], []) :=
    segments_of_absent fun _ _ => List.not_mem_nil
  refine ⟨⟨[], ?_, ?_⟩, ?_, ?_, (sound_blockchainInit _ _ _).indexed, rfl⟩
  · exact ⟨trivial, fun _ impossible => absurd impossible List.not_mem_nil,
      fun _ impossible => absurd impossible List.not_mem_nil, List.Perm.refl _, List.nodup_nil,
      List.Perm.refl _, List.nodup_nil, fun _ impossible => absurd impossible List.not_mem_nil⟩
  · rw [nothing]
    exact List.Perm.refl _
  · rw [nothing]
    rfl
  · rw [nothing]
    rfl

/-- The headers of one chain, in any order: each call returns 0 and leaves the block chain in sync
with the headers that have arrived, and after the last one they all are heirs. -/
theorem synchronises_in_any_order {fuel : Nat} (genesisBlockHash : Option Hash)
    (genesisBlockHdr : Option (SatoshiBlockHeader Hash))
    {calls later : List (Option Hash × SatoshiBlockHeader Hash)}
    (oneChain : OneChain env (genesisBlockHash.getD env.genesisBlockHash) headers)
    (order : ((calls ++ later).map Prod.snd).Perm headers) (names : Named env (calls ++ later))
    (enough : headers.length + 1 < fuel) :
    ∃ after, addAll fuel env (blockchainInit env genesisBlockHash genesisBlockHdr) calls =
        .ok (List.replicate calls.length 0, after) ∧
      InSync env (genesisHeir env (genesisBlockHash.getD env.genesisBlockHash)
        (genesisBlockHdr.getD env.genesisBlockHdr)) headers (calls.map Prod.snd) after ∧
      (later = [] → after.height = headers.length ∧ after.candidatesList.chains = [] ∧
        after.candidatesList.searchRoot = []) := by
  have distinct : ((calls ++ later).map Prod.snd).Nodup :=
    (order.nodup_iff).2 ((List.nodup_cons.1 oneChain.distinct).2).of_map
  rw [List.map_append] at order distinct
  have start := synced_blockchainInit env genesisBlockHash genesisBlockHdr headers
  obtain ⟨after, runs, synced⟩ := start.calls oneChain enough
    (fun call inside => names call (List.mem_append_left _ inside))
    (fun call inside => order.mem_iff.1 (List.mem_append_left _ (List.mem_map_of_mem inside)))
    (List.nodup_append.1 distinct).1
  rw [List.nil_append] at synced
  refine ⟨after, runs, synced.inSync, ?_⟩
  rintro rfl
  rw [List.map_nil, List.append_nil] at order
  have complete : segments (· ∈ calls.map Prod.snd) headers = (headers, []) :=
    segments_of_all fun hdr inside => order.mem_iff.2 inside
  obtain ⟨runs, lined, keys⟩ := synced.runs
  rw [complete] at keys
  have noRun : runs = [] := List.map_eq_nil_iff.1 keys.eq_nil
  subst noRun
  exact ⟨by rw [synced.height, complete], lined.chains.eq_nil, lined.entries.eq_nil⟩

/-- Three headers: the third, the first and the second. -/
theorem synchronises_in_any_order_three :
    ∃ after, addAll 5 sampleEnv (blockchainInit sampleEnv none none)
        [(none, sampleHdr (.block (.block .genesis 1) 2) 3), (none, sampleHdr .genesis 1),
          (some (.block (.block .genesis 1) 2), sampleHdr (.block .genesis 1) 2)] =
        .ok ([0, 0, 0], after) ∧
      InSync sampleEnv (genesisHeir sampleEnv .genesis sampleEnv.genesisBlockHdr)
        [sampleHdr .genesis 1, sampleHdr (.block .genesis 1) 2,
          sampleHdr (.block (.block .genesis 1) 2) 3]
        [sampleHdr (.block (.block .genesis 1) 2) 3, sampleHdr .genesis 1,
          sampleHdr (.block .genesis 1) 2] after ∧
      (([] : List (Option SampleHash × SatoshiBlockHeader SampleHash)) = [] →
        after.height = 3 ∧ after.candidatesList.chains = [] ∧
          after.candidatesList.searchRoot = []) := by
  refine synchronises_in_any_order none none ⟨⟨rfl, rfl, rfl, trivial⟩, by decide, ?_, by decide⟩
    (by decide) ?_ (by decide)
  · intro hdr inside
    show (0 : ℚ) < hdr.bits.toNat + 1
    exact Nat.cast_add_one_pos _
  · intro call inside
    simp only [List.cons_append, List.nil_append, List.mem_cons, List.not_mem_nil, or_false]
      at inside
    rcases inside with rfl | rfl | rfl
    · exact .inl rfl
    · exact .inl rfl
    · exact .inr rfl

end Order

end BitcoinClib.Chains
