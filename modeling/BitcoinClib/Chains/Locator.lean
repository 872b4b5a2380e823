import BitcoinClib.Lib.Buffer
import BitcoinClib.Chains.Calls
import Mathlib.Data.Nat.Find

/-!
Contract: the block locator, `blockchain_get_known_hashes`.

Owns:
- the loop with its counter, its step and its three ways to end;
- the locator itself: how far below the tip each entry lies (`reach`), and what an array
  that holds one looks like (`Locator`);
- `blockchainGetKnownHashes_iff`, for which heights and limits the function returns one.

Does not own: the message the hashes are sent in.
-/

namespace BitcoinClib.Chains

open BitcoinClib.Lib

variable {Hash : Type}

/-- The number of hashes asked for; both 0 and a larger number ask for 2000. -/
def effectiveMaxHashes (maxHashes : Nat) : Nat :=
  if maxHashes = 0 ∨ 2000 < maxHashes then 2000 else maxHashes

/-- `if(i >= 10) step *= 2` -/
def nextStep (i step : Nat) : Exec Nat :=
  if 10 ≤ i then Exec.checkedInt (step * 2) else .ok step

/-- The loop of `blockchain_get_known_hashes` with `remaining` indices from `i` on. -/
def knownHashesLoop (heirs : List (BlockchainHeir Hash)) :
    Nat → Nat → Nat → Nat → Nat → List Hash → Exec (Nat × List Hash)
  | 0, _, _, _, count, hashes => .ok (count, hashes)
  | remaining + 1, i, height, step, count, hashes => do
      let heir ← Exec.readAt heirs height
      let hashes ← Exec.writeAt hashes i heir.hash
      if height = 0 then .ok (count, hashes)
      else do
        let step ← nextStep i step
        -- a negative height is replaced by 0
        knownHashesLoop heirs remaining (i + 1) (height - step) step (count + 1) hashes

/-- `blockchain_get_known_hashes`: the count and the array. Where the caller brings no array
one is allocated. -/
def blockchainGetKnownHashes (env : ChainEnv Hash) (chain : Blockchain Hash) (maxHashes : Nat)
    (pHashes : Option (List Hash)) : Exec (Nat × List Hash) :=
  let maxHashes := effectiveMaxHashes maxHashes
  let hashes := pHashes.getD (List.replicate maxHashes env.zeroHash)
  knownHashesLoop chain.heirs maxHashes 0 chain.height 1 1 hashes

/-! ## The locator -/

/-- The distance between entry `i` and the next one: the first eleven entries follow each
other, then the distance doubles. -/
def gap (i : Nat) : Nat := if i < 10 then 1 else 2 ^ (i - 9)

/-- How far below the tip entry `i` lies. -/
def reach : Nat → Nat
  | 0 => 0
  | i + 1 => reach i + gap i

/-- The array starts with `count` hashes of heirs at the heights of a locator; what lies
behind them is as before. -/
structure Locator (chain : Blockchain Hash) (limit : Nat) (array : List Hash) (count : Nat)
    (hashes : List Hash) : Prop where
  tip : 0 < count
  bounded : count ≤ limit
  entry : ∀ i, i < count → ∃ heir, chain.heirs[chain.height - reach i]? = some heir ∧
    hashes[i]? = some heir.hash
  decreasing : ∀ i, i + 1 < count → chain.height - reach (i + 1) < chain.height - reach i
  /-- before the last entry the distances are not cut short -/
  exactGap : ∀ i, i + 2 < count → chain.height - reach i = chain.height - reach (i + 1) + gap i
  genesis : count < limit → chain.height - reach (count - 1) = 0
  behind : ∀ i, count ≤ i → hashes[i]? = array[i]?

/-- The function returns a locator and its length. -/
def ReturnsLocator (env : ChainEnv Hash) (chain : Blockchain Hash) (maxHashes : Nat)
    (pHashes : Option (List Hash)) : Prop :=
  ∃ count hashes,
    blockchainGetKnownHashes env chain maxHashes pHashes = .ok (count, hashes) ∧
      Locator chain (effectiveMaxHashes maxHashes)
        (pHashes.getD (List.replicate (effectiveMaxHashes maxHashes) env.zeroHash)) count hashes

theorem gap_pos (i : Nat) : 0 < gap i := by
  unfold gap
  split
  · exact Nat.one_pos
  · exact Nat.two_pow_pos _

theorem reach_mono {i j : Nat} (below : i ≤ j) : reach i ≤ reach j := by
  induction below with
  | refl => exact le_refl _
  | step _ ih => exact le_trans ih (Nat.le_add_right _ _)

theorem le_reach (i : Nat) : i ≤ reach i := by
  induction i with
  | zero => exact le_refl _
  | succ i ih =>
      have positive := gap_pos i
      show i + 1 ≤ reach i + gap i
      omega

/-- Before index `i` the variable `step` holds the last distance. -/
def stepBefore (i : Nat) : Nat := if i ≤ 10 then 1 else 2 ^ (i - 10)

theorem stepBefore_succ_of_lt {i : Nat} (dense : i < 10) : stepBefore (i + 1) = gap i := by
  rw [stepBefore, if_pos (by omega), gap, if_pos dense]

theorem stepBefore_of_lt {i : Nat} (dense : i < 10) : stepBefore i = gap i := by
  rw [stepBefore, if_pos (by omega), gap, if_pos dense]

theorem stepBefore_succ_of_le {i : Nat} (sparse : 10 ≤ i) : stepBefore (i + 1) = gap i := by
  rw [stepBefore, if_neg (by omega), gap, if_neg (by omega)]
  congr 1

theorem stepBefore_double {i : Nat} (sparse : 10 ≤ i) : stepBefore i * 2 = gap i := by
  rw [gap, if_neg (by omega), stepBefore]
  split
  · have ten : i = 10 := by omega
    subst ten
    decide
  · rw [← Nat.pow_succ]
    congr 1
    omega

/-- The next `step`, as the loop computes it at index `i`. -/
theorem nextStep_eq_ok {i step : Nat} :
    nextStep i (stepBefore i) = .ok step ↔ i < 40 ∧ step = gap i := by
  unfold nextStep
  by_cases sparse : 10 ≤ i
  · rw [if_pos sparse, stepBefore_double sparse, Exec.checkedInt_eq_ok]
    have fits : gap i < 2 ^ 31 ↔ i < 40 := by
      rw [gap, if_neg (by omega), Nat.pow_lt_pow_iff_right (by omega)]
      omega
    rw [fits, eq_comm]
  · rw [if_neg sparse, stepBefore_of_lt (by omega), Exec.ok.injEq, eq_comm]
    constructor
    · intro same
      exact ⟨by omega, same⟩
    · intro both
      exact both.2

theorem stepBefore_succ (i : Nat) : stepBefore (i + 1) = gap i := by
  rcases Nat.lt_or_ge i 10 with dense | sparse
  · exact stepBefore_succ_of_lt dense
  · exact stepBefore_succ_of_le sparse

/-! ## The loop -/

/-- A loop that returns was ended by its limit, with one entry too many counted, or by the
genesis block. -/
theorem knownHashesLoop_count {heirs : List (BlockchainHeir Hash)} {height : Nat} :
    ∀ {remaining i : Nat} {hashes written : List Hash} {count : Nat}, i ≤ 40 →
      knownHashesLoop heirs remaining i (height - reach i) (stepBefore i) (i + 1) hashes =
        .ok (count, written) →
      count = i + remaining + 1 ∨
        (0 < count ∧ count ≤ i + remaining ∧ count ≤ 41 ∧ height ≤ reach (count - 1)) := by
  intro remaining
  induction remaining with
  | zero =>
      intro i hashes written count inRange returned
      injection returned with same
      injection same with sameCount _
      exact Or.inl (by omega)
  | succ remaining ih =>
      intro i hashes written count inRange returned
      rw [knownHashesLoop] at returned
      obtain ⟨heir, -, returned⟩ := Exec.bind_eq_ok.1 returned
      obtain ⟨stored, -, returned⟩ := Exec.bind_eq_ok.1 returned
      by_cases atGenesis : height - reach i = 0
      · rw [if_pos atGenesis] at returned
        injection returned with same
        injection same with sameCount _
        subst sameCount
        exact Or.inr ⟨by omega, by omega, by omega, by rw [Nat.add_sub_cancel]; omega⟩
      · rw [if_neg atGenesis] at returned
        obtain ⟨step, stepped, returned⟩ := Exec.bind_eq_ok.1 returned
        obtain ⟨below, rfl⟩ := nextStep_eq_ok.1 stepped
        rw [Nat.sub_sub, ← reach, ← stepBefore_succ] at returned
        have outcome := ih (by omega) returned
        rcases outcome with ended | reached
        · exact Or.inl (by omega)
        · exact Or.inr ⟨reached.1, by omega, reached.2.2⟩

/-- The loop up to the genesis block, which is entry `last`. -/
theorem knownHashesLoop_reached {heirs : List (BlockchainHeir Hash)} {height last : Nat}
    (length : height < heirs.length) (inRange : last ≤ 40) (ends : height ≤ reach last)
    (before : ∀ i, i < last → reach i < height) :
    ∀ (remaining i : Nat) (hashes : List Hash), i ≤ last → last < i + remaining →
      last < hashes.length →
      ∃ written,
        knownHashesLoop heirs remaining i (height - reach i) (stepBefore i) (i + 1) hashes =
            .ok (last + 1, written) ∧
          (∀ j, i ≤ j → j ≤ last → ∃ heir, heirs[height - reach j]? = some heir ∧
            written[j]? = some heir.hash) ∧
          (∀ j, j < i ∨ last < j → written[j]? = hashes[j]?) := by
  intro remaining
  induction remaining with
  | zero =>
      intro i hashes started room _
      omega
  | succ remaining ih =>
      intro i hashes started room inside
      have heirInside : height - reach i < heirs.length := by omega
      obtain ⟨heir, stored⟩ : ∃ heir, heirs[height - reach i]? = some heir :=
        ⟨_, List.getElem?_eq_getElem heirInside⟩
      rw [knownHashesLoop, Exec.readAt_eq_ok.2 stored, Exec.ok_bind,
        Exec.writeAt_of_lt (by omega), Exec.ok_bind]
      have writtenHere : (hashes.set i heir.hash)[i]? = some heir.hash :=
        List.getElem?_set_self (by omega)
      by_cases atLast : i = last
      · subst atLast
        have atGenesis : height - reach i = 0 := by omega
        rw [if_pos atGenesis]
        refine ⟨_, rfl, ?_, ?_⟩
        · intro j above below
          obtain rfl : j = i := by omega
          exact ⟨heir, stored, writtenHere⟩
        · intro j outside
          exact List.getElem?_set_ne (by omega)
      · have above := before i (by omega)
        rw [if_neg (by omega), nextStep_eq_ok.2 ⟨by omega, rfl⟩, Exec.ok_bind, Nat.sub_sub,
          ← reach, ← stepBefore_succ]
        obtain ⟨written, returns, entries, others⟩ :=
          ih (i + 1) (hashes.set i heir.hash) (by omega) (by omega)
            (by rw [List.length_set]; exact inside)
        refine ⟨written, returns, ?_, ?_⟩
        · intro j started below
          by_cases here : j = i
          · subst here
            exact ⟨heir, stored, by rw [others j (by omega), writtenHere]⟩
          · exact entries j (by omega) below
        · intro j outside
          rw [others j (by omega)]
          exact List.getElem?_set_ne (by omega)

/-- The height of genesis is reached first by one entry. -/
theorem exists_first_reach (height : Nat) :
    ∃ last, height ≤ reach last ∧ ∀ i, i < last → reach i < height := by
  have reached : ∃ last, height ≤ reach last := ⟨height, le_reach height⟩
  classical
  refine ⟨Nat.find reached, Nat.find_spec reached, fun i below => ?_⟩
  exact Nat.lt_of_not_le (Nat.find_min reached below)

/-! ## When the function returns a locator -/

/-- The number of hashes asked for is positive and at most 2000. -/
theorem effectiveMaxHashes_pos (maxHashes : Nat) : 0 < effectiveMaxHashes maxHashes := by
  unfold effectiveMaxHashes
  split
  · omega
  · omega

/-- The count is right exactly where genesis is one of the first 41 entries and lies within
the limit. -/
theorem blockchainGetKnownHashes_iff (env : ChainEnv Hash) (chain : Blockchain Hash)
    (maxHashes : Nat) (pHashes : Option (List Hash))
    (length : chain.heirs.length = chain.height + 1)
    (room : ∀ array, pHashes = some array → effectiveMaxHashes maxHashes ≤ array.length) :
    ReturnsLocator env chain maxHashes pHashes ↔
      chain.height ≤ reach (min (effectiveMaxHashes maxHashes - 1) 40) := by
  have positive := effectiveMaxHashes_pos maxHashes
  unfold ReturnsLocator
  simp only [blockchainGetKnownHashes]
  generalize effectiveMaxHashes maxHashes = limit at *
  have inside : limit ≤ (pHashes.getD (List.replicate limit env.zeroHash)).length := by
    cases pHashes with
    | none => rw [Option.getD_none, List.length_replicate]
    | some array => exact room array rfl
  generalize pHashes.getD (List.replicate limit env.zeroHash) = array at *
  constructor
  · intro returnsLocator
    obtain ⟨count, hashes, returned, locator⟩ := returnsLocator
    have bounded := locator.bounded
    rcases knownHashesLoop_count (i := 0) (by omega) returned with ended | reached
    · omega
    · obtain ⟨positive, -, inRange, reached⟩ := reached
      exact le_trans reached (reach_mono (by omega))
  · intro reachable
    obtain ⟨last, ends, before⟩ := exists_first_reach chain.height
    have first : last ≤ min (limit - 1) 40 := by
      by_contra later
      exact absurd (before _ (Nat.lt_of_not_le later)) (by omega)
    have inChain : chain.height < chain.heirs.length := by omega
    obtain ⟨hashes, returns, entries, others⟩ :=
      knownHashesLoop_reached inChain (by omega) ends before limit 0 array (by omega) (by omega)
        (by omega)
    refine ⟨last + 1, hashes, returns, ?_⟩
    refine
      { tip := by omega
        bounded := by omega
        entry := fun i below => entries i (by omega) (by omega)
        decreasing := fun i below => ?_
        exactGap := fun i below => ?_
        genesis := fun _ => by rw [Nat.add_sub_cancel]; omega
        behind := fun i above => others i (by omega) }
    · have positiveGap := gap_pos i
      have above := before i (by omega)
      show chain.height - (reach i + gap i) < chain.height - reach i
      omega
    · have above := before (i + 1) (by omega)
      change reach i + gap i < chain.height at above
      show chain.height - reach i = chain.height - (reach i + gap i) + gap i
      omega

/-- The locator of the genesis block alone. -/
theorem blockchainGetKnownHashes_init :
    ReturnsLocator sampleEnv (blockchainInit sampleEnv none none) 0 none :=
  (blockchainGetKnownHashes_iff sampleEnv (blockchainInit sampleEnv none none) 0 none rfl
    (fun _ same => nomatch same)).2 (Nat.zero_le _)

/-- With one block above the genesis block and one hash asked for, two are counted. -/
theorem blockchainGetKnownHashes_limit : ∃ calls chain,
    Calls sampleEnv (blockchainInit sampleEnv none none) calls chain ∧
    chain.heirs.length = chain.height + 1 ∧
    blockchainGetKnownHashes sampleEnv chain 1 none = .ok (2, [.block .genesis 1]) ∧
    ¬ ReturnsLocator sampleEnv chain 1 none := by
  have runs : (do
      let (_, chain) ← addHeaders 30 sampleEnv (blockchainInit sampleEnv none none)
        [sampleHdr .genesis 1]
      let known ← blockchainGetKnownHashes sampleEnv chain 1 none
      .ok (chain.heirs.length, chain.height, known)) =
        (.ok (2, 1, 2, [.block .genesis 1]) : Exec (Nat × Nat × Nat × List SampleHash)) := by
    decide +kernel
  simp only [Exec.bind_eq_ok] at runs
  obtain ⟨⟨calls, chain⟩, earlier, known, returned, result⟩ := runs
  have run := calls_of_addHeaders earlier
  simp only [Exec.ok.injEq, Prod.mk.injEq] at result
  obtain ⟨heirs, height, rfl⟩ := result
  refine ⟨calls, chain, run, by rw [heirs, height], returned, ?_⟩
  intro returnsLocator
  obtain ⟨count, hashes, again, locator⟩ := returnsLocator
  rw [returned] at again
  cases again
  exact absurd locator.bounded (by decide)

end BitcoinClib.Chains
