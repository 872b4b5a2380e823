import BitcoinClib.Chains.AnyOrder

/-!
Contract: one more header of a chain for a block chain in sync with it.

Owns:
- how far the heirs of a synced block chain go, in terms of the headers that have arrived;
- that a header among the heirs is refused, and that the one behind them makes the block chain
  higher;
- the block chain whose heirs are all the headers.

Does not own: who passes the headers, and in which order.
-/

namespace BitcoinClib.Chains

open BitcoinClib.Lib
open BitcoinClib.Lib.MaximalRuns

/-! ## Leading elements -/

section Leading

variable {α : Type} (keep : α → Bool) {elements : List α}

/-- The element behind the leading ones is not kept. -/
theorem takeWhile_next {element : α}
    (next : elements[(elements.takeWhile keep).length]? = some element) : keep element = false := by
  induction elements with
  | nil => cases next
  | cons first rest inductionHypothesis =>
      cases kept : keep first with
      | false =>
          rw [List.takeWhile_cons_of_neg (by rw [kept]; decide)] at next
          cases next
          exact kept
      | true =>
          rw [List.takeWhile_cons_of_pos kept] at next
          exact inductionHypothesis next

/-- There are as many leading elements as are kept from the start on. -/
theorem le_takeWhile_length {count : Nat}
    (kept : ∀ i, i < count → ∃ element, elements[i]? = some element ∧ keep element = true) :
    count ≤ (elements.takeWhile keep).length := by
  induction elements generalizing count with
  | nil =>
      cases count with
      | zero => exact Nat.zero_le _
      | succ count =>
          obtain ⟨element, impossible, -⟩ := kept 0 (Nat.succ_pos count)
          cases impossible
  | cons first rest inductionHypothesis =>
      cases count with
      | zero => exact Nat.zero_le _
      | succ count =>
          obtain ⟨element, isFirst, keeps⟩ := kept 0 (Nat.succ_pos count)
          cases isFirst
          rw [List.takeWhile_cons_of_pos keeps, List.length_cons]
          refine Nat.succ_le_succ (inductionHypothesis fun i below => ?_)
          exact kept (i + 1) (Nat.succ_lt_succ below)

end Leading

/-! ## Heirs of a synced block chain -/

variable {Hash : Type} [DecidableEq Hash] {env : ChainEnv Hash} {genesis : BlockchainHeir Hash}
  {headers arrived : List (SatoshiBlockHeader Hash)} {chain : Blockchain Hash} {fuel : Nat}

namespace Synced

/-- The heirs are the first headers. -/
theorem front (synced : Synced env genesis headers (· ∈ arrived) chain) :
    chain.height = (headers.takeWhile fun hdr => hdr ∈ arrived).length ∧
      chain.height ≤ headers.length ∧
      chain.heirs =
        genesis :: heirsOf env genesis.cumulativeDifficulty (headers.take chain.height) := by
  have leading := segments_leading (· ∈ arrived) headers
  have isPrefix := List.takeWhile_prefix (l := headers) fun hdr => hdr ∈ arrived
  have height : chain.height = (headers.takeWhile fun hdr => hdr ∈ arrived).length := by
    rw [synced.height, leading]
  refine ⟨height, ?_, ?_⟩
  · rw [height]
    exact isPrefix.length_le
  · rw [height, ← List.prefix_iff_eq_take.1 isPrefix, ← leading]
    exact synced.heirs

theorem hashes (synced : Synced env genesis headers (· ∈ arrived) chain) :
    chain.heirs.map BlockchainHeir.hash =
      (genesis.hash :: headers.map env.hash256).take (chain.height + 1) := by
  rw [synced.front.2.2, List.map_cons, heirsOf_hash, List.take_succ_cons, List.map_take]

/-- The headers below the height have arrived. -/
theorem arrived_of_lt (synced : Synced env genesis headers (· ∈ arrived) chain) {i : Nat}
    (below : i < chain.height) : ∃ hdr, headers[i]? = some hdr ∧ hdr ∈ arrived := by
  obtain ⟨height, -, -⟩ := synced.front
  rw [height] at below
  obtain ⟨later, isSplit⟩ := List.takeWhile_prefix (l := headers) fun hdr => hdr ∈ arrived
  have stored := List.getElem?_eq_getElem below
  have inside := List.mem_takeWhile_imp (List.mem_of_getElem? stored)
  refine ⟨_, ?_, of_decide_eq_true inside⟩
  rw [← stored, ← List.getElem?_append_left below, isSplit]

/-- The header above the tip has not. -/
theorem not_arrived (synced : Synced env genesis headers (· ∈ arrived) chain)
    {hdr : SatoshiBlockHeader Hash} (next : headers[chain.height]? = some hdr) :
    hdr ∉ arrived := by
  rw [synced.front.1] at next
  exact of_decide_eq_false (takeWhile_next (fun hdr => decide (hdr ∈ arrived)) next)

theorem le_height (synced : Synced env genesis headers (· ∈ arrived) chain) {count : Nat}
    (here : ∀ i, i < count → ∃ hdr, headers[i]? = some hdr ∧ hdr ∈ arrived) :
    count ≤ chain.height := by
  rw [synced.front.1]
  refine le_takeWhile_length _ fun i below => ?_
  obtain ⟨hdr, isHdr, inside⟩ := here i below
  exact ⟨hdr, isHdr, decide_eq_true inside⟩

/-- A header among the heirs is refused. -/
theorem known (synced : Synced env genesis headers (· ∈ arrived) chain)
    {hdr : SatoshiBlockHeader Hash} {i : Nat} (below : i < chain.height)
    (isHdr : headers[i]? = some hdr) :
    blockchainAdd fuel env chain none hdr = .ok (-1, chain) := by
  have isHeir : (chain.heirs.map BlockchainHeir.hash)[i + 1]? = some (env.hash256 hdr) := by
    rw [synced.hashes, List.getElem?_take_of_lt (Nat.succ_lt_succ below), List.getElem?_cons_succ,
      List.getElem?_map, isHdr]
    rfl
  rw [List.getElem?_map, Option.map_eq_some_iff] at isHeir
  obtain ⟨heir, stored, same⟩ := isHeir
  have finds : blockchainFind chain (env.hash256 hdr) = .ok (some ⟨chain.arena, i + 1⟩) :=
    synced.indexed.find_eq_some.2 ⟨heir, rfl, stored, same⟩
  rw [blockchainAdd, Exec.assert_of (.inl rfl), Exec.ok_bind, finds]
  rfl

/-- The header above the tip joins the heirs, with the headers that waited for it. -/
theorem next (synced : Synced env genesis headers (· ∈ arrived) chain)
    (oneChain : OneChain env genesis.hash headers) {hdr : SatoshiBlockHeader Hash}
    (isNext : headers[chain.height]? = some hdr) (enough : headers.length + 1 < fuel) :
    ∃ after, blockchainAdd fuel env chain none hdr = .ok (0, after) ∧
      Synced env genesis headers (· ∈ arrived ++ [hdr]) after ∧ chain.height < after.height := by
  obtain ⟨after, adds, afterSynced⟩ : ∃ after,
      blockchainAdd fuel env chain none hdr = .ok (0, after) ∧
        Synced env genesis headers (· ∈ arrived ++ [hdr]) after :=
    synced.step oneChain (List.mem_of_getElem? isNext) (synced.not_arrived isNext) (by simp)
      (fun other differs => by simp [differs]) (.inl rfl) enough
  refine ⟨after, adds, afterSynced, afterSynced.le_height fun i below => ?_⟩
  rcases Nat.lt_succ_iff_lt_or_eq.1 below with earlier | rfl
  · obtain ⟨other, isOther, inside⟩ := synced.arrived_of_lt earlier
    exact ⟨other, isOther, List.mem_append_left _ inside⟩
  · exact ⟨hdr, isNext, List.mem_append_right _ (List.mem_singleton_self _)⟩

/-- Where all headers are heirs, nothing waits. -/
theorem complete (synced : Synced env genesis headers (· ∈ arrived) chain)
    (all : chain.height = headers.length) :
    chain.heirs = genesis :: heirsOf env genesis.cumulativeDifficulty headers ∧
      chain.candidatesList.chains = [] ∧ chain.candidatesList.searchRoot = [] := by
  obtain ⟨-, -, heirs⟩ := synced.front
  rw [all, List.take_length] at heirs
  have parts : segments (· ∈ arrived) headers = (headers, []) := by
    refine segments_of_all fun hdr inside => ?_
    obtain ⟨i, isHdr⟩ := List.mem_iff_getElem?.1 inside
    have below := (List.getElem?_eq_some_iff.1 isHdr).1
    obtain ⟨other, isOther, hasArrived⟩ := synced.arrived_of_lt (all.symm ▸ below)
    rw [isHdr] at isOther
    cases isOther
    exact hasArrived
  obtain ⟨runs, lined, keys⟩ := synced.runs
  rw [parts] at keys
  have noRun : runs = [] := List.map_eq_nil_iff.1 keys.eq_nil
  subst noRun
  exact ⟨heirs, lined.chains.eq_nil, lined.entries.eq_nil⟩

end Synced

end BitcoinClib.Chains
