import BitcoinClib.Chains.Mirror
import BitcoinClib.Chains.AnyOrder
import BitcoinClib.Chains.Succession

/-!
Contract: what completed calls of `blockchain_add` record of the active chain.

Owns:
- `Recorded`, that an heir repeats the fields of his header, and that all heirs do;
- that the callbacks of a run mirror the heirs, and that the capacity stays;
- the heirs whose hash is that of their header, as the headers of one chain;
- that the callbacks of a shorter chain, replayed on the store of a longer one, leave it as
  it is.

Does not own: how a store is read again.
-/

namespace BitcoinClib.Chains

open BitcoinClib.Lib
open BitcoinClib.Lib.MaximalRuns

variable {Hash : Type} {env : ChainEnv Hash}

/-! ## Fields of the heirs -/

/-- The heir repeats `timestamp` and `bits` of his header. -/
structure BlockchainHeir.Recorded (heir : BlockchainHeir Hash) : Prop where
  timestamp : heir.timestamp = heir.hdr.timestamp.toUInt64
  bits : heir.bits = heir.hdr.bits

theorem heirOf_recorded (hash : Hash) (hdr : SatoshiBlockHeader Hash) (base : ℚ) :
    (heirOf env hash hdr base).Recorded := ⟨rfl, rfl⟩

theorem HeirsAlong.recorded {nodes : Heap (BlockInfo Hash)} {base : ℚ} {start : Option Ptr}
    {path : List Ptr} {heirs : List (BlockchainHeir Hash)}
    (along : HeirsAlong env nodes base start path heirs) :
    ∀ heir ∈ heirs, heir.Recorded := by
  induction along with
  | nil base =>
      intro heir inside
      cases inside
  | cons live header below inductionHypothesis =>
      intro heir inside
      rcases List.mem_cons.1 inside with rfl | inside
      · exact heirOf_recorded _ _ _
      · exact inductionHypothesis heir inside

section Runs

variable [DecidableEq Hash] {fuel : Nat} {before after chain : Blockchain Hash}

/-- A completed call writes the fields of the headers into the heirs, and keeps the capacity. -/
theorem blockchainAdd_recorded {blockHash : Option Hash} {hdr : SatoshiBlockHeader Hash}
    {rc : Int} (consistent : Consistent env before)
    (recorded : ∀ heir ∈ before.heirs, heir.Recorded)
    (returns : blockchainAdd fuel env before blockHash hdr = .ok (rc, after)) :
    (∀ heir ∈ after.heirs, heir.Recorded) ∧ after.maxSize = before.maxSize := by
  rcases (blockchainAdd_inversion returns).2 with
    ⟨-, rfl, -⟩ | ⟨-, placed, top, lets, rule⟩
  · exact ⟨recorded, rfl⟩
  · obtain ⟨dropped, place⟩ := letIn_inversion consistent.links lets
    obtain ⟨state, won, -, -, heirs, maxSize, outcome⟩ :=
      ruleIV_cases (consistent.withList place.links) rule
    rcases outcome with ⟨-, rfl⟩ | ⟨slot, parentHeir, head, path, promoted, -, -, -, succeeded⟩
    · refine ⟨?_, maxSize⟩
      rw [heirs]
      exact recorded
    · refine ⟨fun heir inside => ?_, succeeded.maxSize.trans maxSize⟩
      rw [succeeded.heirs, List.mem_append] at inside
      rcases inside with old | new
      · rw [heirs] at old
        exact recorded heir (List.mem_of_mem_take old)
      · exact succeeded.along.recorded heir new

variable {genesisBlockHash : Option Hash} {genesisBlockHdr : Option (SatoshiBlockHeader Hash)}
  {headers : List (SatoshiBlockHeader Hash)}

/-- In every state that completed calls reach, the heirs repeat the fields of their headers, and
the array has the size it was made with. -/
theorem Run.recorded {condition : Condition Hash}
    (run : Run env condition (blockchainInit env genesisBlockHash genesisBlockHdr) headers chain) :
    (∀ heir ∈ chain.heirs, heir.Recorded) ∧ chain.maxSize = blockchainDefaultAllocSize := by
  have whole : Consistent env chain ∧ (∀ heir ∈ chain.heirs, heir.Recorded) ∧
      chain.maxSize = blockchainDefaultAllocSize := by
    refine run.invariant (fun (reached : Blockchain Hash) => Consistent env reached ∧
      (∀ heir ∈ reached.heirs, heir.Recorded) ∧
        reached.maxSize = blockchainDefaultAllocSize) ?_ ?_
    · refine ⟨consistent_blockchainInit _ _ _, fun heir inside => ?_, rfl⟩
      cases List.mem_singleton.1 inside
      exact ⟨rfl, rfl⟩
    · intro fuel reached next blockHash hdr rc holds _ _ returns
      obtain ⟨consistent, recorded, capacity⟩ := holds
      obtain ⟨nextRecorded, same⟩ := blockchainAdd_recorded consistent recorded returns
      exact ⟨blockchainAdd_consistent consistent returns, nextRecorded, same.trans capacity⟩
  exact whole.2

/-- The store of a block chain that has only the genesis block is empty. -/
theorem mirrors_blockchainInit (env : ChainEnv Hash) (genesisBlockHash : Option Hash)
    (genesisBlockHdr : Option (SatoshiBlockHeader Hash)) :
    Mirrors (replay .empty (blockchainInit env genesisBlockHash genesisBlockHdr).callbacks)
      (blockchainInit env genesisBlockHash genesisBlockHdr).heirs := by
  intro hash record
  constructor
  · intro impossible
    cases impossible
  · rintro ⟨position, heir, stored, -⟩
    rw [blockchainInit, List.getElem?_eq_none position] at stored
    cases stored

/-- The callbacks mirror the heirs in every state that completed calls reach. -/
theorem Run.mirrors {condition : Condition Hash}
    (run : Run env condition (blockchainInit env genesisBlockHash genesisBlockHdr) headers chain) :
    Mirrors (replay .empty chain.callbacks) chain.heirs := by
  have whole : Sound chain ∧ Mirrors (replay .empty chain.callbacks) chain.heirs := by
    refine run.invariant (fun (reached : Blockchain Hash) =>
      Sound reached ∧ Mirrors (replay .empty reached.callbacks) reached.heirs)
      ⟨sound_blockchainInit _ _ _, mirrors_blockchainInit _ _ _⟩ ?_
    intro fuel reached next blockHash hdr rc holds _ _ returns
    obtain ⟨sound, mirrors⟩ := holds
    obtain ⟨nextSound, step⟩ := blockchainAdd_step sound returns
    exact ⟨nextSound, (step.mirrors sound nextSound mirrors).1⟩
  exact whole.2

end Runs

/-! ## Whole heirs -/

/-- The hash of the heir is that of the header he keeps. An heir who was abandoned and put back
keeps a header without the fields that `blockchain_heir_t` does not repeat. -/
def BlockchainHeir.Whole (env : ChainEnv Hash) (heir : BlockchainHeir Hash) : Prop :=
  heir.hash = env.hash256 heir.hdr

instance [DecidableEq Hash] (heir : BlockchainHeir Hash) : Decidable (heir.Whole env) :=
  inferInstanceAs (Decidable (heir.hash = env.hash256 heir.hdr))

theorem heirsOf_take (base : ℚ) (headers : List (SatoshiBlockHeader Hash)) (place : Nat) :
    heirsOf env base (headers.take place) = (heirsOf env base headers).take place := by
  induction headers generalizing base place with
  | nil => rw [List.take_nil, heirsOf, List.take_nil]
  | cons hdr rest inductionHypothesis =>
      cases place with
      | zero => rfl
      | succ place =>
          rw [List.take_succ_cons, heirsOf, heirsOf, List.take_succ_cons, inductionHypothesis]

/-- Of headers that are all different the first ones arrived. -/
theorem segments_take [DecidableEq Hash] {headers : List (SatoshiBlockHeader Hash)}
    (distinct : headers.Nodup) (place : Nat) :
    segments (· ∈ headers.take place) headers = (headers.take place, []) := by
  have absent : ∀ hdr ∈ headers.drop place, hdr ∉ headers.take place := by
    intro hdr later earlier
    rw [← List.take_append_drop place headers, List.nodup_append] at distinct
    exact distinct.2.2 hdr earlier hdr later rfl
  have parts : segments (· ∈ headers.take place) (headers.take place ++ headers.drop place) =
      (headers.take place ++ (segments (· ∈ headers.take place) (headers.drop place)).1,
        (segments (· ∈ headers.take place) (headers.drop place)).2) :=
    segments_of_present fun hdr inside => inside
  rwa [List.take_append_drop, segments_of_absent absent, List.append_nil] at parts

/-! ## Replay on the store of a longer chain -/

section Replay

variable [DecidableEq Hash] {before after : Blockchain Hash}

/-- Removals concern the hashes of the heirs that leave. -/
theorem replay_removals_other {gone : List (BlockchainHeir Hash)} {hash : Hash}
    (other : hash ∉ gone.map BlockchainHeir.hash) (db : BlockHeadersDb Hash) (slot : Nat) :
    replay db (removals gone slot) hash = db hash := by
  induction gone using List.reverseRecOn generalizing db with
  | nil => rfl
  | append_singleton gone last inductionHypothesis =>
      rw [List.map_append, List.mem_append, not_or] at other
      have differs : hash ≠ last.hash := by
        rintro rfl
        exact other.2 (List.mem_map_of_mem (List.mem_singleton_self _))
      rw [removals_concat]
      refine (inductionHypothesis other.1 _).trans ?_
      exact if_neg differs

/-- Additions of records a store has turn every store into it that differs at their hashes
only. -/
theorem replay_additions_eq {promoted : List (BlockchainHeir Hash)}
    {db target : BlockHeadersDb Hash} {slot : Nat}
    (records : ∀ i heir, promoted[i]? = some heir →
      target heir.hash = some ⟨slot + i, heir.hdr⟩)
    (others : ∀ hash, hash ∉ promoted.map BlockchainHeir.hash → db hash = target hash) :
    replay db (additions promoted slot) = target := by
  induction promoted generalizing db slot with
  | nil => exact funext fun hash => others hash List.not_mem_nil
  | cons heir rest inductionHypothesis =>
      have first : replay db (additions (heir :: rest) slot) =
          replay (headersDbPut db heir.hash ⟨slot, heir.hdr⟩) (additions rest (slot + 1)) := rfl
      rw [first]
      refine inductionHypothesis (fun i later stored => ?_) fun hash absent => ?_
      · have here := records (i + 1) later stored
        rwa [← Nat.add_assoc, Nat.add_right_comm] at here
      · by_cases same : hash = heir.hash
        · rw [headersDbPut, if_pos same, same]
          exact (records 0 heir rfl).symm
        · rw [headersDbPut, if_neg same]
          refine others hash fun inside => ?_
          rw [List.map_cons, List.mem_cons] at inside
          exact inside.elim same absent

/-- A step from the first heirs of a chain to more of them, replayed on the store of the chain,
leaves it as it is. -/
theorem HeirsStep.replays {db : BlockHeadersDb Hash} {heirs : List (BlockchainHeir Hash)}
    {shorter longer : Nat} (step : HeirsStep before after) (mirrors : Mirrors db heirs)
    (grows : shorter ≤ longer) (first : before.heirs = heirs.take shorter)
    (second : after.heirs = heirs.take longer) (same : replay db before.callbacks = db) :
    replay db after.callbacks = db := by
  cases step with
  | same _ callbacks =>
      rw [callbacks]
      exact same
  | reorganised slot promoted inside heirsEq callbacks =>
      have kept : (before.heirs.take (slot + 1)).length = slot + 1 := by
        rw [List.length_take]
        omega
      have isPromoted : promoted = (heirs.take longer).drop (slot + 1) := by
        rw [← second, heirsEq, List.drop_append_of_le_length (Nat.le_of_eq kept.symm),
          List.drop_of_length_le (Nat.le_of_eq kept), List.nil_append]
      rw [callbacks, replay_append, replay_append, same]
      refine replay_additions_eq (fun i heir stored => ?_) fun hash absent => ?_
      · refine (mirrors _ _).2 ⟨by simp only; omega, heir, ?_, rfl, rfl⟩
        rw [isPromoted, List.getElem?_drop] at stored
        have inRange := (List.getElem?_eq_some_iff.1 stored).1
        rw [List.length_take] at inRange
        rwa [List.getElem?_take_of_lt (by omega)] at stored
      · refine replay_removals_other (fun gone => absent ?_) db _
        have isSublist : (before.heirs.drop (slot + 1)).Sublist promoted := by
          rw [isPromoted, first]
          exact ((List.take_sublist_take_left grows).drop _)
        exact (isSublist.map _).subset gone

end Replay

end BitcoinClib.Chains
