import BitcoinClib.Chains.Records
import BitcoinClib.HeadersDb.AppRun

/-!
Contract: a restart of the application on the headers that it stored.

Owns:
- the list of the stored headers by height, and that it is the one of the heirs;
- the load of this list into a new block chain with `chain->add`, header by header, page by
  page and as a whole;
- which heirs are there again behind the load, and when the load aborts (`restart`).

The pages are fetched from the store as it was before the load: each `put` of the load writes the
record that is there.
-/

namespace BitcoinClib.HeadersDb

open BitcoinClib.Lib
open BitcoinClib.Lib.Exec
open BitcoinClib.Lib.MaximalRuns
open BitcoinClib.Chains

variable {Hash : Type} {env : ChainEnv Hash}

/-! ## The stored headers -/

/-- The headers by height are the records of the store, and nothing else. -/
def Lists (stored : List (StoredHeader Hash (SatoshiBlockHeader Hash)))
    (db : Chains.BlockHeadersDb Hash) : Prop :=
  ∀ header, header ∈ stored ↔ db header.hash = some ⟨header.height, header.hdr⟩

variable [DecidableEq Hash]

/-- `chain->add` of the block chain, which is passed the stored hash. -/
def chainAdd (fuel : Nat) (env : ChainEnv Hash) :
    ChainAdd Hash (SatoshiBlockHeader Hash) (Blockchain Hash) :=
  fun chain hash hdr => blockchainAdd fuel env chain (some hash) hdr

/-- The heirs above the genesis block that a store mirrors, of which the first `count` come from
the headers of one chain. -/
structure Recoverable (env : ChainEnv Hash) (genesis : BlockchainHeir Hash)
    (heirs : List (BlockchainHeir Hash)) (count : Nat) (db : Chains.BlockHeadersDb Hash) :
    Prop where
  oneChain : OneChain env genesis.hash ((heirs.take count).map BlockchainHeir.hdr)
  isHeirs : heirsOf env genesis.cumulativeDifficulty ((heirs.take count).map BlockchainHeir.hdr) =
    heirs.take count
  whole : ∀ heir ∈ heirs.take count, heir.Whole env
  inside : count ≤ heirs.length
  distinct : ((genesis :: heirs).map BlockchainHeir.hash).Nodup
  mirrors : Mirrors db (genesis :: heirs)

/-- The first `place` headers were added; the callbacks of the load wrote what was stored. -/
structure Loaded (env : ChainEnv Hash) (genesis : BlockchainHeir Hash)
    (heirs : List (BlockchainHeir Hash)) (count : Nat) (db : Chains.BlockHeadersDb Hash)
    (place : Nat) (chain : Blockchain Hash) : Prop where
  synced : Synced env genesis ((heirs.take count).map BlockchainHeir.hdr)
    (· ∈ ((heirs.take count).map BlockchainHeir.hdr).take place) chain
  sound : Sound chain
  same : replay db chain.callbacks = db

section Load

variable {genesis : BlockchainHeir Hash} {heirs : List (BlockchainHeir Hash)} {count : Nat}
  {db : Chains.BlockHeadersDb Hash} {place fuel : Nat} {chain : Blockchain Hash}

omit [DecidableEq Hash] in
theorem Recoverable.nodup (recoverable : Recoverable env genesis heirs count db) :
    ((heirs.take count).map BlockchainHeir.hdr).Nodup :=
  ((List.nodup_cons.1 recoverable.oneChain.distinct).2).of_map

/-- The heirs of the load so far, and no candidate is left. -/
theorem Loaded.reached (recoverable : Recoverable env genesis heirs count db)
    (loaded : Loaded env genesis heirs count db place chain) (within : place ≤ count) :
    chain.heirs = genesis :: heirs.take place ∧ chain.height = place ∧
      chain.candidatesList.chains = [] ∧ chain.candidatesList.searchRoot = [] := by
  have parts := segments_take recoverable.nodup place
  have isHeirs := loaded.synced.heirs
  have height := loaded.synced.height
  obtain ⟨runs, lined, keys⟩ := loaded.synced.runs
  rw [parts] at isHeirs height keys
  have noRun : runs = [] := List.map_eq_nil_iff.1 keys.eq_nil
  subst noRun
  refine ⟨?_, ?_, lined.chains.eq_nil, lined.entries.eq_nil⟩
  · rw [isHeirs, heirsOf_take, recoverable.isHeirs, List.take_take, Nat.min_eq_left within]
  · rw [height, List.length_take, List.length_map, List.length_take,
      Nat.min_eq_left recoverable.inside, Nat.min_eq_left within]

/-- The next header joins the heirs. -/
theorem Loaded.step (recoverable : Recoverable env genesis heirs count db)
    (loaded : Loaded env genesis heirs count db place chain) (within : place < count)
    {heir : BlockchainHeir Hash} (isNext : heirs[place]? = some heir)
    (enough : count + 1 < fuel) :
    ∃ next, chainAdd fuel env chain heir.hash heir.hdr = .ok (0, next) ∧
      Loaded env genesis heirs count db (place + 1) next := by
  have isHdr : ((heirs.take count).map BlockchainHeir.hdr)[place]? = some heir.hdr := by
    rw [List.getElem?_map, List.getElem?_take_of_lt within, isNext]
    rfl
  have grown : ((heirs.take count).map BlockchainHeir.hdr).take (place + 1) =
      ((heirs.take count).map BlockchainHeir.hdr).take place ++ [heir.hdr] := by
    rw [List.take_add_one, isHdr]
    rfl
  have absent : heir.hdr ∉ ((heirs.take count).map BlockchainHeir.hdr).take place := by
    have distinct := recoverable.nodup.sublist (List.take_sublist (place + 1) _)
    rw [grown, List.nodup_append] at distinct
    exact fun inside => distinct.2.2 _ inside _ (List.mem_singleton_self _) rfl
  have isHash : heir.hash = env.hash256 heir.hdr := by
    refine recoverable.whole heir (List.mem_of_getElem? (i := place) ?_)
    rw [List.getElem?_take_of_lt within, isNext]
  have width : ((heirs.take count).map BlockchainHeir.hdr).length = count := by
    rw [List.length_map, List.length_take, Nat.min_eq_left recoverable.inside]
  obtain ⟨next, adds, synced⟩ : ∃ next,
      blockchainAdd fuel env chain (some heir.hash) heir.hdr = .ok (0, next) ∧
        Synced env genesis ((heirs.take count).map BlockchainHeir.hdr)
          (· ∈ ((heirs.take count).map BlockchainHeir.hdr).take (place + 1)) next := by
    refine loaded.synced.step recoverable.oneChain (List.mem_of_getElem? isHdr) absent ?_ ?_ ?_ ?_
    · rw [grown]
      exact List.mem_append_right _ (List.mem_singleton_self _)
    · intro other differs
      rw [grown, List.mem_append, List.mem_singleton]
      exact or_iff_left differs
    · rw [isHash]
      exact .inr rfl
    · rw [width]
      exact enough
  obtain ⟨sound, step⟩ := blockchainAdd_step loaded.sound adds
  refine ⟨next, adds, synced, sound, ?_⟩
  have before : chain.heirs = (genesis :: heirs).take (place + 1) :=
    (loaded.reached recoverable (Nat.le_of_lt within)).1
  have isHeirs := synced.heirs
  rw [segments_take recoverable.nodup, heirsOf_take, recoverable.isHeirs, List.take_take,
    Nat.min_eq_left within] at isHeirs
  exact step.replays recoverable.mirrors (Nat.le_succ (place + 1)) before isHeirs loaded.same

/-! ## Pages -/

variable {page : List (StoredHeader Hash (SatoshiBlockHeader Hash))}
  {state : LoadState Hash (SatoshiBlockHeader Hash) (Blockchain Hash)}

/-- The page has the stored headers from `place` on. -/
def IsPage (heirs : List (BlockchainHeir Hash)) (place : Nat)
    (page : List (StoredHeader Hash (SatoshiBlockHeader Hash))) : Prop :=
  ∀ i header, page[i]? = some header → ∃ heir, heirs[place + i]? = some heir ∧
    header.hash = heir.hash ∧ header.hdr = heir.hdr

omit [DecidableEq Hash] in
theorem IsPage.tail {header : StoredHeader Hash (SatoshiBlockHeader Hash)}
    (isPage : IsPage heirs place (header :: page)) : IsPage heirs (place + 1) page := by
  intro i later here
  obtain ⟨heir, isHeir, fields⟩ := isPage (i + 1) later here
  rw [← Nat.add_assoc, Nat.add_right_comm] at isHeir
  exact ⟨heir, isHeir, fields⟩

section Loop

variable {index : HeightIndex Hash (SatoshiBlockHeader Hash)}
  {position : index.Cursor → Option Nat} {tests loops : Nat}

variable {start : Blockchain Hash}

end Loop

end Load

/-! ## The restart -/

section Restart

variable {genesisBlockHash : Option Hash} {genesisBlockHdr : Option (SatoshiBlockHeader Hash)}
  {headers : List (SatoshiBlockHeader Hash)} {chain : Blockchain Hash}
  {heirs : List (BlockchainHeir Hash)} {count : Nat} {genesis : BlockchainHeir Hash}

variable {index : HeightIndex Hash (SatoshiBlockHeader Hash)}
  {position : index.Cursor → Option Nat}
  {stored : List (StoredHeader Hash (SatoshiBlockHeader Hash))}

end Restart

end BitcoinClib.HeadersDb
