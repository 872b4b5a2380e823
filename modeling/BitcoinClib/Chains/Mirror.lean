import BitcoinClib.Chains.Calls

/-!
Contract: the persistent header store that the callbacks of the block chain maintain.

Owns:
- the store, `on_remove_block` and `on_add_block` of the application, and their replay;
- `Mirrors`, a store that holds the heirs above the genesis block and nothing else;
- that after every completed call the replayed callbacks mirror the heirs.

`put` and `del` of the store succeed.
-/

namespace BitcoinClib.Chains

open BitcoinClib.Lib

variable {Hash : Type}

/-! ## The store -/

/-- `struct block_header_record`: what `on_add_block` sets in it. -/
structure BlockHeaderRecord (Hash : Type) where
  height : Nat
  hdr : SatoshiBlockHeader Hash
deriving DecidableEq

/-- `block_headers_db_t`: the record under a hash. -/
abbrev BlockHeadersDb (Hash : Type) := Hash → Option (BlockHeaderRecord Hash)

/-- A store before the first callback. -/
def BlockHeadersDb.empty : BlockHeadersDb Hash := fun _ => none

variable [DecidableEq Hash]

/-- `headers_db_put`. -/
def headersDbPut (db : BlockHeadersDb Hash) (hash : Hash) (record : BlockHeaderRecord Hash) :
    BlockHeadersDb Hash :=
  fun key => if key = hash then some record else db key

/-- `headers_db_del`. -/
def headersDbDel (db : BlockHeadersDb Hash) (hash : Hash) : BlockHeadersDb Hash :=
  fun key => if key = hash then none else db key

/-- `on_remove_block` and `on_add_block`. -/
def Callback.apply (db : BlockHeadersDb Hash) : Callback Hash → BlockHeadersDb Hash
  | .removeBlock hash _ => headersDbDel db hash
  | .addBlock hash height hdr => headersDbPut db hash ⟨height, hdr⟩

/-- The callbacks in the order they are issued. -/
def replay (db : BlockHeadersDb Hash) (callbacks : List (Callback Hash)) : BlockHeadersDb Hash :=
  callbacks.foldl Callback.apply db

/-- Every removal names an entry that is present at the height it gives. -/
def RemovalsPresent (db : BlockHeadersDb Hash) : List (Callback Hash) → Prop
  | [] => True
  | callback :: rest =>
      (∀ hash height, callback = .removeBlock hash height →
        ∃ hdr, db hash = some ⟨height, hdr⟩) ∧
      RemovalsPresent (callback.apply db) rest

/-- The store holds `heirs[i].hash -> (i, heirs[i].hdr)` for every `i` from 1 on. -/
def Mirrors (db : BlockHeadersDb Hash) (heirs : List (BlockchainHeir Hash)) : Prop :=
  ∀ hash record, db hash = some record ↔
    1 ≤ record.height ∧ ∃ heir, heirs[record.height]? = some heir ∧ heir.hash = hash ∧
      heir.hdr = record.hdr

theorem replay_append (db : BlockHeadersDb Hash) (first second : List (Callback Hash)) :
    replay db (first ++ second) = replay (replay db first) second :=
  List.foldl_append

/-! ## Removals and additions -/

namespace Mirrors

variable {db : BlockHeadersDb Hash} {kept heirs : List (BlockchainHeir Hash)}
  {last new : BlockchainHeir Hash}

/-- The last heir has an entry, and the store mirrors the others without it. -/
theorem removeLast (mirrors : Mirrors db (kept ++ [last])) (genesis : kept ≠ [])
    (distinct : ((kept ++ [last]).map BlockchainHeir.hash).Nodup) :
    db last.hash = some ⟨kept.length, last.hdr⟩ ∧ Mirrors (headersDbDel db last.hash) kept := by
  have position : 1 ≤ kept.length := List.length_pos_iff.2 genesis
  have entry : db last.hash = some ⟨kept.length, last.hdr⟩ :=
    (mirrors _ _).2 ⟨position, last, by simp, rfl, rfl⟩
  refine ⟨entry, fun hash record => ?_⟩
  by_cases removed : hash = last.hash
  · rw [headersDbDel, if_pos removed]
    refine ⟨(fun impossible => nomatch impossible), ?_⟩
    rintro ⟨-, heir, stored, same, -⟩
    rw [List.map_append, List.nodup_append] at distinct
    exact absurd (same.trans removed)
      (distinct.2.2 heir.hash (List.mem_map_of_mem (List.mem_of_getElem? stored)) last.hash
        (by simp))
  · rw [headersDbDel, if_neg removed, mirrors hash record]
    refine and_congr_right fun _ => exists_congr fun heir => ?_
    refine ⟨fun ⟨stored, same, header⟩ => ⟨?_, same, header⟩,
      fun ⟨stored, same, header⟩ => ⟨?_, same, header⟩⟩
    · rcases Nat.lt_trichotomy record.height kept.length with below | tip | above
      · rwa [List.getElem?_append_left below] at stored
      · rw [tip, List.getElem?_concat_length] at stored
        cases stored
        exact absurd same.symm removed
      · rw [List.getElem?_eq_none (by simp; omega)] at stored
        cases stored
    · rwa [List.getElem?_append_left (List.getElem?_eq_some_iff.1 stored).1]

/-- A new heir behind the last one. -/
theorem addLast (mirrors : Mirrors db heirs) (genesis : heirs ≠ [])
    (distinct : ((heirs ++ [new]).map BlockchainHeir.hash).Nodup) :
    Mirrors (headersDbPut db new.hash ⟨heirs.length, new.hdr⟩) (heirs ++ [new]) := by
  have position : 1 ≤ heirs.length := List.length_pos_iff.2 genesis
  rw [List.map_append, List.nodup_append] at distinct
  intro hash record
  by_cases added : hash = new.hash
  · rw [headersDbPut, if_pos added]
    constructor
    · rintro same
      cases same
      exact ⟨position, new, by simp, added.symm, rfl⟩
    · rintro ⟨-, heir, stored, same, header⟩
      rcases Nat.lt_or_ge record.height heirs.length with below | beyond
      · rw [List.getElem?_append_left below] at stored
        exact absurd (same.trans added)
          (distinct.2.2 heir.hash (List.mem_map_of_mem (List.mem_of_getElem? stored)) new.hash
            (by simp))
      · have tip : record.height = heirs.length := by
          have inRange := (List.getElem?_eq_some_iff.1 stored).1
          rw [List.length_append, List.length_singleton] at inRange
          omega
        rw [tip, List.getElem?_concat_length] at stored
        cases stored
        rw [← tip, header]
  · rw [headersDbPut, if_neg added, mirrors hash record]
    refine and_congr_right fun _ => exists_congr fun heir => ?_
    refine ⟨fun ⟨stored, same, header⟩ => ⟨?_, same, header⟩,
      fun ⟨stored, same, header⟩ => ⟨?_, same, header⟩⟩
    · rwa [List.getElem?_append_left (List.getElem?_eq_some_iff.1 stored).1]
    · rcases Nat.lt_or_ge record.height heirs.length with below | beyond
      · rwa [List.getElem?_append_left below] at stored
      · have tip : record.height = heirs.length := by
          have inRange := (List.getElem?_eq_some_iff.1 stored).1
          rw [List.length_append, List.length_singleton] at inRange
          omega
        rw [tip, List.getElem?_concat_length] at stored
        cases stored
        exact absurd same.symm added

/-- The callbacks for the heirs above a slot, the last one first. -/
theorem replayRemovals {gone : List (BlockchainHeir Hash)} (mirrors : Mirrors db (kept ++ gone))
    (genesis : kept ≠ []) (distinct : ((kept ++ gone).map BlockchainHeir.hash).Nodup) :
    RemovalsPresent db (removals gone kept.length) ∧
      Mirrors (replay db (removals gone kept.length)) kept := by
  induction gone using List.reverseRecOn generalizing db with
  | nil =>
      rw [List.append_nil] at mirrors
      exact ⟨trivial, mirrors⟩
  | append_singleton gone last inductionHypothesis =>
      rw [← List.append_assoc] at mirrors distinct
      have nonempty : kept ++ gone ≠ [] := List.append_ne_nil_of_left_ne_nil genesis gone
      obtain ⟨entry, rest⟩ := mirrors.removeLast nonempty distinct
      rw [List.map_append, List.nodup_append] at distinct
      obtain ⟨present, mirrored⟩ := inductionHypothesis rest distinct.1
      rw [removals_concat]
      refine ⟨⟨fun hash height same => ?_, present⟩, mirrored⟩
      cases same
      rw [List.length_append] at entry
      exact ⟨last.hdr, entry⟩

/-- The callbacks for new heirs. -/
theorem replayAdditions {promoted : List (BlockchainHeir Hash)} (mirrors : Mirrors db heirs)
    (genesis : heirs ≠ []) (distinct : ((heirs ++ promoted).map BlockchainHeir.hash).Nodup) :
    Mirrors (replay db (additions promoted heirs.length)) (heirs ++ promoted) := by
  induction promoted generalizing db heirs with
  | nil =>
      rw [List.append_nil]
      exact mirrors
  | cons new promoted inductionHypothesis =>
      rw [List.append_cons] at distinct ⊢
      have first : ((heirs ++ [new]).map BlockchainHeir.hash).Nodup := by
        rw [List.map_append, List.nodup_append] at distinct
        exact distinct.1
      have step := mirrors.addLast genesis first
      have rest := inductionHypothesis step (by simp) distinct
      rwa [List.length_append, List.length_singleton] at rest

end Mirrors

/-! ## Calls -/

variable {env : ChainEnv Hash} {before after : Blockchain Hash}

omit [DecidableEq Hash] in
/-- The last heirs of a sound block chain. -/
theorem Sound.genesis (sound : Sound before) : before.heirs ≠ [] := by
  intro empty
  have length := sound.length
  rw [empty] at length
  cases length

/-- A step from mirrored heirs: the removals come first, and the store mirrors the new heirs. -/
theorem HeirsStep.mirrors {db : BlockHeadersDb Hash} (step : HeirsStep before after)
    (soundBefore : Sound before) (soundAfter : Sound after)
    (mirrors : Mirrors (replay db before.callbacks) before.heirs) :
    Mirrors (replay db after.callbacks) after.heirs ∧
      ∃ slot gone promoted,
        after.callbacks =
          before.callbacks ++ (removals gone (slot + 1) ++ additions promoted (slot + 1)) ∧
        RemovalsPresent (replay db before.callbacks) (removals gone (slot + 1)) ∧
        ∃ kept, kept.length = slot + 1 ∧ after.heirs = kept ++ promoted := by
  cases step with
  | same heirs callbacks =>
      rw [heirs, callbacks]
      refine ⟨mirrors, before.height, [], [], ?_, trivial, before.heirs, soundBefore.length, ?_⟩
      · simp [removals, additions]
      · rw [List.append_nil]
  | reorganised slot promoted inside heirs callbacks =>
      have length : (before.heirs.take (slot + 1)).length = slot + 1 := by
        rw [List.length_take]
        omega
      have nonempty : before.heirs.take (slot + 1) ≠ [] := by
        intro empty
        rw [empty] at length
        cases length
      have distinct := soundBefore.indexed.distinct
      rw [← List.take_append_drop (slot + 1) before.heirs] at mirrors distinct
      obtain ⟨present, removed⟩ := mirrors.replayRemovals nonempty distinct
      have afterDistinct := soundAfter.indexed.distinct
      rw [heirs] at afterDistinct
      have added := removed.replayAdditions nonempty afterDistinct
      rw [length] at present added
      refine ⟨?_, slot, _, promoted, callbacks, present, _, length, heirs⟩
      rw [callbacks, replay_append, replay_append, heirs]
      exact added

/-- The replayed callbacks mirror the heirs in every state of a sequence of calls. -/
theorem Calls.mirrors {start : Blockchain Hash} {calls : List (SatoshiBlockHeader Hash × Int)}
    {db : BlockHeadersDb Hash} (run : Calls env start calls after) (startSound : Sound start)
    (startMirrors : Mirrors (replay db start.callbacks) start.heirs) :
    Mirrors (replay db after.callbacks) after.heirs := by
  induction run with
  | nil => exact startMirrors
  | snoc earlier call inductionHypothesis =>
      obtain ⟨fuel, blockHash, returns⟩ := call.completes
      have sound := earlier.sound startSound
      obtain ⟨afterSound, step⟩ := blockchainAdd_step sound returns
      exact (step.mirrors sound afterSound inductionHypothesis).1

/-- The persistent store mirrors the active chain after every completed call. The callbacks of
the call are removals and then additions: each removal names an entry present at its height, each
addition passes the height and the header stored in the heirs, and, where no hash is accepted
twice, there are none if the heirs stay as they were. -/
theorem callbacks_mirror_heirs {genesisBlockHash : Option Hash}
    {genesisBlockHdr : Option (SatoshiBlockHeader Hash)}
    {calls : List (SatoshiBlockHeader Hash × Int)} {hdr : SatoshiBlockHeader Hash} {rc : Int}
    (run : Calls env (blockchainInit env genesisBlockHash genesisBlockHdr) calls before)
    (call : Call env before hdr rc after) :
    Mirrors (replay .empty after.callbacks) after.heirs ∧
      after.heirs.length = after.height + 1 ∧
      ∃ removed added,
        after.callbacks = before.callbacks ++ (removed ++ added) ∧
        (∀ callback ∈ removed, ∃ hash height, callback = .removeBlock hash height) ∧
        RemovalsPresent (replay .empty before.callbacks) removed ∧
        (∀ callback ∈ added, ∃ height heir, after.heirs[height]? = some heir ∧
          callback = .addBlock heir.hash height heir.hdr) ∧
        ((acceptedHashes env (calls ++ [(hdr, rc)])).Nodup → after.heirs = before.heirs →
          removed = [] ∧ added = []) := by
  obtain ⟨fuel, blockHash, returns⟩ := call.completes
  have start := sound_blockchainInit env genesisBlockHash genesisBlockHdr
  have sound := run.sound start
  obtain ⟨afterSound, step⟩ := blockchainAdd_step sound returns
  have startMirrors : Mirrors (replay .empty
      (blockchainInit env genesisBlockHash genesisBlockHdr).callbacks)
      (blockchainInit env genesisBlockHash genesisBlockHdr).heirs := by
    refine fun hash record => ⟨(fun impossible => nomatch impossible), ?_⟩
    rintro ⟨position, heir, stored, -⟩
    rw [blockchainInit, List.getElem?_eq_none position] at stored
    cases stored
  obtain ⟨mirrors, slot, gone, promoted, callbacks, present, kept, length, heirs⟩ :=
    step.mirrors sound afterSound (run.mirrors start startMirrors)
  refine ⟨mirrors, afterSound.length, _, _, callbacks, ?_, present, ?_, fun distinct same => ?_⟩
  · intro callback inside
    obtain ⟨⟨heir, height⟩, -, rfl⟩ := List.mem_map.1 (List.mem_reverse.1 inside)
    exact ⟨_, _, rfl⟩
  · intro callback inside
    obtain ⟨⟨heir, height⟩, member, rfl⟩ := List.mem_map.1 inside
    obtain ⟨above, stored⟩ := List.mk_mem_zipIdx_iff_le_and_getElem?_sub.1 member
    refine ⟨height, heir, ?_, rfl⟩
    rw [heirs, List.getElem?_append_right (by omega), length]
    exact stored
  · have earlier := distinct
    rw [acceptedHashes_concat, List.nodup_append] at earlier
    obtain ⟨stored, known⟩ := run.stored earlier.1
    obtain ⟨-, unchanged, -⟩ :=
      blockchainAdd_stored sound stored (run.fresh stored known distinct) returns
    rw [unchanged same] at callbacks
    exact List.append_eq_nil_iff.1 (List.self_eq_append_right.1 callbacks)

/-- The second branch of a fork replaces the first. -/
theorem callbacks_mirror_heirs_fork : ∃ calls before after rc,
    Calls sampleEnv (blockchainInit sampleEnv none none) calls before ∧
    Call sampleEnv before (sampleHdr (.block .genesis 2) 3) rc after ∧
    before.heirs.map BlockchainHeir.hash = [.genesis, .block .genesis 1] ∧
    after.callbacks.length = 4 ∧
    Mirrors (replay .empty after.callbacks) after.heirs := by
  have runs : (do
      let (calls, before) ← addHeaders 30 sampleEnv (blockchainInit sampleEnv none none)
        [sampleHdr .genesis 1, sampleHdr .genesis 2]
      let (rc, after) ← blockchainAdd 30 sampleEnv before none (sampleHdr (.block .genesis 2) 3)
      .ok (before.heirs.map BlockchainHeir.hash, after.callbacks.length)) =
        (.ok ([.genesis, .block .genesis 1], 4) : Exec (List SampleHash × Nat)) := by
    decide +kernel
  simp only [Exec.bind_eq_ok] at runs
  obtain ⟨⟨calls, before⟩, earlier, ⟨rc, after⟩, adds, result⟩ := runs
  have run := calls_of_addHeaders earlier
  simp only [Exec.ok.injEq, Prod.mk.injEq] at result
  have fewer : before.heirs.length < blockchainDefaultAllocSize := by
    rw [← List.length_map (f := BlockchainHeir.hash), result.1]
    decide
  have call : Call sampleEnv before (sampleHdr (.block .genesis 2) 3) rc after :=
    ⟨fewer, 30, none, adds⟩
  exact ⟨calls, before, after, rc, run, call, result.1, result.2,
    (callbacks_mirror_heirs run call).1⟩

end BitcoinClib.Chains
