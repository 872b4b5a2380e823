import BitcoinClib.Rpc.Registry

/-!
Contract: the registry of requests and their history, over a run of requests.

Owns:
- the run of a new context, and the ids it asks for;
- `OnRecord`, the runs that the history has room for;
- `registry_agrees_iff`: the runs in which registry and history agree after every request;
- a run with one id too many.
-/

namespace BitcoinClib.Rpc

open BitcoinClib.Lib
open BitcoinClib.Types

variable {Json : Type}

/-! ## Runs -/

/-- The ids of some requests, without their case. -/
def requestedIds (calls : List (RequestCall Json)) : Finset Bytes :=
  (calls.map RequestCall.key).toFinset

/-- The requests of a new context, one after another. -/
def requestsRun (calls : List (RequestCall Json)) : Exec (CliContextPrivate Json) :=
  calls.foldlM request bitcoinCliContextPrivateNew

theorem requestsRun_concat (calls : List (RequestCall Json)) (call : RequestCall Json) :
    requestsRun (calls ++ [call]) = requestsRun calls >>= fun priv => request priv call :=
  foldlM_concat request bitcoinCliContextPrivateNew calls call

theorem requestedIds_concat (calls : List (RequestCall Json)) (call : RequestCall Json) :
    requestedIds (calls ++ [call]) = insert call.key (requestedIds calls) := by
  rw [requestedIds, requestedIds, List.map_append, List.toFinset_append, Finset.union_comm,
    List.map_singleton, List.toFinset_cons, List.toFinset_nil, insert_empty_eq,
    Finset.singleton_union]

theorem requestedIds_mono {made calls : List (RequestCall Json)} (before : made <+: calls) :
    requestedIds made ⊆ requestedIds calls := by
  intro key inside
  rw [requestedIds, List.mem_toFinset] at *
  exact (before.map RequestCall.key).subset inside

/-- The run returned, and the registry holds each id of its requests. -/
def OnRecord (calls : List (RequestCall Json)) : Prop :=
  ∃ priv, requestsRun calls = .ok priv ∧ Registered priv (requestedIds calls) ∧
    priv.sequence = calls.length ∧ (requestedIds calls).card ≤ jsonRpcRequestsMaxHistory

/-- The requests that the history has room for. -/
def FitsHistory (calls : List (RequestCall Json)) : Prop :=
  (requestedIds calls).card ≤ jsonRpcRequestsMaxHistory ∧ calls.length < 2 ^ 63

theorem OnRecord.concat {calls : List (RequestCall Json)} {call : RequestCall Json}
    (onRecord : OnRecord calls) (fits : FitsHistory (calls ++ [call])) :
    OnRecord (calls ++ [call]) := by
  obtain ⟨priv, runs, registered, sequence, -⟩ := onRecord
  obtain ⟨room, short⟩ := fits
  rw [List.length_append, List.length_singleton, ← sequence] at short
  rw [requestedIds_concat] at room
  obtain ⟨after, requests, entered, next⟩ := registered.request room short
  refine ⟨after, ?_, ?_, ?_, ?_⟩
  · rw [requestsRun_concat, runs, Exec.ok_bind, requests]
  · rw [requestedIds_concat]
    exact entered
  · rw [next, sequence, List.length_append, List.length_singleton]
  · rw [requestedIds_concat]
    exact room

/-- The registry keeps a request that the history has no more room for. -/
theorem OnRecord.evicts {calls : List (RequestCall Json)} {call : RequestCall Json}
    (onRecord : OnRecord calls)
    (more : jsonRpcRequestsMaxHistory < (requestedIds (calls ++ [call])).card)
    (short : (calls ++ [call]).length < 2 ^ 63) :
    ∃ priv, requestsRun (calls ++ [call]) = .ok priv ∧
      ∃ p ∈ priv.requestsRoot, ¬ (requestAt priv.memory p).Returns := by
  obtain ⟨priv, runs, registered, sequence, within⟩ := onRecord
  rw [List.length_append, List.length_singleton, ← sequence] at short
  rw [requestedIds_concat] at more
  rw [requestsRun_concat, runs, Exec.ok_bind]
  exact registered.request_evicts within more short

/-- A request that cannot be numbered. -/
theorem OnRecord.overflows {calls : List (RequestCall Json)} {call : RequestCall Json}
    (onRecord : OnRecord calls) (long : ¬ (calls ++ [call]).length < 2 ^ 63) :
    requestsRun (calls ++ [call]) = .fault .overflow := by
  obtain ⟨priv, runs, registered, sequence, within⟩ := onRecord
  rw [List.length_append, List.length_singleton, ← sequence] at long
  rw [requestsRun_concat, runs, Exec.ok_bind]
  exact registered.request_overflows within long

/-- The history is the bound of the registry. -/
theorem registry_guarded :
    Guarded OnRecord (fun calls : List (RequestCall Json) =>
      ∃ priv, requestsRun calls = .ok priv ∧ Agrees priv) FitsHistory where
  start := ⟨_, rfl, Registered.new, rfl, Nat.zero_le _⟩
  within := ⟨Nat.zero_le _, Nat.two_pow_pos 63⟩
  kept := OnRecord.concat
  enough := by
    intro calls onRecord
    obtain ⟨priv, runs, registered, -, -⟩ := onRecord
    exact ⟨priv, runs, registered.agrees⟩
  needed := by
    intro calls call onRecord property
    obtain ⟨after, reaches, agrees⟩ := property
    have short : (calls ++ [call]).length < 2 ^ 63 := by
      by_contra long
      rw [onRecord.overflows long] at reaches
      cases reaches
    refine ⟨?_, short⟩
    by_contra more
    obtain ⟨evicted, evicts, p, inside, released⟩ := onRecord.evicts (Nat.not_le.1 more) short
    rw [evicts] at reaches
    cases reaches
    exact released (agrees.live p inside)

/-- The registry and the history agree after every request of a run exactly when its ids are no
more than the history has places, and its requests can be numbered. -/
theorem registry_agrees_iff (calls : List (RequestCall Json)) :
    (∀ made, made <+: calls → ∃ priv, requestsRun made = .ok priv ∧ Agrees priv) ↔
      (requestedIds calls).card ≤ jsonRpcRequestsMaxHistory ∧ calls.length < 2 ^ 63 := by
  rw [registry_guarded.stages_iff]
  constructor
  · intro fits
    exact fits calls List.prefix_rfl
  · intro fits made before
    exact ⟨le_trans (Finset.card_le_card (requestedIds_mono before)) fits.1,
      lt_of_le_of_lt before.length_le fits.2⟩

/-! ## An eviction -/

/-- An id of three decimal digits. -/
def decimalId (n : Nat) : Bytes :=
  [0x30 + UInt8.ofNat (n / 100), 0x30 + UInt8.ofNat (n / 10 % 10), 0x30 + UInt8.ofNat (n % 10)]

/-- The request `help` under such an id. -/
def decimalCall (n : Nat) : RequestCall Unit :=
  ⟨some (decimalId n), ⟨List.replicate 36 0x30, List.length_replicate⟩, none, none⟩

/-- One request more than the history has places, each with an id of its own. -/
def evictingCalls : List (RequestCall Unit) :=
  (List.range (jsonRpcRequestsMaxHistory + 1)).map decimalCall

/-- The number that such an id reads as. -/
def decimalValue (id : Bytes) : Nat :=
  id.foldl (fun value digit => 10 * value + (digit.toNat - 0x30)) 0

theorem evictingCalls_values : (evictingCalls.map RequestCall.key).map decimalValue =
    List.range (jsonRpcRequestsMaxHistory + 1) := by decide +kernel

theorem evictingCalls_card :
    (requestedIds evictingCalls).card = jsonRpcRequestsMaxHistory + 1 := by
  have apart : (evictingCalls.map RequestCall.key).Nodup := by
    apply List.Nodup.of_map decimalValue
    rw [evictingCalls_values]
    exact List.nodup_range
  rw [requestedIds, List.toFinset_card_of_nodup apart, List.length_map, evictingCalls,
    List.length_map, List.length_range]

/-- As many requests as the history has places. -/
theorem fitsHistory_of_length {calls : List (RequestCall Json)}
    (few : calls.length ≤ jsonRpcRequestsMaxHistory) : FitsHistory calls := by
  have named : (requestedIds calls).card ≤ calls.length := by
    rw [requestedIds, ← List.length_map RequestCall.key]
    exact List.toFinset_card_le _
  exact ⟨named.trans few, lt_of_le_of_lt few (by decide)⟩

/-- The last request leaves a released one in the registry, and the cleanup runs into it. -/
theorem evictingCalls_dangle :
    (∃ priv, requestsRun evictingCalls = .ok priv ∧
      (∃ p ∈ priv.requestsRoot, ¬ (requestAt priv.memory p).Returns) ∧
      ¬ (bitcoinCliContextPrivateFree priv).Returns) ∧
    ¬ ∀ (calls : List (RequestCall Unit)), ∀ made, made <+: calls →
      ∃ priv, requestsRun made = .ok priv ∧ Agrees priv := by
  have earlier : OnRecord ((List.range jsonRpcRequestsMaxHistory).map decimalCall) := by
    apply registry_guarded.invariant_of_condition
    intro stage before
    apply fitsHistory_of_length
    have shorter := before.length_le
    rwa [List.length_map, List.length_range] at shorter
  have last : evictingCalls = (List.range jsonRpcRequestsMaxHistory).map decimalCall ++
      [decimalCall jsonRpcRequestsMaxHistory] := by
    rw [evictingCalls, List.range_succ, List.map_append, List.map_singleton]
  have more : jsonRpcRequestsMaxHistory < (requestedIds evictingCalls).card := by
    rw [evictingCalls_card]
    exact Nat.lt_succ_self _
  have short : evictingCalls.length < 2 ^ 63 := by
    rw [evictingCalls, List.length_map, List.length_range]
    decide
  rw [last] at more short
  obtain ⟨priv, runs, p, inside, released⟩ := earlier.evicts more short
  rw [← last] at runs
  refine ⟨⟨priv, runs, ⟨p, inside, released⟩, ?_⟩, ?_⟩
  · intro returns
    exact released (((bitcoinCliContextPrivateFree_returns_iff priv).1 returns).2 p inside)
  · intro claim
    obtain ⟨after, reaches, agrees⟩ := claim evictingCalls _ List.prefix_rfl
    rw [runs] at reaches
    cases reaches
    exact released (agrees.live p inside)

end BitcoinClib.Rpc
