import BitcoinClib.Lib.Stages
import BitcoinClib.Rpc.Requests

/-!
Contract: the registry of requests and their history, over one request.

Owns:
- `Agrees`, a registry that holds the requests of the history, each live and each once, so that a
  lookup and the cleanup touch live requests only;
- `Registered`, the state while the history has room, with one rule for each case of a request:
  a known id, a new one, one more than there is room for, and a number that does not fit.
-/

namespace BitcoinClib.Rpc

open BitcoinClib.Lib
open BitcoinClib.Types

variable {Json : Type}

/-! ## Agreement -/

/-- The requests of the registry are those of the history, each live and each once; a lookup
compares live requests only, and the cleanup releases each once. -/
structure Agrees (priv : CliContextPrivate Json) : Prop where
  entries : priv.requestsRoot.Perm (priv.history.filterMap id)
  once : priv.requestsRoot.Nodup
  live : ∀ p ∈ priv.requestsRoot, (requestAt priv.memory p).Returns
  lookup : ∀ key, (SearchTree.tfind (registryKey priv.memory) priv.requestsRoot key).Returns
  cleanup : (bitcoinCliContextPrivateFree priv).Returns

theorem jsonRpcRequestDataFree_returns (priv : CliContextPrivate Json) (p : Nat) :
    (jsonRpcRequestDataFree priv (some p)).Returns ↔ (requestAt priv.memory p).Returns :=
  Exec.returns_bind_iff fun _ _ => Exec.returns_ok _

theorem jsonRpcRequestDataFree_frame {priv after : CliContextPrivate Json} {p : Nat}
    (frees : jsonRpcRequestDataFree priv (some p) = .ok after) :
    after.memory = priv.memory.set p none ∧ after.requestsRoot = priv.requestsRoot ∧
      after.history = priv.history ∧ after.maxHistory = priv.maxHistory ∧
      after.count = priv.count ∧ after.sequence = priv.sequence := by
  rw [jsonRpcRequestDataFree, Exec.bind_eq_ok] at frees
  obtain ⟨data, -, same⟩ := frees
  cases same
  exact ⟨rfl, rfl, rfl, rfl, rfl, rfl⟩

/-- The cleanup returns when every request of the registry is live and there once. -/
theorem bitcoinCliContextPrivateFree_returns_iff (priv : CliContextPrivate Json) :
    (bitcoinCliContextPrivateFree priv).Returns ↔
      priv.requestsRoot.Nodup ∧ ∀ p ∈ priv.requestsRoot, (requestAt priv.memory p).Returns := by
  rw [bitcoinCliContextPrivateFree, Exec.returns_bind_iff fun _ _ => Exec.returns_ok _]
  have frame : ∀ (priv : CliContextPrivate Json) (p : Nat) (after : CliContextPrivate Json),
      jsonRpcRequestDataFree priv (some p) = .ok after → ∀ other,
        (requestAt after.memory other).Returns ↔
          other ≠ p ∧ (requestAt priv.memory other).Returns := by
    intro priv p after frees other
    rw [(jsonRpcRequestDataFree_frame frees).1]
    by_cases same : other = p
    · subst same
      exact iff_of_false requestAt_released fun both => both.1 rfl
    · rw [requestAt_set_of_ne same]
      exact (and_iff_right same).symm
  exact SearchTree.tdestroy_returns_iff jsonRpcRequestDataFree_returns frame

/-! ## Room in the history -/

/-- The key of the id that a request is looked up by. -/
def RequestCall.key (call : RequestCall Json) : Bytes :=
  foldChars (newRequestId call.requestId call.uuid).val

/-- The registry holds one request for each key, the history the same ones, and the places of the
history that come next are free. -/
structure Registered (priv : CliContextPrivate Json) (keys : Finset Bytes) : Prop where
  table : ∃ table, SearchTree.Table (registryKey priv.memory) priv.requestsRoot table ∧
    (table.map Prod.snd).toFinset = keys
  ring : priv.requestsRoot.Perm (priv.history.filterMap id)
  size : priv.history.length = jsonRpcRequestsMaxHistory
  count : priv.count = keys.card
  vacant : ∀ k, priv.count < k → k ≤ jsonRpcRequestsMaxHistory →
    priv.history[k % jsonRpcRequestsMaxHistory]? = some none
  maxHistory : priv.maxHistory = 0 ∨ priv.maxHistory = jsonRpcRequestsMaxHistory

namespace Registered

variable {priv after : CliContextPrivate Json} {keys : Finset Bytes}

/-- The registry of a new context. -/
theorem new : Registered (bitcoinCliContextPrivateNew : CliContextPrivate Json) ∅ where
  table := ⟨[], ⟨List.Perm.refl _, List.nodup_nil, fun _ inside => absurd inside List.not_mem_nil⟩,
    rfl⟩
  ring := by
    rw [bitcoinCliContextPrivateNew, List.filterMap_replicate_of_none rfl]
  size := List.length_replicate
  count := rfl
  vacant k _ _ := by
    rw [bitcoinCliContextPrivateNew, List.getElem?_replicate_of_lt]
    exact Nat.mod_lt k (by decide)
  maxHistory := Or.inl rfl

/-- Requests that keep their keys may be written. -/
theorem congr (registered : Registered priv keys)
    (root : after.requestsRoot = priv.requestsRoot) (history : after.history = priv.history)
    (maxHistory : after.maxHistory = priv.maxHistory) (count : after.count = priv.count)
    (same : ∀ p ∈ priv.requestsRoot, registryKey after.memory p = registryKey priv.memory p) :
    Registered after keys := by
  obtain ⟨table, holds, named⟩ := registered.table
  refine ⟨⟨table, ?_, named⟩, ?_, ?_, ?_, ?_, ?_⟩
  · rw [root]
    apply holds.congr
    intro row inside
    exact same row.1 (holds.entries.mem_iff.2 (List.mem_map_of_mem inside))
  · rw [root, history]
    exact registered.ring
  · rw [history]
    exact registered.size
  · rw [count]
    exact registered.count
  · rw [history, count]
    exact registered.vacant
  · rw [maxHistory]
    exact registered.maxHistory

theorem agrees (registered : Registered priv keys) : Agrees priv := by
  obtain ⟨table, holds, -⟩ := registered.table
  have live : ∀ p ∈ priv.requestsRoot, (requestAt priv.memory p).Returns := by
    intro p inside
    obtain ⟨key, reads⟩ := holds.live p inside
    obtain ⟨data, found, -⟩ := registryKey_eq_ok.1 reads
    exact ⟨data, found⟩
  exact ⟨registered.ring, holds.nodup, live, fun key => SearchTree.tfind_returns holds.live,
    (bitcoinCliContextPrivateFree_returns_iff priv).2 ⟨holds.nodup, live⟩⟩

theorem lt_of_mem (registered : Registered priv keys) {p : Nat} (inside : p ∈ priv.requestsRoot) :
    p < priv.memory.length := by
  obtain ⟨data, live⟩ := registered.agrees.live p inside
  exact lt_of_requestAt live

/-- The keys stay when a request comes into the memory. -/
theorem table_append (registered : Registered priv keys)
    (more : List (Option (RequestData Json))) :
    ∃ table, SearchTree.Table (registryKey (priv.memory ++ more)) priv.requestsRoot table ∧
      (table.map Prod.snd).toFinset = keys := by
  obtain ⟨table, holds, named⟩ := registered.table
  refine ⟨table, holds.congr fun row inside => ?_, named⟩
  have old := registered.lt_of_mem (holds.entries.mem_iff.2 (List.mem_map_of_mem inside))
  rw [registryKey, registryKey, requestAt_append old]

variable {given : Option Bytes} {uuid : UuidText}

/-- A request of the same id is there: the new one is released again. -/
theorem enterRegistry_known (registered : Registered priv keys)
    (known : foldChars (newRequestId given uuid).val ∈ keys) :
    ∃ node mid data, enterRegistry priv given uuid = .ok (node, mid) ∧
      requestAt mid.memory node = .ok data ∧ mid.sequence = priv.sequence ∧
      Registered mid keys := by
  obtain ⟨table, holds, named⟩ := registered.table_append
    [some (blankRequest (newRequestId given uuid))]
  rw [← named, List.mem_toFinset, List.mem_map] at known
  obtain ⟨⟨node, key⟩, row, same⟩ := known
  dsimp only at same
  subst same
  have inside : node ∈ priv.requestsRoot := holds.entries.mem_iff.2 (List.mem_map_of_mem row)
  have other : ∀ p ∈ priv.requestsRoot, p ≠ priv.memory.length :=
    fun p member => Nat.ne_of_lt (registered.lt_of_mem member)
  have searches := holds.tsearch_of_row row (registryKey_of_requestAt requestAt_new)
  have keeps : ∀ p ∈ priv.requestsRoot,
      requestAt ((priv.memory ++ [some (blankRequest (newRequestId given uuid))]).set
        priv.memory.length none) p = requestAt priv.memory p := by
    intro p member
    rw [requestAt_set_of_ne (other p member), requestAt_append (registered.lt_of_mem member)]
  obtain ⟨data, live⟩ := registered.agrees.live node inside
  refine ⟨node, { priv with
    memory := (priv.memory ++ [some (blankRequest (newRequestId given uuid))]).set
      priv.memory.length none
    jsonCalls := priv.jsonCalls ++ [] }, data, ?_, (keeps node inside).trans live, rfl, ?_⟩
  · rw [enterRegistry, searches, Exec.ok_bind]
    dsimp only
    rw [if_pos (other node inside), jsonRpcRequestDataFree, requestAt_new, Exec.ok_bind,
      Exec.ok_bind]
    rfl
  · refine registered.congr rfl rfl rfl rfl ?_
    intro p member
    rw [registryKey, registryKey, keeps p member]

/-- The place that the next request takes is free. -/
theorem next_vacant (registered : Registered priv keys)
    (room : keys.card < jsonRpcRequestsMaxHistory) :
    priv.history[(priv.count + 1) % jsonRpcRequestsMaxHistory]? = some none := by
  apply registered.vacant _ (Nat.lt_succ_self _)
  rw [registered.count]
  exact room

end Registered

/-- An item takes a free place of the history. -/
theorem filterMap_set_perm {α : Type} : ∀ {history : List (Option α)} {index : Nat} (item : α),
    history[index]? = some none →
      ((history.set index (some item)).filterMap id).Perm (item :: history.filterMap id)
  | [], _, _, vacant => by cases vacant
  | cell :: history, 0, item, vacant => by
      cases vacant
      exact List.Perm.refl _
  | none :: history, index + 1, item, vacant => by
      have later : history[index]? = some none := vacant
      have shorter := filterMap_set_perm item later
      exact shorter
  | some first :: history, index + 1, item, vacant => by
      have later : history[index]? = some none := vacant
      have shorter := filterMap_set_perm item later
      exact (shorter.cons first).trans (List.Perm.swap item first _)

/-- A request takes its place in the history, where `old` was released. -/
theorem enterHistory_eq {priv freed : CliContextPrivate Json} {req : Nat} {old : Option Nat}
    {data : RequestData Json}
    (size : priv.maxHistory = 0 ∨ priv.maxHistory = jsonRpcRequestsMaxHistory)
    (fits : priv.count + 1 < 2 ^ 63)
    (place : priv.history[(priv.count + 1) % jsonRpcRequestsMaxHistory]? = some old)
    (frees : jsonRpcRequestDataFree { priv with
      maxHistory := jsonRpcRequestsMaxHistory, count := priv.count + 1 } old = .ok freed)
    (same : freed.history = priv.history) (live : requestAt freed.memory req = .ok data) :
    enterHistory priv req = .ok { freed with
      memory := freed.memory.set req
        (some { data with index := (priv.count + 1) % jsonRpcRequestsMaxHistory })
      history := priv.history.set ((priv.count + 1) % jsonRpcRequestsMaxHistory) (some req) } := by
  have rounded : (if priv.maxHistory = 0 then jsonRpcRequestsMaxHistory else priv.maxHistory) =
      jsonRpcRequestsMaxHistory := by
    rcases size with zero | set
    · exact if_pos zero
    · rw [set, if_neg (by decide)]
  obtain ⟨inside, -⟩ := List.getElem?_eq_some_iff.1 place
  rw [enterHistory, rounded, Exec.checkedLong_of_lt fits, Exec.ok_bind]
  dsimp only
  rw [Exec.readAt_eq_ok.2 place, Exec.ok_bind, frees, Exec.ok_bind, live, Exec.ok_bind, same,
    Exec.writeAt_of_lt inside, Exec.ok_bind]

namespace Registered

variable {priv : CliContextPrivate Json} {keys : Finset Bytes}
variable {given : Option Bytes} {uuid : UuidText}

/-- A new id is inserted into the registry, and its request goes on to the history. -/
theorem enterRegistry_fresh (registered : Registered priv keys)
    (fresh : foldChars (newRequestId given uuid).val ∉ keys) :
    let memory := priv.memory ++ [some (blankRequest (newRequestId given uuid))]
    let requestsRoot := priv.memory.length :: priv.requestsRoot
    ∃ table, enterRegistry priv given uuid =
        (enterHistory { priv with memory, requestsRoot } priv.memory.length >>= fun mid =>
          .ok (priv.memory.length, mid)) ∧
      SearchTree.Table (registryKey memory) requestsRoot table ∧
      (table.map Prod.snd).toFinset = insert (foldChars (newRequestId given uuid).val) keys := by
  obtain ⟨table, holds, named⟩ := registered.table_append
    [some (blankRequest (newRequestId given uuid))]
  rw [← named, List.mem_toFinset] at fresh
  obtain ⟨searches, inserted⟩ := holds.tsearch fresh (registryKey_of_requestAt requestAt_new)
  refine ⟨_, ?_, inserted, ?_⟩
  · rw [enterRegistry, searches, Exec.ok_bind]
    dsimp only
    rw [if_neg (not_not.2 rfl)]
  · rw [List.map_cons, List.toFinset_cons, named]

/-- A new request takes a free place. -/
theorem enterRegistry_new (registered : Registered priv keys)
    (fresh : foldChars (newRequestId given uuid).val ∉ keys)
    (room : keys.card < jsonRpcRequestsMaxHistory) :
    ∃ node mid data, enterRegistry priv given uuid = .ok (node, mid) ∧
      requestAt mid.memory node = .ok data ∧ mid.sequence = priv.sequence ∧
      Registered mid (insert (foldChars (newRequestId given uuid).val) keys) := by
  obtain ⟨table, enters, inserted, named⟩ := registered.enterRegistry_fresh fresh
  have vacant := registered.next_vacant room
  have count := registered.count
  have few : priv.count + 1 < 2 ^ 63 := by
    unfold jsonRpcRequestsMaxHistory at room
    omega
  let stored : RequestData Json := { blankRequest (newRequestId given uuid) with
    index := (priv.count + 1) % jsonRpcRequestsMaxHistory }
  let memory := priv.memory ++ [some (blankRequest (newRequestId given uuid))]
  refine ⟨priv.memory.length, { priv with
    memory := memory.set priv.memory.length (some stored)
    requestsRoot := priv.memory.length :: priv.requestsRoot
    history := priv.history.set ((priv.count + 1) % jsonRpcRequestsMaxHistory)
      (some priv.memory.length)
    maxHistory := jsonRpcRequestsMaxHistory
    count := priv.count + 1 }, stored, ?_, requestAt_set requestAt_new, rfl, ?_⟩
  · rw [enters]
    exact Exec.bind_eq_ok.2
      ⟨_, enterHistory_eq registered.maxHistory few vacant rfl rfl requestAt_new, rfl⟩
  · refine ⟨⟨table, inserted.congr fun row _ => registryKey_set requestAt_new rfl, named⟩, ?_, ?_,
      ?_, ?_, Or.inr rfl⟩
    · exact (registered.ring.cons _).trans (filterMap_set_perm _ vacant).symm
    · exact (List.length_set).trans registered.size
    · exact (congrArg Nat.succ count).trans (Finset.card_insert_of_notMem fresh).symm
    · intro k later within
      have apart :
          (priv.count + 1) % jsonRpcRequestsMaxHistory ≠ k % jsonRpcRequestsMaxHistory := by
        have later : priv.count + 1 < k := later
        unfold jsonRpcRequestsMaxHistory at *
        omega
      dsimp only
      rw [List.getElem?_set_ne apart]
      exact registered.vacant k (Nat.lt_of_succ_lt later) within

theorem length (registered : Registered priv keys) : priv.requestsRoot.length = keys.card := by
  obtain ⟨table, holds, named⟩ := registered.table
  rw [← named, List.toFinset_card_of_nodup holds.keys, List.length_map, holds.entries.length_eq,
    List.length_map]

/-- In a full history every place is taken by a request of the registry. -/
theorem next_taken (registered : Registered priv keys)
    (full : keys.card = jsonRpcRequestsMaxHistory) :
    ∃ p ∈ priv.requestsRoot,
      priv.history[(priv.count + 1) % jsonRpcRequestsMaxHistory]? = some (some p) := by
  have inside : (priv.count + 1) % jsonRpcRequestsMaxHistory < priv.history.length := by
    rw [registered.size]
    exact Nat.mod_lt _ (by decide)
  have all : (priv.history.filterMap id).length = priv.history.length := by
    rw [← registered.ring.length_eq, registered.length, full, registered.size]
  obtain ⟨p, taken⟩ := Option.isSome_iff_exists.1
    (List.filterMap_length_eq_length.1 all _ (List.getElem_mem inside))
  have place : priv.history[(priv.count + 1) % jsonRpcRequestsMaxHistory] = some p := taken
  refine ⟨p, ?_, List.getElem?_eq_some_iff.2 ⟨inside, place⟩⟩
  rw [registered.ring.mem_iff, List.mem_filterMap]
  exact ⟨some p, place ▸ List.getElem_mem inside, rfl⟩

/-- The request that is evicted from a full history stays in the registry. -/
theorem enterRegistry_full (registered : Registered priv keys)
    (fresh : foldChars (newRequestId given uuid).val ∉ keys)
    (full : keys.card = jsonRpcRequestsMaxHistory) :
    ∃ node mid data p, enterRegistry priv given uuid = .ok (node, mid) ∧
      requestAt mid.memory node = .ok data ∧ mid.sequence = priv.sequence ∧
      p ∈ mid.requestsRoot ∧ p ≠ node ∧ ¬ (requestAt mid.memory p).Returns := by
  obtain ⟨table, enters, -, -⟩ := registered.enterRegistry_fresh fresh
  obtain ⟨p, inside, taken⟩ := registered.next_taken full
  have few : priv.count + 1 < 2 ^ 63 := by
    rw [registered.count, full]
    decide
  have other : p ≠ priv.memory.length := Nat.ne_of_lt (registered.lt_of_mem inside)
  obtain ⟨evicted, live⟩ := registered.agrees.live p inside
  let memory := priv.memory ++ [some (blankRequest (newRequestId given uuid))]
  let stored : RequestData Json := { blankRequest (newRequestId given uuid) with
    index := (priv.count + 1) % jsonRpcRequestsMaxHistory }
  have old : requestAt memory p = .ok evicted := by
    rw [requestAt_append (registered.lt_of_mem inside), live]
  have new : requestAt (memory.set p none) priv.memory.length =
      .ok (blankRequest (newRequestId given uuid)) := by
    rw [requestAt_set_of_ne other.symm, requestAt_new]
  have frees : ∀ state : CliContextPrivate Json, state.memory = memory →
      jsonRpcRequestDataFree state (some p) = .ok { state with
        memory := memory.set p none
        jsonCalls := state.jsonCalls ++ (evicted.jparams.map JsonCall.put).toList } := by
    intro state same
    rw [jsonRpcRequestDataFree, same, old, Exec.ok_bind]
  refine ⟨priv.memory.length, { priv with
    memory := (memory.set p none).set priv.memory.length (some stored)
    jsonCalls := priv.jsonCalls ++ (evicted.jparams.map JsonCall.put).toList
    requestsRoot := priv.memory.length :: priv.requestsRoot
    history := priv.history.set ((priv.count + 1) % jsonRpcRequestsMaxHistory)
      (some priv.memory.length)
    maxHistory := jsonRpcRequestsMaxHistory
    count := priv.count + 1 }, stored, p, ?_, requestAt_set new, rfl,
    List.mem_cons_of_mem _ inside, other, ?_⟩
  · rw [enters]
    exact Exec.bind_eq_ok.2
      ⟨_, enterHistory_eq registered.maxHistory few taken (frees _ rfl) rfl new, rfl⟩
  · dsimp only
    rw [requestAt_set_of_ne other]
    exact requestAt_released

end Registered

/-- What `request` does after the request came into the registry. -/
theorem request_fills {priv mid : CliContextPrivate Json} {call : RequestCall Json} {node : Nat}
    {data : RequestData Json}
    (enters : enterRegistry priv call.requestId call.uuid = .ok (node, mid))
    (live : requestAt mid.memory node = .ok data) (fits : mid.sequence + 1 < 2 ^ 63) :
    ∃ after stored, request priv call = .ok after ∧ stored.id = data.id ∧
      after.memory = mid.memory.set node (some stored) ∧
      after.requestsRoot = mid.requestsRoot ∧ after.history = mid.history ∧
      after.maxHistory = mid.maxHistory ∧ after.count = mid.count ∧
      after.sequence = mid.sequence + 1 := by
  let filled : RequestData Json := { data with
    sequence := mid.sequence + 1
    command := strncpy (call.command.getD helpCommand) 200
    jparams := call.jparams.orElse fun _ => data.jparams }
  refine ⟨{ mid with
    sequence := mid.sequence + 1
    memory := mid.memory.set node (some filled)
    jsonCalls := mid.jsonCalls ++ (call.jparams.map JsonCall.get).toList ++
      (filled.jparams.map JsonCall.put).toList }, filled, ?_, rfl, rfl, rfl, rfl, rfl, rfl, rfl⟩
  rw [request, jsonRpcRequestDataNew, enters, Exec.ok_bind]
  dsimp only
  rw [fillRequest, Exec.checkedLong_of_lt fits, Exec.ok_bind, live, Exec.ok_bind]
  dsimp only
  rw [Exec.ok_bind, Exec.ok_bind]
  dsimp only
  rw [requestAt_set live, Exec.ok_bind]

/-- The sequence number of the request does not fit. -/
theorem request_overflows {priv mid : CliContextPrivate Json} {call : RequestCall Json} {node : Nat}
    (enters : enterRegistry priv call.requestId call.uuid = .ok (node, mid))
    (long : ¬ mid.sequence + 1 < 2 ^ 63) : request priv call = .fault .overflow := by
  rw [request, jsonRpcRequestDataNew, enters, Exec.ok_bind]
  dsimp only
  rw [fillRequest, Exec.checkedLong_of_not_lt long, Exec.fault_bind, Exec.fault_bind,
    Exec.fault_bind]

namespace Registered

variable {priv : CliContextPrivate Json} {keys : Finset Bytes} {call : RequestCall Json}

/-- A request while the history has room for every id. -/
theorem request (registered : Registered priv keys)
    (room : (insert call.key keys).card ≤ jsonRpcRequestsMaxHistory)
    (fits : priv.sequence + 1 < 2 ^ 63) :
    ∃ after, Rpc.request priv call = .ok after ∧ Registered after (insert call.key keys) ∧
      after.sequence = priv.sequence + 1 := by
  obtain ⟨node, mid, data, enters, live, sequence, entered⟩ :
      ∃ node mid data, enterRegistry priv call.requestId call.uuid = .ok (node, mid) ∧
        requestAt mid.memory node = .ok data ∧ mid.sequence = priv.sequence ∧
        Registered mid (insert call.key keys) := by
    by_cases known : call.key ∈ keys
    · rw [Finset.insert_eq_of_mem known]
      exact registered.enterRegistry_known known
    · rw [Finset.card_insert_of_notMem known] at room
      exact registered.enterRegistry_new known room
  rw [← sequence] at fits
  obtain ⟨after, stored, requests, same, memory, root, history, maxHistory, count, next⟩ :=
    request_fills enters live fits
  refine ⟨after, requests, entered.congr root history maxHistory count fun p _ => ?_, ?_⟩
  · rw [memory]
    exact registryKey_set live same
  · rw [next, sequence]

/-- The request with one id more than the history holds leaves a released request behind. -/
theorem request_evicts (registered : Registered priv keys)
    (within : keys.card ≤ jsonRpcRequestsMaxHistory)
    (more : jsonRpcRequestsMaxHistory < (insert call.key keys).card)
    (fits : priv.sequence + 1 < 2 ^ 63) :
    ∃ after, Rpc.request priv call = .ok after ∧
      ∃ p ∈ after.requestsRoot, ¬ (requestAt after.memory p).Returns := by
  obtain ⟨fresh, full⟩ := full_of_card_insert within more
  obtain ⟨node, mid, data, p, enters, live, sequence, inside, other, released⟩ :=
    registered.enterRegistry_full fresh full
  rw [← sequence] at fits
  obtain ⟨after, stored, requests, -, memory, root, -, -, -, -⟩ := request_fills enters live fits
  refine ⟨after, requests, p, root ▸ inside, ?_⟩
  rw [memory, requestAt_set_of_ne other]
  exact released

/-- The request whose sequence number does not fit. -/
theorem request_overflows (registered : Registered priv keys)
    (within : keys.card ≤ jsonRpcRequestsMaxHistory) (long : ¬ priv.sequence + 1 < 2 ^ 63) :
    Rpc.request priv call = .fault .overflow := by
  obtain ⟨node, mid, enters, sequence⟩ : ∃ node mid,
      enterRegistry priv call.requestId call.uuid = .ok (node, mid) ∧
        mid.sequence = priv.sequence := by
    by_cases known : call.key ∈ keys
    · obtain ⟨node, mid, data, enters, -, sequence, -⟩ := registered.enterRegistry_known known
      exact ⟨node, mid, enters, sequence⟩
    · rcases Nat.lt_or_eq_of_le within with room | full
      · obtain ⟨node, mid, data, enters, -, sequence, -⟩ := registered.enterRegistry_new known room
        exact ⟨node, mid, enters, sequence⟩
      · obtain ⟨node, mid, data, p, enters, -, sequence, -, -, -⟩ :=
          registered.enterRegistry_full known full
        exact ⟨node, mid, enters, sequence⟩
  exact Rpc.request_overflows enters (sequence ▸ long)

end Registered

end BitcoinClib.Rpc
