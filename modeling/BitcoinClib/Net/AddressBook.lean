import BitcoinClib.Lib.Latest
import BitcoinClib.Net.Handlers
import BitcoinClib.Script.Data
import BitcoinClib.Utils.AvlInsert

/-!
Contract: `addrs_list` of the node with the memory of its entries, over a history of messages.

Owns:
- `network_address_compare` and `on_message_addr` on addresses in allocated memory;
- `AddressBook.Keeps`, the invariant of such a book;
- `addressBook_latest`: what the book holds after any list of messages.

Does not own: printing; memory for a copy is given.
-/

namespace BitcoinClib.Net

open BitcoinClib.Lib
open BitcoinClib.Types
open BitcoinClib.Utils

/-! ## The model -/

/-- What tells two entries apart. -/
def NetworkAddress.endpoint (addr : NetworkAddress) : Bytes × UInt16 := (addr.ip, addr.port)

/-- `struct bitcoin_network_address` with its 16 bytes of `ip`. -/
abbrev AddrRecord := { addr : NetworkAddress // addr.ip.length = 16 }

namespace AddrRecord

/-- The address and port of a record. -/
def endpoint (addr : AddrRecord) : Bytes × UInt16 := addr.val.endpoint

/-- The bytes of `ip` and `port`, which lie side by side. -/
def endpointBytes (addr : AddrRecord) : Bytes := addr.val.ip ++ leBytes 2 addr.val.port.toNat

/-- `time` and `services` are taken from another address. -/
def refresh (item addr : AddrRecord) : AddrRecord :=
  ⟨{ item.val with time := addr.val.time, services := addr.val.services }, item.property⟩

end AddrRecord

/-- `struct bitcoin_message_addr`; the payload it comes from, with 30 bytes for an address, has a
length of 32 bits. -/
structure MessageAddr where
  addrs : List AddrRecord
  fits : 30 * addrs.length < 2 ^ 32

/-- The memory of the addresses, where a freed one is gone, and `spv->addrs_list`, whose data are
pointers into it. -/
structure AddressBook where
  heap : List (Option AddrRecord)
  addrsList : AvlTree Nat

namespace AddressBook

/-- A new node: no memory, and the tree after `avl_tree_init`. -/
def empty : AddressBook := ⟨[], avlTreeInit⟩

/-- An address is read. -/
def load (heap : List (Option AddrRecord)) (address : Nat) : Exec AddrRecord :=
  match heap[address]? with
  | some (some addr) => .ok addr
  | _ => .fault .pointer

/-- `free` -/
def release (heap : List (Option AddrRecord)) (address : Nat) :
    Exec (List (Option AddrRecord)) :=
  match heap[address]? with
  | some (some _) => .ok (heap.set address none)
  | _ => .fault .invalidFree

/-- `network_address_compare` -/
def networkAddressCompare (heap : List (Option AddrRecord)) (a b : Nat) : Exec Int := do
  let addr1 ← load heap a
  let addr2 ← load heap b
  .ok (Script.memcmp addr1.endpointBytes addr2.endpointBytes)

/-- `update existing item`, and the new copy is freed. -/
def updateItem (heap : List (Option AddrRecord)) (item addr : Nat) :
    Exec (List (Option AddrRecord)) := do
  let old ← load heap item
  let new ← load heap addr
  release (heap.set item (some (old.refresh new))) addr

/-- The body of the loop in `on_message_addr`. -/
def addAddr (book : AddressBook) (received : AddrRecord) : Exec AddressBook := do
  let addr := book.heap.length
  let heap := book.heap ++ [some received]
  let (item, addrsList) ← avlTreeAdd book.addrsList addr (networkAddressCompare heap)
  if item ≠ addr then do
    let heap ← updateItem heap item addr
    .ok ⟨heap, addrsList⟩
  else .ok ⟨heap, addrsList⟩

/-- The loop from `i` on. -/
def addAddrs : Int → List AddrRecord → AddressBook → Exec AddressBook
  | _, [], book => .ok book
  | i, addr :: addrs, book => do
      let book ← addAddr book addr
      -- `++i` on an `int`
      if i + 1 < 2 ^ 31 then addAddrs (i + 1) addrs book else .fault .overflow

/-- `on_message_addr`; a message without an object fails the assertion. -/
def onMessageAddr (book : AddressBook) (msgObject : Option MessageAddr) : Exec AddressBook :=
  match msgObject with
  | none => .fault .assertion
  | some msgAddr => addAddrs 0 msgAddr.addrs book

/-- The callback for one message after the other. -/
def onMessages : AddressBook → List MessageAddr → Exec AddressBook
  | book, [] => .ok book
  | book, msg :: msgs => do
      let book ← onMessageAddr book (some msg)
      onMessages book msgs

/-- The entries of `addrs_list`, each read through its pointer. -/
def entries (book : AddressBook) : Exec (List AddrRecord) :=
  book.addrsList.root.keys.mapM (load book.heap)

end AddressBook

/-! ## Comparison -/

namespace AddrRecord

theorem endpointBytes_length (addr : AddrRecord) : addr.endpointBytes.length = 18 := by
  rw [endpointBytes, List.length_append, addr.property, leBytes_length]

theorem endpointBytes_inj {addr other : AddrRecord} :
    addr.endpointBytes = other.endpointBytes ↔ addr.endpoint = other.endpoint := by
  constructor
  · intro same
    have parts := List.append_inj same (addr.property.trans other.property.symm)
    have values := congrArg leValue parts.2
    rw [leValue_leBytes _ _ addr.val.port.toNat_lt, leValue_leBytes _ _ other.val.port.toNat_lt]
      at values
    exact Prod.ext parts.1 (UInt16.toNat_inj.1 values)
  · intro same
    have ips : addr.val.ip = other.val.ip := congrArg Prod.fst same
    have ports : addr.val.port = other.val.port := congrArg Prod.snd same
    rw [endpointBytes, endpointBytes, ips, ports]

/-- What the comparison orders. -/
def rank (addr : AddrRecord) : List Nat := addr.endpointBytes.map UInt8.toNat

theorem rank_inj {addr other : AddrRecord} : addr.rank = other.rank ↔
    addr.endpoint = other.endpoint := by
  rw [← endpointBytes_inj]
  have injective : Function.Injective UInt8.toNat := fun _ _ => UInt8.toNat_inj.1
  exact (List.map_injective_iff.2 injective).eq_iff

/-- An entry of the same endpoint becomes the address received. -/
theorem refresh_eq {item addr : AddrRecord} (same : item.endpoint = addr.endpoint) :
    item.refresh addr = addr := by
  have ips : item.val.ip = addr.val.ip := congrArg Prod.fst same
  have ports : item.val.port = addr.val.port := congrArg Prod.snd same
  apply Subtype.ext
  show (⟨addr.val.time, addr.val.services, item.val.ip, item.val.port⟩ : NetworkAddress) = addr.val
  rw [ips, ports]

end AddrRecord

/-- `memcmp` is positive when the first string is the greater one. -/
theorem memcmp_pos {left right : Bytes} (sameLength : left.length = right.length) :
    0 < Script.memcmp left right ↔ right.map UInt8.toNat < left.map UInt8.toNat := by
  induction left generalizing right with
  | nil =>
      rw [List.length_nil] at sameLength
      rw [List.length_eq_zero_iff.1 sameLength.symm]
      simp [Script.memcmp]
  | cons byte rest inductionHypothesis =>
      cases right with
      | nil => exact absurd sameLength (by simp)
      | cons other others =>
          have restLength : rest.length = others.length := Nat.succ.inj sameLength
          rw [List.map_cons, List.map_cons, List.cons_lt_cons_iff, Script.memcmp]
          split
          next same =>
            rw [inductionHypothesis restLength, same]
            simp
          next apart =>
            have values : other.toNat ≠ byte.toNat :=
              fun same => apart (UInt8.toNat_inj.1 same.symm)
            split
            next less =>
              have order : byte.toNat < other.toNat := UInt8.lt_iff_toNat_lt.1 less
              constructor
              · intro positive
                exact absurd positive (by decide)
              · intro greater
                omega
            next notLess =>
              have order : ¬ byte.toNat < other.toNat := fun less =>
                notLess (UInt8.lt_iff_toNat_lt.2 less)
              constructor
              · intro _
                left
                omega
              · intro _
                decide

namespace AddressBook

/-! ## The invariant -/

/-- What the pointer designates. -/
def rankAt (heap : List (Option AddrRecord)) (address : Nat) : List Nat :=
  match heap[address]? with
  | some (some addr) => addr.rank
  | _ => []

/-- The keys point to these entries. -/
def PointsTo (heap : List (Option AddrRecord)) : List Nat → List AddrRecord → Prop :=
  List.Forall₂ fun address addr => heap[address]? = some (some addr)

/-- The tree holds the latest address for every endpoint received; the memory that was not freed is
that of its entries. -/
structure Keeps (received : List AddrRecord) (book : AddressBook) (table : List AddrRecord) :
    Prop where
  avl : book.addrsList.root.Avl
  ordered : (table.map AddrRecord.rank).Pairwise (· < ·)
  points : PointsTo book.heap book.addrsList.root.keys table
  count : book.addrsList.count = table.length
  latest : Latest AddrRecord.endpoint received table
  owned : ∀ address addr, book.heap[address]? = some (some addr) →
    address ∈ book.addrsList.root.keys

theorem empty_keeps : Keeps [] empty [] where
  avl := AvlNode.Avl.null
  ordered := List.Pairwise.nil
  points := List.Forall₂.nil
  count := rfl
  latest := Latest.nil
  owned := fun address addr live => absurd live (by simp [empty])

theorem load_eq {heap : List (Option AddrRecord)} {address : Nat} {addr : AddrRecord}
    (live : heap[address]? = some (some addr)) : load heap address = .ok addr := by
  rw [load, live]

theorem rankAt_eq {heap : List (Option AddrRecord)} {address : Nat} {addr : AddrRecord}
    (live : heap[address]? = some (some addr)) : rankAt heap address = addr.rank := by
  rw [rankAt, live]

theorem networkAddressCompare_compares {heap : List (Option AddrRecord)} {a b : Nat}
    {addr1 addr2 : AddrRecord} (first : heap[a]? = some (some addr1))
    (second : heap[b]? = some (some addr2)) :
    Compares (networkAddressCompare heap) (rankAt heap) a b := by
  have sameLength : addr1.endpointBytes.length = addr2.endpointBytes.length := by
    rw [AddrRecord.endpointBytes_length, AddrRecord.endpointBytes_length]
  refine ⟨Script.memcmp addr1.endpointBytes addr2.endpointBytes, ?_, ?_, ?_⟩
  · rw [networkAddressCompare, load_eq first, load_eq second]
    rfl
  · rw [Script.memcmp_eq_zero sameLength, rankAt_eq first, rankAt_eq second,
      AddrRecord.endpointBytes_inj, AddrRecord.rank_inj]
  · rw [memcmp_pos sameLength, rankAt_eq first, rankAt_eq second]
    rfl

namespace PointsTo

variable {heap : List (Option AddrRecord)} {addresses : List Nat} {table : List AddrRecord}

theorem ranks (points : PointsTo heap addresses table) :
    addresses.map (rankAt heap) = table.map AddrRecord.rank := by
  induction points with
  | nil => rfl
  | cons live _ inductionHypothesis =>
      rw [List.map_cons, List.map_cons, inductionHypothesis, rankAt_eq live]

theorem live (points : PointsTo heap addresses table) {address : Nat}
    (member : address ∈ addresses) : ∃ addr ∈ table, heap[address]? = some (some addr) := by
  induction points with
  | nil => exact absurd member List.not_mem_nil
  | cons here _ inductionHypothesis =>
      rcases List.mem_cons.1 member with rfl | later
      · exact ⟨_, List.mem_cons_self, here⟩
      · obtain ⟨addr, inside, there⟩ := inductionHypothesis later
        exact ⟨addr, List.mem_cons_of_mem _ inside, there⟩

theorem loads (points : PointsTo heap addresses table) :
    addresses.mapM (load heap) = .ok table := by
  induction points with
  | nil => rfl
  | cons here _ inductionHypothesis =>
      rw [List.mapM_cons, load_eq here, inductionHypothesis]
      rfl

/-- Another memory that agrees on the entries. -/
theorem frame (points : PointsTo heap addresses table) {heap' : List (Option AddrRecord)}
    (agrees : ∀ address ∈ addresses, heap'[address]? = heap[address]?) :
    PointsTo heap' addresses table := by
  induction points with
  | nil => exact List.Forall₂.nil
  | cons here _ inductionHypothesis =>
      apply List.Forall₂.cons
      · rw [agrees _ List.mem_cons_self]
        exact here
      · exact inductionHypothesis fun address member =>
          agrees address (List.mem_cons_of_mem _ member)

theorem append {addresses' : List Nat} {table' : List AddrRecord}
    (first : PointsTo heap addresses table) (second : PointsTo heap addresses' table') :
    PointsTo heap (addresses ++ addresses') (table ++ table') := by
  induction first with
  | nil => exact second
  | cons here _ inductionHypothesis => exact List.Forall₂.cons here inductionHypothesis

theorem split {before after : List Nat} (points : PointsTo heap (before ++ after) table) :
    ∃ first second, table = first ++ second ∧ PointsTo heap before first ∧
      PointsTo heap after second := by
  induction before generalizing table with
  | nil => exact ⟨[], table, rfl, List.Forall₂.nil, points⟩
  | cons address rest inductionHypothesis =>
      cases points with
      | cons here others =>
          obtain ⟨first, second, rfl, low, high⟩ := inductionHypothesis others
          exact ⟨_ :: first, second, rfl, List.Forall₂.cons here low, high⟩

end PointsTo

/-! ## One address -/

variable {received : List AddrRecord} {book : AddressBook} {table : List AddrRecord}

namespace Keeps

theorem lt_length (keeps : Keeps received book table) {address : Nat}
    (member : address ∈ book.addrsList.root.keys) : address < book.heap.length := by
  obtain ⟨addr, -, live⟩ := keeps.points.live member
  obtain ⟨bound, -⟩ := List.getElem?_eq_some_iff.1 live
  exact bound

/-- The pointers of the entries are distinct. -/
theorem nodup (keeps : Keeps received book table) : book.addrsList.root.keys.Nodup := by
  have ranks : (book.addrsList.root.keys.map (rankAt book.heap)).Nodup := by
    rw [keeps.points.ranks]
    exact keeps.ordered.imp ne_of_lt
  exact List.Nodup.of_map _ ranks

/-- The entries are where they were when memory for one more address is taken. -/
theorem points_append (keeps : Keeps received book table) (addr : AddrRecord) :
    PointsTo (book.heap ++ [some addr]) book.addrsList.root.keys table :=
  keeps.points.frame fun _ member => List.getElem?_append_left (keeps.lt_length member)

theorem ordered_append (keeps : Keeps received book table) (addr : AddrRecord) :
    Ordered (rankAt (book.heap ++ [some addr])) book.addrsList.root := by
  rw [Ordered, (keeps.points_append addr).ranks]
  exact keeps.ordered

theorem compares_append (keeps : Keeps received book table) (addr : AddrRecord) :
    ∀ other ∈ book.addrsList.root.keys,
      Compares (networkAddressCompare (book.heap ++ [some addr]))
        (rankAt (book.heap ++ [some addr])) book.heap.length other := by
  intro other member
  obtain ⟨entry, -, live⟩ := (keeps.points_append addr).live member
  exact networkAddressCompare_compares List.getElem?_concat_length live

end Keeps

/-- The copy is the one to be freed. -/
theorem updateItem_eq {heap : List (Option AddrRecord)} {item : Nat} {addr old : AddrRecord}
    (there : heap[item]? = some (some old)) (same : old.endpoint = addr.endpoint) :
    updateItem (heap ++ [some addr]) item heap.length =
      .ok (heap.set item (some addr) ++ [none]) := by
  obtain ⟨bound, -⟩ := List.getElem?_eq_some_iff.1 there
  have itemLive : (heap ++ [some addr])[item]? = some (some old) := by
    rw [List.getElem?_append_left bound]
    exact there
  have copyLive : (heap.set item (some addr) ++ [some addr])[heap.length]? = some (some addr) := by
    rw [List.getElem?_append_right (by simp)]
    simp
  rw [updateItem, load_eq itemLive, Exec.ok_bind, load_eq List.getElem?_concat_length, Exec.ok_bind,
    AddrRecord.refresh_eq same, List.set_append_left _ _ bound, release, copyLive]
  simp

/-- An endpoint that the book knows. -/
theorem addAddr_known (keeps : Keeps received book table) {addr : AddrRecord}
    (known : addr.endpoint ∈ table.map AddrRecord.endpoint) :
    ∃ book' table', addAddr book addr = .ok book' ∧ Keeps (received ++ [addr]) book' table' := by
  have copy : (book.heap ++ [some addr])[book.heap.length]? = some (some addr) :=
    List.getElem?_concat_length
  have present : rankAt (book.heap ++ [some addr]) book.heap.length ∈
      book.addrsList.root.keys.map (rankAt (book.heap ++ [some addr])) := by
    rw [(keeps.points_append addr).ranks, rankAt_eq copy]
    obtain ⟨entry, member, same⟩ := List.mem_map.1 known
    rw [← AddrRecord.rank_inj.2 same]
    exact List.mem_map_of_mem member
  obtain ⟨item, member, sameRank, adds⟩ :=
    avlTreeAdd_found keeps.avl (keeps.ordered_append addr) (keeps.compares_append addr) present
  have bound := keeps.lt_length member
  have nodup := keeps.nodup
  have points := keeps.points
  obtain ⟨before, after, keys⟩ := List.append_of_mem member
  rw [keys] at points nodup
  rw [List.perm_middle.nodup_iff, List.nodup_cons] at nodup
  obtain ⟨first, rest, rfl, low, high⟩ := points.split
  obtain _ | ⟨there, high⟩ := high
  rename_i old second
  have oldLive : (book.heap ++ [some addr])[item]? = some (some old) := by
    rw [List.getElem?_append_left bound]
    exact there
  rw [rankAt_eq oldLive, rankAt_eq copy] at sameRank
  have same := AddrRecord.rank_inj.1 sameRank
  have elsewhere : ∀ address ∈ before ++ after,
      (book.heap.set item (some addr) ++ [none])[address]? = book.heap[address]? := by
    intro address inside
    have other : address ∈ book.addrsList.root.keys := by
      rw [keys, List.perm_middle.mem_iff]
      exact List.mem_cons_of_mem _ inside
    have apart : item ≠ address := fun equal => nodup.1 (equal ▸ inside)
    rw [List.getElem?_append_left (by simpa using keeps.lt_length other),
      List.getElem?_set_ne apart]
  refine ⟨⟨book.heap.set item (some addr) ++ [none], book.addrsList⟩, first ++ addr :: second, ?_,
    ?_⟩
  · rw [addAddr, adds, Exec.ok_bind]
    dsimp only
    rw [if_pos (Nat.ne_of_lt bound), updateItem_eq there same]
    rfl
  · have ordered := keeps.ordered
    have count := keeps.count
    constructor
    · exact keeps.avl
    · rw [List.map_append, List.map_cons, ← sameRank, ← List.map_cons, ← List.map_append]
      exact ordered
    · show PointsTo _ book.addrsList.root.keys _
      rw [keys]
      have lowKept := low.frame fun address inside =>
        elsewhere address (List.mem_append_left _ inside)
      apply lowKept.append
      apply List.Forall₂.cons
      · rw [List.getElem?_append_left (by simpa using bound), List.getElem?_set_self bound]
      · exact PointsTo.frame high fun address inside =>
          elsewhere address (List.mem_append_right _ inside)
    · show book.addrsList.count = _
      rw [count]
      simp
    · exact keeps.latest.update same
    · intro address entry live
      show address ∈ book.addrsList.root.keys
      rcases lt_or_ge address book.heap.length with inside | outside
      · rw [List.getElem?_append_left (by simpa using inside)] at live
        by_cases here : item = address
        · exact here ▸ member
        · rw [List.getElem?_set_ne here] at live
          exact keeps.owned address entry live
      · rw [List.getElem?_append_right (by simpa using outside)] at live
        exact absurd (List.mem_of_getElem? live) (by simp)

/-- An endpoint that is new to the book. -/
theorem addAddr_new (keeps : Keeps received book table) {addr : AddrRecord}
    (new : addr.endpoint ∉ table.map AddrRecord.endpoint) :
    ∃ book' table', addAddr book addr = .ok book' ∧ Keeps (received ++ [addr]) book' table' := by
  have copy : (book.heap ++ [some addr])[book.heap.length]? = some (some addr) :=
    List.getElem?_concat_length
  have absent : rankAt (book.heap ++ [some addr]) book.heap.length ∉
      book.addrsList.root.keys.map (rankAt (book.heap ++ [some addr])) := by
    rw [(keeps.points_append addr).ranks, rankAt_eq copy]
    intro member
    obtain ⟨entry, inside, same⟩ := List.mem_map.1 member
    exact new (AddrRecord.rank_inj.1 same ▸ List.mem_map_of_mem inside)
  obtain ⟨root, before, after, keys, placed, avl, ordered, adds⟩ :=
    avlTreeAdd_new keeps.avl (keeps.ordered_append addr) (keeps.compares_append addr) absent
  have points := keeps.points_append addr
  rw [keys] at points
  obtain ⟨first, second, rfl, low, high⟩ := points.split
  have pointsNew : PointsTo (book.heap ++ [some addr]) root.keys (first ++ addr :: second) := by
    rw [placed]
    exact low.append (List.Forall₂.cons copy high)
  refine ⟨⟨book.heap ++ [some addr],
    { book.addrsList with root := root, count := book.addrsList.count + 1 }⟩,
    first ++ addr :: second, ?_, ?_⟩
  · rw [addAddr, adds, Exec.ok_bind]
    exact if_neg (not_not_intro rfl)
  · have count := keeps.count
    constructor
    · exact avl
    · rw [← pointsNew.ranks]
      exact ordered
    · exact pointsNew
    · show book.addrsList.count + 1 = _
      rw [count]
      simp
      ring
    · exact keeps.latest.insert new
    · intro address entry live
      show address ∈ root.keys
      rw [placed, List.perm_middle.mem_iff, ← keys]
      rcases lt_or_ge address book.heap.length with inside | outside
      · rw [List.getElem?_append_left inside] at live
        exact List.mem_cons_of_mem _ (keeps.owned address entry live)
      · obtain ⟨bound, -⟩ := List.getElem?_eq_some_iff.1 live
        have last : address = book.heap.length := by
          rw [List.length_append, List.length_singleton] at bound
          omega
        exact last ▸ List.mem_cons_self

theorem addAddr_keeps (keeps : Keeps received book table) (addr : AddrRecord) :
    ∃ book' table', addAddr book addr = .ok book' ∧ Keeps (received ++ [addr]) book' table' := by
  by_cases known : addr.endpoint ∈ table.map AddrRecord.endpoint
  · exact addAddr_known keeps known
  · exact addAddr_new keeps known

/-! ## All messages -/

theorem addAddrs_keeps : ∀ (addrs : List AddrRecord) {received : List AddrRecord}
    {book : AddressBook} {table : List AddrRecord} {i : Int}, i + addrs.length < 2 ^ 31 →
      Keeps received book table →
      ∃ book' table', addAddrs i addrs book = .ok book' ∧ Keeps (received ++ addrs) book' table'
  | [], received, book, table, _, _, keeps => by
      refine ⟨book, table, rfl, ?_⟩
      rw [List.append_nil]
      exact keeps
  | addr :: addrs, received, book, table, i, room, keeps => by
      rw [List.length_cons] at room
      obtain ⟨middle, middleTable, adds, middleKeeps⟩ := addAddr_keeps keeps addr
      obtain ⟨book', table', runs, keeps'⟩ :=
        addAddrs_keeps addrs (by omega : i + 1 + addrs.length < 2 ^ 31) middleKeeps
      refine ⟨book', table', ?_, ?_⟩
      · rw [addAddrs, adds, Exec.ok_bind, if_pos (by omega)]
        exact runs
      · rw [List.append_assoc, List.singleton_append] at keeps'
        exact keeps'

theorem onMessages_keeps : ∀ {msgs : List MessageAddr} {received : List AddrRecord}
    {book : AddressBook} {table : List AddrRecord}, Keeps received book table →
      ∃ book' table', onMessages book msgs = .ok book' ∧
        Keeps (received ++ msgs.flatMap MessageAddr.addrs) book' table'
  | [], received, book, table, keeps => by
      refine ⟨book, table, rfl, ?_⟩
      rw [List.flatMap_nil, List.append_nil]
      exact keeps
  | msg :: msgs, received, book, table, keeps => by
      have fits := msg.fits
      obtain ⟨middle, middleTable, adds, middleKeeps⟩ :=
        addAddrs_keeps msg.addrs (by omega : 0 + (msg.addrs.length : Int) < 2 ^ 31) keeps
      obtain ⟨book', table', runs, keeps'⟩ := onMessages_keeps middleKeeps
      refine ⟨book', table', ?_, ?_⟩
      · rw [onMessages, onMessageAddr, adds, Exec.ok_bind]
        exact runs
      · rw [List.append_assoc, ← List.flatMap_cons] at keeps'
        exact keeps'

/-- After any messages the entries can all be read, no two have the same address and port, they are
the last ones received for theirs, and `count` is the number of pairs of address and port. What
was not freed is what `addrs_list` points to. -/
theorem addressBook_latest (msgs : List MessageAddr) :
    ∃ book table, onMessages empty msgs = .ok book ∧ book.entries = .ok table ∧
      (table.map AddrRecord.endpoint).Nodup ∧
      (∀ endpoint, endpoint ∈ table.map AddrRecord.endpoint ↔
        endpoint ∈ (msgs.flatMap MessageAddr.addrs).map AddrRecord.endpoint) ∧
      (∀ addr ∈ table, latest AddrRecord.endpoint (msgs.flatMap MessageAddr.addrs) addr.endpoint =
        some addr) ∧
      book.addrsList.count =
        (((msgs.flatMap MessageAddr.addrs).map AddrRecord.endpoint).dedup.length : Int) ∧
      ∀ address, (∃ addr, book.heap[address]? = some (some addr)) ↔
        address ∈ book.addrsList.root.keys := by
  obtain ⟨book, table, runs, keeps⟩ := onMessages_keeps empty_keeps
  rw [List.nil_append] at keeps
  refine ⟨book, table, runs, keeps.points.loads, keeps.latest.distinct, keeps.latest.keys, ?_, ?_,
    ?_⟩
  · intro addr member
    exact (keeps.latest.rows addr).1 member
  · rw [keeps.count, keeps.latest.length_eq]
  · intro address
    constructor
    · rintro ⟨addr, live⟩
      exact keeps.owned address addr live
    · intro member
      obtain ⟨addr, -, live⟩ := keeps.points.live member
      exact ⟨addr, live⟩

end AddressBook

/-! ## The book without its memory -/

/-- The list of the callbacks takes the next address as the book does. -/
theorem addrsListAdd_latest {received table : List NetworkAddress} (addr : NetworkAddress)
    (holds : Latest NetworkAddress.endpoint received table) :
    Latest NetworkAddress.endpoint (received ++ [addr]) (addrsListAdd table addr) := by
  have endpoints : ∀ item : NetworkAddress,
      (item.ip = addr.ip ∧ item.port = addr.port) ↔ item.endpoint = addr.endpoint := by
    intro item
    rw [NetworkAddress.endpoint, NetworkAddress.endpoint, Prod.mk.injEq]
  simp only [addrsListAdd, endpoints, List.any_eq_true, decide_eq_true_eq]
  split
  next known =>
    obtain ⟨old, member, same⟩ := known
    obtain ⟨before, after, rfl⟩ := List.append_of_mem member
    have distinct := holds.distinct
    rw [List.map_append, List.map_cons, List.perm_middle.nodup_iff, List.nodup_cons,
      ← List.map_append, same] at distinct
    have stays : ∀ items : List NetworkAddress, (∀ item ∈ items, item ∈ before ++ after) →
        items.map (fun item => if item.endpoint = addr.endpoint then
          { item with time := addr.time, services := addr.services } else item) = items := by
      intro items inside
      have others : ∀ item ∈ items, item.endpoint ≠ addr.endpoint := by
        intro item here equal
        apply distinct.1
        rw [← equal]
        exact List.mem_map_of_mem (inside item here)
      calc
        _ = items.map id := List.map_congr_left fun item here => if_neg (others item here)
        _ = items := List.map_id items
    have refreshed : { old with time := addr.time, services := addr.services } = addr := by
      obtain ⟨sameIp, samePort⟩ := (endpoints old).2 same
      rw [sameIp, samePort]
    rw [List.map_append, List.map_cons, if_pos same, refreshed,
      stays before fun item here => List.mem_append_left _ here,
      stays after fun item here => List.mem_append_right _ here]
    exact holds.update same
  next new =>
    have absent : addr.endpoint ∉ (table ++ []).map NetworkAddress.endpoint := by
      rw [List.append_nil, List.mem_map]
      exact new
    rw [← List.append_nil table] at holds
    exact holds.insert absent

theorem foldl_addrsListAdd_latest : ∀ (addrs : List NetworkAddress)
    {received table : List NetworkAddress}, Latest NetworkAddress.endpoint received table →
      Latest NetworkAddress.endpoint (received ++ addrs) (addrs.foldl addrsListAdd table)
  | [], received, table, holds => by
      rw [List.append_nil]
      exact holds
  | addr :: addrs, received, table, holds => by
      have step := foldl_addrsListAdd_latest addrs (addrsListAdd_latest addr holds)
      rw [List.append_assoc, List.singleton_append] at step
      exact step

/-- The book holds what the list of the callbacks holds, in the order of the comparison. -/
theorem addressBook_refines (msgs : List MessageAddr) :
    ∃ book table, AddressBook.onMessages .empty msgs = .ok book ∧ book.entries = .ok table ∧
      (table.map Subtype.val).Perm
        (((msgs.flatMap MessageAddr.addrs).map Subtype.val).foldl addrsListAdd []) := by
  obtain ⟨book, table, runs, keeps⟩ :=
    AddressBook.onMessages_keeps AddressBook.empty_keeps
  rw [List.nil_append] at keeps
  have listed := foldl_addrsListAdd_latest ((msgs.flatMap MessageAddr.addrs).map Subtype.val)
    Latest.nil
  rw [List.nil_append] at listed
  exact ⟨book, table, runs, keeps.points.loads,
    (keeps.latest.map (f := Subtype.val) fun _ => rfl).perm listed⟩

end BitcoinClib.Net
