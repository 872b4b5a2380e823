import BitcoinClib.Lib.KeyOrder
import BitcoinClib.Utils.AvlDelete
import Mathlib.Data.Nat.Fib.Basic

/-!
Contract: whole runs of `avl_tree_add`, `avl_tree_del` and `avl_tree_find`.

Owns:
- calls on a tree and their replies, and the dictionary that answers the same calls
  (`dictionaryCall`);
- `HoldsKeys`, that a tree is balanced and ordered and has the keys of a dictionary;
- `avlTree_dictionary`: a run on a tree answers as the dictionary does;
- the least number of keys of a balanced tree, and `avlTree_arrays`: neither function writes
  beyond its array of pointers.

Does not own: iterators, which hold pointers to nodes that a deletion frees.
-/

namespace BitcoinClib.Utils

open BitcoinClib.Lib
open AvlNode

variable {κ ν : Type}

/-! ## Calls and replies -/

/-- A call of one of the three functions. -/
inductive AvlCall (κ : Type) where
  | add (key : κ)
  | del (key : κ)
  | find (key : κ)

/-- The key of a call. -/
def AvlCall.key : AvlCall κ → κ
  | add key | del key | find key => key

/-- What a call returns: a node with its key, or the pointer of `avl_tree_del`. -/
inductive AvlReply (κ : Type) where
  | node (key : Option κ)
  | parent (above : AvlParent κ)
deriving DecidableEq

/-- What a reply says about a dictionary: a key, or whether there was one. -/
inductive DictionaryReply (κ : Type) where
  | key (key : Option κ)
  | deleted (present : Bool)
deriving DecidableEq

/-- `avl_tree_del` returns NULL when there was nothing to delete. -/
def AvlParent.present : AvlParent κ → Bool
  | null => false
  | node _ | freed => true

def AvlReply.told : AvlReply κ → DictionaryReply κ
  | .node key => .key key
  | .parent above => .deleted above.present

/-- One call on a tree. -/
def avlTreeCall (cmp : κ → κ → Exec Int) (tree : AvlTree κ) :
    AvlCall κ → Exec (AvlReply κ × AvlTree κ)
  | .add key => do
      let (found, tree) ← avlTreeAdd tree key cmp
      .ok (.node (some found), tree)
  | .del key => do
      let (parent, tree) ← avlTreeDel tree key cmp
      .ok (.parent parent, tree)
  | .find key => do
      let found ← avlTreeFind cmp key tree.root
      .ok (.node found.key?, tree)

/-- Calls one after the other. -/
def avlTreeCalls (cmp : κ → κ → Exec Int) :
    AvlTree κ → List (AvlCall κ) → Exec (List (AvlReply κ) × AvlTree κ)
  | tree, [] => .ok ([], tree)
  | tree, call :: calls => do
      let (reply, tree) ← avlTreeCall cmp tree call
      let (replies, tree) ← avlTreeCalls cmp tree calls
      .ok (reply :: replies, tree)

section Dictionary

variable [DecidableEq ν]

/-- The same call on a dictionary. A key that is there is not replaced. -/
def dictionaryCall (valueOf : κ → ν) (dictionary : ν → Option κ) :
    AvlCall κ → DictionaryReply κ × (ν → Option κ)
  | .add key =>
      match dictionary (valueOf key) with
      | some found => (.key (some found), dictionary)
      | none => (.key (some key), Function.update dictionary (valueOf key) (some key))
  | .del key =>
      (.deleted (dictionary (valueOf key)).isSome,
        Function.update dictionary (valueOf key) none)
  | .find key => (.key (dictionary (valueOf key)), dictionary)

def dictionaryCalls (valueOf : κ → ν) :
    (ν → Option κ) → List (AvlCall κ) → List (DictionaryReply κ) × (ν → Option κ)
  | dictionary, [] => ([], dictionary)
  | dictionary, call :: calls =>
      let (reply, dictionary) := dictionaryCall valueOf dictionary call
      let (replies, dictionary) := dictionaryCalls valueOf dictionary calls
      (reply :: replies, dictionary)

end Dictionary

/-! ## A tree as a dictionary -/

variable [LinearOrder ν] {cmp : κ → κ → Exec Int} {valueOf : κ → ν} {used : Set κ}

/-- A balanced and ordered tree, counted, with the keys of a dictionary; all are keys in use. -/
structure HoldsKeys (valueOf : κ → ν) (used : Set κ) (tree : AvlTree κ)
    (dictionary : ν → Option κ) : Prop where
  avl : tree.root.Avl
  ordered : Ordered valueOf tree.root
  counted : tree.count = tree.root.keys.length
  entries : entry valueOf tree.root.keys = dictionary
  known : ∀ key ∈ tree.root.keys, key ∈ used

theorem HoldsKeys.init : HoldsKeys valueOf used (avlTreeInit : AvlTree κ) fun _ => none where
  avl := Avl.null
  ordered := List.Pairwise.nil
  counted := rfl
  entries := funext fun _ => rfl
  known := fun _ member => absurd member List.not_mem_nil

/-- Ascending values are different. -/
theorem Ordered.distinct {n : AvlNode κ} (ordered : Ordered valueOf n) :
    (n.keys.map valueOf).Nodup := List.Pairwise.imp (fun less => ne_of_lt less) ordered

/-- A list from which a key was taken keeps its order. -/
theorem pairwise_without {key : κ} {before after : List κ}
    (ascends : ((before ++ key :: after).map valueOf).Pairwise (· < ·)) :
    ((before ++ after).map valueOf).Pairwise (· < ·) := by
  have shorter : (before ++ after).Sublist (before ++ key :: after) :=
    List.Sublist.append_left (List.sublist_cons_self key after) before
  exact List.Pairwise.sublist (shorter.map valueOf) ascends

section Step

variable {tree : AvlTree κ} {dictionary : ν → Option κ} {key : κ}
  (holds : HoldsKeys valueOf used tree dictionary)
  (compares : ∀ a ∈ used, ∀ b ∈ used, Compares cmp valueOf a b) (inUse : key ∈ used)

include holds compares inUse

theorem HoldsKeys.compares_key : ∀ other ∈ tree.root.keys, Compares cmp valueOf key other :=
  fun other member => compares key inUse other (holds.known other member)

omit compares inUse in
theorem HoldsKeys.absent (none : dictionary (valueOf key) = none) :
    valueOf key ∉ tree.root.keys.map valueOf := by
  rw [← holds.entries] at none
  exact entry_eq_none.1 none

omit compares inUse in
theorem HoldsKeys.present {found : κ} (there : dictionary (valueOf key) = some found) :
    valueOf key ∈ tree.root.keys.map valueOf := by
  by_contra absent
  rw [← holds.entries, entry_eq_none.2 absent] at there
  cases there

omit compares inUse in
/-- The key of the tree with this value is the one of the dictionary. -/
theorem HoldsKeys.same {found other : κ} (there : dictionary (valueOf key) = some found)
    (member : other ∈ tree.root.keys) (value : valueOf other = valueOf key) : other = found := by
  have entryOther := (entry_eq_some holds.ordered.distinct).2 ⟨member, value⟩
  rw [holds.entries, there] at entryOther
  exact (Option.some.inj entryOther).symm

/-- `avl_tree_add` puts a key with a new value into the dictionary, and returns the old key
otherwise. -/
theorem avlTreeAdd_holds :
    ∃ reply after, avlTreeCall cmp tree (.add key) = .ok (reply, after) ∧
      reply.told = (dictionaryCall valueOf dictionary (.add key)).1 ∧
      HoldsKeys valueOf used after (dictionaryCall valueOf dictionary (.add key)).2 := by
  have keyCompares := holds.compares_key compares inUse
  rcases Option.eq_none_or_eq_some (dictionary (valueOf key)) with none | there
  · obtain ⟨root, before, after, split, placed, rootAvl, rootOrdered, runs⟩ :=
      avlTreeAdd_new holds.avl holds.ordered keyCompares (holds.absent none)
    refine ⟨.node (some key), { tree with root := root, count := tree.count + 1 }, ?_, ?_, ?_⟩
    · rw [avlTreeCall, runs]
      rfl
    · rw [dictionaryCall, none]
      rfl
    · rw [dictionaryCall, none]
      have distinct := Ordered.distinct rootOrdered
      rw [placed] at distinct
      refine ⟨rootAvl, rootOrdered, ?_, ?_, ?_⟩
      · show tree.count + 1 = _
        rw [holds.counted, placed, split]
        simp only [List.length_append, List.length_cons]
        omega
      · show entry valueOf root.keys = _
        rw [placed, entry_middle distinct, ← split, holds.entries]
      · intro other member
        rw [placed] at member
        rcases List.mem_append.1 member with first | second
        · exact holds.known other (split ▸ List.mem_append_left _ first)
        · rcases List.mem_cons.1 second with rfl | later
          · exact inUse
          · exact holds.known other (split ▸ List.mem_append_right _ later)
  · obtain ⟨old, there⟩ := there
    obtain ⟨found, member, value, runs⟩ :=
      avlTreeAdd_found holds.avl holds.ordered keyCompares (holds.present there)
    have same := holds.same there member value
    refine ⟨.node (some found), tree, ?_, ?_, ?_⟩
    · rw [avlTreeCall, runs]
      rfl
    · rw [dictionaryCall, there, same]
      rfl
    · rw [dictionaryCall, there]
      exact holds

/-- `avl_tree_del` takes the key out of the dictionary, and returns NULL when there was none. -/
theorem avlTreeDel_holds :
    ∃ reply after, avlTreeCall cmp tree (.del key) = .ok (reply, after) ∧
      reply.told = (dictionaryCall valueOf dictionary (.del key)).1 ∧
      HoldsKeys valueOf used after (dictionaryCall valueOf dictionary (.del key)).2 := by
  have keyCompares := holds.compares_key compares inUse
  rcases Option.eq_none_or_eq_some (dictionary (valueOf key)) with none | there
  · obtain ⟨runs, -⟩ :=
      avlTreeDel_absent holds.avl holds.ordered keyCompares (holds.absent none)
    refine ⟨.parent .null, tree, ?_, ?_, ?_⟩
    · rw [avlTreeCall, runs]
      rfl
    · rw [dictionaryCall, none]
      rfl
    · rw [dictionaryCall, ← none, Function.update_eq_self]
      exact holds
  · obtain ⟨old, there⟩ := there
    obtain ⟨parent, root, before, gone, after, split, value, left, rootAvl, -, runs, notNull, -⟩ :=
      avlTreeDel_present holds.avl holds.ordered keyCompares (holds.present there)
    have told : parent.present = true := by
      cases parent with
      | null => exact absurd rfl notNull
      | node other => rfl
      | freed => rfl
    have ascends := holds.ordered
    rw [Ordered, split] at ascends
    have distinct := holds.ordered.distinct
    rw [split] at distinct
    refine ⟨.parent parent, { tree with root := root, count := tree.count - 1 }, ?_, ?_, ?_⟩
    · rw [avlTreeCall, runs]
      rfl
    · rw [dictionaryCall, there, AvlReply.told, told]
      rfl
    · refine ⟨rootAvl, ?_, ?_, ?_, ?_⟩
      · show (root.keys.map valueOf).Pairwise (· < ·)
        rw [left]
        exact pairwise_without ascends
      · show tree.count - 1 = _
        rw [holds.counted, left, split]
        simp only [List.length_append, List.length_cons]
        omega
      · show entry valueOf root.keys = _
        rw [left, entry_without distinct, ← split, holds.entries, value]
        rfl
      · intro other member
        rw [left] at member
        apply holds.known other
        rw [split]
        rcases List.mem_append.1 member with first | second
        · exact List.mem_append_left _ first
        · exact List.mem_append_right _ (List.mem_cons_of_mem _ second)

/-- `avl_tree_find` returns the key of the dictionary. -/
theorem avlTreeFind_holds :
    ∃ reply after, avlTreeCall cmp tree (.find key) = .ok (reply, after) ∧
      reply.told = (dictionaryCall valueOf dictionary (.find key)).1 ∧
      HoldsKeys valueOf used after (dictionaryCall valueOf dictionary (.find key)).2 := by
  have keyCompares := holds.compares_key compares inUse
  rcases Option.eq_none_or_eq_some (dictionary (valueOf key)) with none | there
  · obtain ⟨-, finds⟩ :=
      avlTreeDel_absent holds.avl holds.ordered keyCompares (holds.absent none)
    refine ⟨.node Option.none, tree, ?_, ?_, holds⟩
    · rw [avlTreeCall, finds]
      rfl
    · rw [dictionaryCall, none]
      rfl
  · obtain ⟨old, there⟩ := there
    obtain ⟨-, -, before, gone, after, split, value, -, -, ⟨left, right, h, finds⟩, -⟩ :=
      avlTreeDel_present holds.avl holds.ordered keyCompares (holds.present there)
    have member : gone ∈ tree.root.keys := by
      rw [split]
      exact List.mem_append_right _ List.mem_cons_self
    refine ⟨.node (some gone), tree, ?_, ?_, holds⟩
    · rw [avlTreeCall, finds]
      rfl
    · rw [dictionaryCall, there, holds.same there member value]
      rfl

end Step

/-- One call keeps the invariant and answers as the dictionary does. -/
theorem avlTreeCall_holds {tree : AvlTree κ} {dictionary : ν → Option κ}
    (holds : HoldsKeys valueOf used tree dictionary)
    (compares : ∀ a ∈ used, ∀ b ∈ used, Compares cmp valueOf a b) :
    ∀ {call : AvlCall κ}, call.key ∈ used →
      ∃ reply after, avlTreeCall cmp tree call = .ok (reply, after) ∧
        reply.told = (dictionaryCall valueOf dictionary call).1 ∧
        HoldsKeys valueOf used after (dictionaryCall valueOf dictionary call).2
  | .add _, inUse => avlTreeAdd_holds holds compares inUse
  | .del _, inUse => avlTreeDel_holds holds compares inUse
  | .find _, inUse => avlTreeFind_holds holds compares inUse

/-- A run of calls keeps the invariant and answers as the dictionary does. -/
theorem avlTreeCalls_holds (used : Set κ)
    (compares : ∀ a ∈ used, ∀ b ∈ used, Compares cmp valueOf a b) :
    ∀ (calls : List (AvlCall κ)) {tree : AvlTree κ} {dictionary : ν → Option κ},
      HoldsKeys valueOf used tree dictionary → (∀ call ∈ calls, call.key ∈ used) →
        ∃ replies after, avlTreeCalls cmp tree calls = .ok (replies, after) ∧
          replies.map AvlReply.told = (dictionaryCalls valueOf dictionary calls).1 ∧
          HoldsKeys valueOf used after (dictionaryCalls valueOf dictionary calls).2
  | [], tree, _, holds, _ => ⟨[], tree, rfl, rfl, holds⟩
  | call :: calls, tree, dictionary, holds, inUse => by
      obtain ⟨reply, next, runs, told, nextHolds⟩ :=
        avlTreeCall_holds holds compares (inUse call List.mem_cons_self)
      obtain ⟨replies, after, restRuns, restTold, afterHolds⟩ :=
        avlTreeCalls_holds used compares calls nextHolds
          (fun other member => inUse other (List.mem_cons_of_mem _ member))
      refine ⟨reply :: replies, after, ?_, ?_, afterHolds⟩
      · rw [avlTreeCalls, runs, Exec.ok_bind]
        show (avlTreeCalls cmp next calls >>= _) = _
        rw [restRuns]
        rfl
      · rw [List.map_cons, told, restTold]
        rfl

/-- Every run of `avl_tree_add`, `avl_tree_del` and `avl_tree_find` from an empty tree returns, and
answers as a dictionary from the values of keys to the keys: a key whose value is there is not put
in again but returned, and a deletion returns NULL when nothing has the value. The tree is then
balanced and ordered, has exactly the keys of the dictionary, and counts them. -/
theorem avlTree_dictionary (calls : List (AvlCall κ))
    (compares : ∀ a ∈ calls.map AvlCall.key, ∀ b ∈ calls.map AvlCall.key,
      Compares cmp valueOf a b) :
    ∃ replies tree, avlTreeCalls cmp avlTreeInit calls = .ok (replies, tree) ∧
      replies.map AvlReply.told = (dictionaryCalls valueOf (fun _ => none) calls).1 ∧
      tree.root.Avl ∧ (tree.root.keys.map valueOf).Pairwise (· < ·) ∧
      tree.count = tree.root.keys.length ∧
      ∀ value key, (dictionaryCalls valueOf (fun _ => none) calls).2 value = some key ↔
        key ∈ tree.root.keys ∧ valueOf key = value := by
  obtain ⟨replies, tree, runs, told, holds⟩ := avlTreeCalls_holds
    {key | key ∈ calls.map AvlCall.key} compares calls HoldsKeys.init
    (fun call member => List.mem_map_of_mem member)
  refine ⟨replies, tree, runs, told, holds.avl, holds.ordered, holds.counted, ?_⟩
  intro value key
  rw [← holds.entries]
  exact entry_eq_some holds.ordered.distinct

/-- `on_compare` of the tests. -/
def onCompare (a b : Int) : Exec Int := .ok (a - b)

theorem onCompare_compares (a b : Int) : Compares onCompare id a b :=
  ⟨a - b, rfl, Int.sub_eq_zero, Int.sub_pos⟩

/-- A deletion in the middle of a run. -/
theorem avlTree_dictionary_four :
    ∃ replies tree, avlTreeCalls onCompare avlTreeInit
        [.add 5, .add 8, .add 5, .add 1, .del 5, .del 5, .find 8] = .ok (replies, tree) ∧
      replies.map AvlReply.told = [.key (some 5), .key (some 8), .key (some 5), .key (some 1),
        .deleted true, .deleted false, .key (some 8)] ∧
      tree.root.Avl := by
  obtain ⟨replies, tree, runs, told, avl, -⟩ := avlTree_dictionary
    [.add 5, .add 8, .add 5, .add 1, .del 5, .del 5, .find 8]
    (fun a _ b _ => onCompare_compares a b)
  refine ⟨replies, tree, runs, ?_, avl⟩
  rw [told]
  decide

/-! ## Heights -/

/-- A balanced tree of a height has so many keys at least. -/
theorem AvlNode.Avl.fib_le : ∀ {n : AvlNode κ}, n.Avl →
    Nat.fib (n.heightOf.toNat + 2) ≤ n.keys.length + 1
  | .null, _ => le_refl 1
  | .node key left right h, avl => by
      obtain ⟨height, low, high, leftAvl, rightAvl⟩ := avl_node.1 avl
      have leftLeast := leftAvl.fib_le
      have rightLeast := rightAvl.fib_le
      have leftBottom := leftAvl.heightOf_nonneg
      have rightBottom := rightAvl.heightOf_nonneg
      have size : (node key left right h).keys.length + 1 =
          (left.keys.length + 1) + (right.keys.length + 1) := by
        rw [AvlNode.keys, List.length_append, List.length_cons]
        omega
      -- one side has the full height below the node, and the other lacks one at most
      obtain ⟨below, isBelow⟩ : ∃ below : Nat, (node key left right h).heightOf.toNat = below + 1 :=
        ⟨(max left.heightOf right.heightOf).toNat, by
          show h.toNat = _
          omega⟩
      have isHeight : h.toNat = below + 1 := isBelow
      have sum : Nat.fib (below + 3) = Nat.fib (below + 1) + Nat.fib (below + 2) := Nat.fib_add_two
      rw [isBelow, size]
      show Nat.fib (below + 3) ≤ _
      rw [sum]
      rcases le_total left.heightOf right.heightOf with rightHigher | leftHigher
      · have full : right.heightOf.toNat + 2 = below + 2 := by omega
        have least : below + 1 ≤ left.heightOf.toNat + 2 := by omega
        rw [full] at rightLeast
        exact Nat.add_le_add (le_trans (Nat.fib_mono least) leftLeast) rightLeast
      · have full : left.heightOf.toNat + 2 = below + 2 := by omega
        have least : below + 1 ≤ right.heightOf.toNat + 2 := by omega
        rw [full] at leftLeast
        rw [Nat.add_comm]
        exact Nat.add_le_add leftLeast (le_trans (Nat.fib_mono least) rightLeast)

/-- A tree that fits an address space is not higher than this. -/
theorem AvlNode.Avl.height_le {n : AvlNode κ} (avl : n.Avl) (few : n.keys.length < 2 ^ 64) :
    n.heightOf ≤ 91 := by
  by_contra high
  have least : 94 ≤ n.heightOf.toNat + 2 := by omega
  have many : Nat.fib 94 ≤ n.keys.length + 1 := le_trans (Nat.fib_mono least) avl.fib_le
  have value : Nat.fib 94 = 19740274219868223167 := by decide +kernel
  rw [value] at many
  omega

/-! ## The arrays of pointers -/

/-- `AVL_TREE_MAX_HEIGHT` -/
def avlTreeMaxHeight : Nat := 8 * 8 * 3 / 2

/-- `i` of `avl_tree_add` after the loop: `a[0]` to `a[i - 1]` were written. -/
def avlTreeAddIndex (cmp : κ → κ → Exec Int) (key : κ) (root : AvlNode κ) : Exec Nat := do
  let (_, path) ← avlTreeDescend cmp key root []
  .ok (path.length + 1)

/-- `i` of `avl_tree_del` after both loops. -/
def avlTreeDelIndex (cmp : κ → κ → Exec Int) (key : κ) (root : AvlNode κ) : Exec Nat := do
  let (n, path) ← avlTreeDelDescend cmp key root []
  match n with
  | node _ (node keyL leftL rightL hL) _ _ =>
      .ok (path.length + 3 + (avlTreeLast keyL leftL rightL hL []).passed.length)
  | _ => .ok (path.length + 2)

theorem avlTreeDescend_length {key : κ} {found : Option κ} {way : List (AvlStep κ)} :
    ∀ {n : AvlNode κ} {path : List (AvlStep κ)}, n.Avl →
      avlTreeDescend cmp key n path = .ok (found, way) →
        (way.length : Int) ≤ path.length + n.heightOf
  | null, path, _, descends => by
      rw [avlTreeDescend] at descends
      cases descends
      exact le_of_eq (Int.add_zero _).symm
  | node nodeKey left right h, path, avl, descends => by
      obtain ⟨height, low, high, leftAvl, rightAvl⟩ := avl_node.1 avl
      rw [avlTreeDescend] at descends
      obtain ⟨c, -, descends⟩ := Exec.bind_eq_ok.1 descends
      show _ ≤ _ + h
      split at descends
      next =>
        cases descends
        have leftBottom := leftAvl.heightOf_nonneg
        omega
      next =>
        split at descends
        next =>
          have most := avlTreeDescend_length rightAvl descends
          rw [List.length_cons] at most
          omega
        next =>
          have most := avlTreeDescend_length leftAvl descends
          rw [List.length_cons] at most
          omega

theorem avlTreeDelDescend_length {key : κ} {found : AvlNode κ} {way : List (AvlStep κ)} :
    ∀ {n : AvlNode κ} {path : List (AvlStep κ)}, n.Avl →
      avlTreeDelDescend cmp key n path = .ok (found, way) →
        found.Avl ∧ (way.length : Int) + found.heightOf ≤ path.length + n.heightOf
  | null, path, avl, descends => by
      rw [avlTreeDelDescend] at descends
      cases descends
      exact ⟨avl, le_refl _⟩
  | node nodeKey left right h, path, avl, descends => by
      obtain ⟨height, low, high, leftAvl, rightAvl⟩ := avl_node.1 avl
      rw [avlTreeDelDescend] at descends
      obtain ⟨c, -, descends⟩ := Exec.bind_eq_ok.1 descends
      split at descends
      next =>
        cases descends
        exact ⟨avl, le_refl _⟩
      next =>
        show _ ∧ _ ≤ _ + h
        split at descends
        next =>
          obtain ⟨foundAvl, most⟩ := avlTreeDelDescend_length rightAvl descends
          rw [List.length_cons] at most
          exact ⟨foundAvl, by omega⟩
        next =>
          obtain ⟨foundAvl, most⟩ := avlTreeDelDescend_length leftAvl descends
          rw [List.length_cons] at most
          exact ⟨foundAvl, by omega⟩

theorem avlTreeLast_length : ∀ {right : AvlNode κ} {key : κ} {left : AvlNode κ} {h : Int}
    (passed : List (AvlStep κ)), (node key left right h).Avl →
      ((avlTreeLast key left right h passed).passed.length : Int) + 1 ≤ passed.length + h
  | null, key, left, h, passed, avl => by
      obtain ⟨height, low, high, leftAvl, -⟩ := avl_node.1 avl
      have bottom := leftAvl.heightOf_nonneg
      show (passed.length : Int) + 1 ≤ _
      omega
  | node keyR leftR rightR hR, key, left, h, passed, avl => by
      obtain ⟨height, low, high, -, rightAvl⟩ := avl_node.1 avl
      have most := avlTreeLast_length (⟨key, true, left, h⟩ :: passed) rightAvl
      rw [List.length_cons] at most
      rw [avlTreeLast]
      have isHeight : (node keyR leftR rightR hR).heightOf = hR := rfl
      omega

theorem avlTreeAddIndex_le {key : κ} {n : AvlNode κ} {i : Nat} (avl : n.Avl)
    (index : avlTreeAddIndex cmp key n = .ok i) : (i : Int) ≤ n.heightOf + 1 := by
  obtain ⟨⟨found, way⟩, descends, same⟩ := Exec.bind_eq_ok.1 index
  cases same
  have most := avlTreeDescend_length avl descends
  rw [List.length_nil] at most
  omega

theorem avlTreeDelIndex_le {key : κ} {n : AvlNode κ} {i : Nat} (avl : n.Avl)
    (index : avlTreeDelIndex cmp key n = .ok i) : (i : Int) ≤ n.heightOf + 2 := by
  obtain ⟨⟨found, way⟩, descends, same⟩ := Exec.bind_eq_ok.1 index
  obtain ⟨foundAvl, most⟩ := avlTreeDelDescend_length avl descends
  rw [List.length_nil] at most
  have bottom := foundAvl.heightOf_nonneg
  cases found with
  | null =>
      cases same
      omega
  | node key left right h =>
      cases left with
      | null =>
          cases same
          omega
      | node keyL leftL rightL hL =>
          obtain ⟨height, low, high, leftAvl, rightAvl⟩ := avl_node.1 foundAvl
          have below := avlTreeLast_length [] leftAvl
          have isHeight : (node keyL leftL rightL hL).heightOf = hL := rfl
          have isFound : (node key (node keyL leftL rightL hL) right h).heightOf = h := rfl
          cases same
          rw [List.length_nil] at below
          push_cast
          omega

/-- In every run from an empty tree, as long as the keys fit an address space, the next
`avl_tree_add` and the next `avl_tree_del` write inside their arrays of `AVL_TREE_MAX_HEIGHT` and
`AVL_TREE_MAX_HEIGHT + 1` pointers, whatever key they look for. -/
theorem avlTree_arrays {calls : List (AvlCall κ)} {replies : List (AvlReply κ)} {tree : AvlTree κ}
    {key : κ} (compares : ∀ a ∈ key :: calls.map AvlCall.key,
      ∀ b ∈ key :: calls.map AvlCall.key, Compares cmp valueOf a b)
    (runs : avlTreeCalls cmp avlTreeInit calls = .ok (replies, tree))
    (few : tree.root.keys.length < 2 ^ 64) :
    ∃ i j, avlTreeAddIndex cmp key tree.root = .ok i ∧ i ≤ avlTreeMaxHeight ∧
      avlTreeDelIndex cmp key tree.root = .ok j ∧ j ≤ avlTreeMaxHeight + 1 := by
  obtain ⟨replies', tree', runs', -, holds⟩ := avlTreeCalls_holds
    {other | other ∈ key :: calls.map AvlCall.key} compares calls HoldsKeys.init
    (fun call member => List.mem_cons_of_mem _ (List.mem_map_of_mem member))
  rw [runs] at runs'
  cases runs'
  have keyCompares := holds.compares_key compares List.mem_cons_self
  obtain ⟨i, addIndex⟩ : ∃ i, avlTreeAddIndex cmp key tree.root = .ok i := by
    obtain ⟨outcome, descends, -⟩ :=
      avlTreeDescend_finds key [] holds.avl holds.ordered keyCompares trivial
    rw [avlTreeAddIndex, descends]
    exact ⟨_, rfl⟩
  obtain ⟨j, delIndex⟩ : ∃ j, avlTreeDelIndex cmp key tree.root = .ok j := by
    obtain ⟨found, way, -, -, descends, -, -⟩ :=
      avlTreeDelDescend_reaches key [] holds.avl holds.ordered keyCompares trivial
    rw [avlTreeDelIndex, descends, Exec.ok_bind]
    dsimp only
    split
    next => exact ⟨_, rfl⟩
    next => exact ⟨_, rfl⟩
  have most := holds.avl.height_le few
  have size : avlTreeMaxHeight = 96 := rfl
  have addBelow := avlTreeAddIndex_le holds.avl addIndex
  have delBelow := avlTreeDelIndex_le holds.avl delIndex
  exact ⟨i, j, addIndex, by omega, delIndex, by omega⟩

/-- The arrays after two insertions. -/
theorem avlTree_arrays_two :
    ∃ i j, avlTreeAddIndex onCompare 7 (.node 5 .null (.node 8 .null .null 1) 2) = .ok i ∧
      i ≤ avlTreeMaxHeight ∧
      avlTreeDelIndex onCompare 7 (.node 5 .null (.node 8 .null .null 1) 2) = .ok j ∧
      j ≤ avlTreeMaxHeight + 1 := by
  have runs : avlTreeCalls onCompare avlTreeInit [.add 5, .add 8] =
      .ok ([.node (some 5), .node (some 8)],
        ⟨.node 5 .null (.node 8 .null .null 1) 2, 2, none, []⟩) := rfl
  exact avlTree_arrays (fun a _ b _ => onCompare_compares a b) runs (by decide)

end BitcoinClib.Utils
