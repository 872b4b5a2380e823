import BitcoinClib.Block.Binding

/-!
Contract: the merkle tree of `merkle_tree.c` over sequences of its operations.

Owns:
- the tree with its array of items and the buffers of its layers, which are reused and only
  grow;
- `merkle_tree_add`, `merkle_tree_remove`, `merkle_tree_set` and `merkle_tree_recalc`;
- the list of items the operations maintain (`MerkleOp.apply`);
- when a sequence of operations returns, and that the root is then the one of that list.

An `int` or an index that leaves the array of items faults. Allocations succeed.
-/

namespace BitcoinClib.Block

open BitcoinClib.Lib
open BitcoinClib.Types
open BitcoinClib.Crypto

/-! ## The tree -/

/-- `merkle_tree_layer_t`; `max_size` is the length of `items`. -/
structure MerkleTreeLayer where
  count : Nat
  items : List Uint256
deriving DecidableEq

/-- `uint256_merkle_tree_t` with its private part; `max_size` is the length of `items`. -/
structure MerkleTree where
  items : List Uint256
  count : Nat
  merkleRoot : Uint256
  layersCount : Nat
  layers : List MerkleTreeLayer
deriving DecidableEq

/-- A buffer grown to `size` entries, the new ones zero. -/
def growBuffer (items : List Uint256) (size : Nat) : List Uint256 :=
  if size ≤ items.length then items
  else items ++ List.replicate (size - items.length) uint256Zero

/-- `merkle_tree_layer_resize` -/
def merkleTreeLayerResize (layer : MerkleTreeLayer) (size : Nat) : MerkleTreeLayer :=
  { layer with items := growBuffer layer.items (size + size % 2) }

/-- `MERKLE_TREE_ALLOC_SIZE` -/
def merkleTreeAllocSize : Nat := 4096

/-- The size that `merkle_tree_resize` allocates. -/
def roundedSize (size : Nat) : Nat :=
  (size + merkleTreeAllocSize - 1) / merkleTreeAllocSize * merkleTreeAllocSize

/-- `merkle_tree_resize` -/
def merkleTreeResize (mtree : MerkleTree) (size : Nat) : MerkleTree :=
  { mtree with items := growBuffer mtree.items (roundedSize size) }

/-- `uint256_merkle_tree_new`; for a size that is not positive nothing is allocated. -/
def uint256MerkleTreeNew (maxSize : Int) : MerkleTree :=
  merkleTreeResize
    ⟨[], 0, uint256Zero, 0, List.replicate merkleTreeMaxLayers ⟨0, []⟩⟩ maxSize.toNat

/-! ## Operations -/

def readItem (items : List Uint256) (index : Nat) : Exec Uint256 :=
  match items[index]? with
  | some item => .ok item
  | none => .fault .bounds

def writeItem (items : List Uint256) (index : Nat) (item : Uint256) : Exec (List Uint256) :=
  if index < items.length then .ok (items.set index item) else .fault .bounds

/-- `for(i = 0; i < count / 2; ++i)`, from the index `i` on. -/
def hashPairs (crypto : CryptoBackend) (items : List Uint256) :
    Nat → Nat → List Uint256 → Exec (List Uint256)
  | 0, _, layerItems => .ok layerItems
  | pairs + 1, i, layerItems => do
      let left ← readItem items (i * 2)
      let right ← readItem items (i * 2 + 1)
      let layerItems ← writeItem layerItems i (hash256 crypto (left.val ++ right.val))
      hashPairs crypto items pairs (i + 1) layerItems

/-- One turn of the loop of `merkle_tree_recalc`: a layer over `count` items. -/
def recalcLayer (crypto : CryptoBackend) (items : List Uint256) (count : Nat)
    (layer : MerkleTreeLayer) : Exec MerkleTreeLayer :=
  if 2 ^ 31 ≤ count + 1 then .fault .overflow
  else do
    let layerSize := (count + 1) / 2
    let layer := merkleTreeLayerResize layer layerSize
    let layerItems ← hashPairs crypto items (count / 2) 0 layer.items
    let layerItems ← if count % 2 = 1 then do
        -- the last hash is taken twice
        let last ← readItem items (count - 1)
        writeItem layerItems (count / 2) (hash256 crypto (last.val ++ last.val))
      else .ok layerItems
    return ⟨layerSize, layerItems⟩

/-- The loop of `merkle_tree_recalc`: the layers, the root if one was reached, and the index
of the layer it ended in. -/
def recalcLoop (crypto : CryptoBackend) :
    List MerkleTreeLayer → List Uint256 → Nat →
      Exec (List MerkleTreeLayer × Option Uint256 × Nat)
  | [], _, _ => .ok ([], none, 0)
  | layer :: layers, items, count => do
      let layer ← recalcLayer crypto items count layer
      if layer.count = 1 then do
        let root ← readItem layer.items 0
        return (layer :: layers, some root, 0)
      else do
        let (layers, root, layerIndex) ← recalcLoop crypto layers layer.items layer.count
        return (layer :: layers, root, layerIndex + 1)

/-- `merkle_tree_recalc` -/
def recalc (crypto : CryptoBackend) (mtree : MerkleTree) (startIndex count : Int) :
    Exec MerkleTree :=
  let count : Int := if count < 0 then mtree.count - startIndex else count
  if mtree.count ≤ 1 then
    if mtree.count = 1 then do
      let item ← readItem mtree.items 0
      return { mtree with merkleRoot := item }
    else .ok mtree
  else do
    Exec.assert (0 ≤ startIndex ∧ startIndex < mtree.count)
    let count := if count ≤ 0 then mtree.count - startIndex else count
    Exec.assert (startIndex = 0)
    let (layers, root, layerIndex) ← recalcLoop crypto mtree.layers mtree.items count.toNat
    return { mtree with
      merkleRoot := root.getD mtree.merkleRoot
      layersCount := layerIndex
      layers }

/-- `merkle_tree_add`; `count` is the length of `items`. -/
def merkleTreeAdd (mtree : MerkleTree) (items : List Uint256) : Exec MerkleTree := do
  Exec.assert (mtree.count < mtree.count + items.length)
  let mtree := merkleTreeResize mtree (mtree.count + items.length)
  return { mtree with
    items := mtree.items.take mtree.count ++ items ++ mtree.items.drop (mtree.count + items.length)
    count := mtree.count + items.length }

/-- `merkle_tree_remove` -/
def merkleTreeRemove (mtree : MerkleTree) (index : Int) : Int × MerkleTree :=
  if mtree.count = 0 ∨ index < 0 ∨ mtree.count ≤ index then (-1, mtree)
  else
    let count := mtree.count - 1
    let items := if index < count
      then mtree.items.set index.toNat (mtree.items.getD count uint256Zero) else mtree.items
    (0, { mtree with items := items.set count uint256Zero, count })

/-- `merkle_tree_set` -/
def merkleTreeSet (mtree : MerkleTree) (index : Int) (item : Uint256) : Int × MerkleTree :=
  if mtree.count = 0 ∨ index < 0 ∨ mtree.count ≤ index then (-1, mtree)
  else (0, { mtree with items := mtree.items.set index.toNat item })

/-- A call of one of the operations. -/
inductive MerkleOp where
  | add (items : List Uint256)
  | remove (index : Int)
  | set (index : Int) (item : Uint256)
  | recalc (startIndex count : Int)
deriving DecidableEq

def runOp (crypto : CryptoBackend) (mtree : MerkleTree) : MerkleOp → Exec MerkleTree
  | .add items => merkleTreeAdd mtree items
  | .remove index => .ok (merkleTreeRemove mtree index).2
  | .set index item => .ok (merkleTreeSet mtree index item).2
  | .recalc startIndex count => recalc crypto mtree startIndex count

def runOps (crypto : CryptoBackend) (mtree : MerkleTree) : List MerkleOp → Exec MerkleTree
  | [] => .ok mtree
  | op :: ops => do
      let mtree ← runOp crypto mtree op
      runOps crypto mtree ops

/-! ## Buffers -/

theorem growBuffer_length (items : List Uint256) (size : Nat) :
    (growBuffer items size).length = max items.length size := by
  unfold growBuffer
  split
  · omega
  · rw [List.length_append, List.length_replicate]
    omega

theorem growBuffer_take {items : List Uint256} {count : Nat} (inside : count ≤ items.length)
    (size : Nat) : (growBuffer items size).take count = items.take count := by
  unfold growBuffer
  split
  · rfl
  · exact List.take_append_of_le_length inside

theorem readItem_eq {items : List Uint256} {index : Nat} (inside : index < items.length) :
    readItem items index = .ok items[index] := by
  rw [readItem, List.getElem?_eq_getElem inside]

theorem readItem_of_le {items : List Uint256} {index : Nat} (outside : items.length ≤ index) :
    readItem items index = .fault .bounds := by
  rw [readItem, List.getElem?_eq_none outside]

/-! ## One layer -/

theorem merkleLayer_length (crypto : CryptoBackend) (items : List Uint256) :
    (merkleLayer crypto items).length = (items.length + 1) / 2 := by
  rw [merkleLayer_eq, List.length_map, PairTree.toPairs_length]

/-- A layer over an even number of items, and over the rest. -/
theorem merkleLayer_append (crypto : CryptoBackend) {front : List Uint256}
    (even : front.length % 2 = 0) (back : List Uint256) :
    merkleLayer crypto (front ++ back) = merkleLayer crypto front ++ merkleLayer crypto back := by
  induction front using PairTree.toPairs.induct with
  | case1 => rfl
  | case2 last => cases even
  | case3 left right front inductionHypothesis =>
      have evenTail : front.length % 2 = 0 := by
        rw [List.length_cons, List.length_cons] at even
        omega
      rw [List.cons_append, List.cons_append, merkleLayer, merkleLayer, List.cons_append,
        inductionHypothesis evenTail]

/-- The loop writes the hashes of the pairs from index `i` on. -/
theorem hashPairs_eq (crypto : CryptoBackend) {items : List Uint256} {pairs i : Nat}
    {layerItems : List Uint256} (available : 2 * (i + pairs) ≤ items.length)
    (room : i + pairs ≤ layerItems.length) :
    hashPairs crypto items pairs i layerItems = .ok (layerItems.take i ++
      merkleLayer crypto ((items.drop (2 * i)).take (2 * pairs)) ++ layerItems.drop (i + pairs)) := by
  induction pairs generalizing i layerItems with
  | zero =>
      rw [Nat.mul_zero, List.take_zero, merkleLayer, List.append_nil, Nat.add_zero,
        List.take_append_drop]
      rfl
  | succ pairs inductionHypothesis =>
      have first : i * 2 < items.length := by omega
      have second : i * 2 + 1 < items.length := by omega
      have pair : (items.drop (2 * i)).take (2 * (pairs + 1)) =
          items[i * 2] :: items[i * 2 + 1] :: (items.drop (2 * (i + 1))).take (2 * pairs) := by
        have next : i * 2 + 1 + 1 = 2 * (i + 1) := by ring
        rw [Nat.mul_comm 2 i, List.drop_eq_getElem_cons first, List.drop_eq_getElem_cons second, next]
        rfl
      rw [hashPairs, readItem_eq first, Exec.ok_bind, readItem_eq second, Exec.ok_bind, writeItem,
        if_pos (by omega), Exec.ok_bind,
        inductionHypothesis (by omega) (by rw [List.length_set]; omega), pair, merkleLayer]
      congr 1
      have written : (layerItems.set i (hash256 crypto (items[i * 2].val ++
          items[i * 2 + 1].val))).take (i + 1) =
          layerItems.take i ++ [hash256 crypto (items[i * 2].val ++ items[i * 2 + 1].val)] := by
        rw [List.take_set, List.take_add_one, List.getElem?_eq_getElem (by omega),
          List.set_append_right _ _ (by rw [List.length_take]; omega), List.length_take,
          Nat.min_eq_left (by omega), Nat.sub_self]
        rfl
      rw [written, List.drop_set_of_lt (by omega), List.append_assoc, List.append_assoc,
        List.append_assoc, show i + 1 + pairs = i + (pairs + 1) by ring]
      rfl

/-- The buffer of the layer starts with the layer over the items; what an earlier and larger tree
left behind stands after it. -/
theorem recalcLayer_eq (crypto : CryptoBackend) {items : List Uint256} {count : Nat}
    (layer : MerkleTreeLayer) (available : count ≤ items.length) (bounded : count + 1 < 2 ^ 31) :
    recalcLayer crypto items count layer = .ok ⟨(count + 1) / 2,
      merkleLayer crypto (items.take count) ++
        (merkleTreeLayerResize layer ((count + 1) / 2)).items.drop ((count + 1) / 2)⟩ := by
  have room : (count + 1) / 2 ≤ (merkleTreeLayerResize layer ((count + 1) / 2)).items.length := by
    rw [merkleTreeLayerResize, growBuffer_length]
    omega
  unfold recalcLayer
  rw [if_neg (by omega)]
  dsimp only
  generalize (merkleTreeLayerResize layer ((count + 1) / 2)).items = buffer at *
  have pairs := @hashPairs_eq crypto items (count / 2) 0 buffer (by omega) (by omega)
  rw [Nat.mul_zero, List.drop_zero, List.take_zero, List.nil_append, Nat.zero_add] at pairs
  rw [pairs, Exec.ok_bind]
  by_cases odd : count % 2 = 1
  · have last : count - 1 < items.length := by omega
    have split : items.take count = items.take (2 * (count / 2)) ++ [items[count - 1]] := by
      have size : count = 2 * (count / 2) + 1 := by omega
      have index : 2 * (count / 2) = count - 1 := by omega
      conv_lhs => rw [size, List.take_add_one, List.getElem?_eq_getElem (by omega)]
      simp only [index, Option.toList_some]
    have even : (items.take (2 * (count / 2))).length % 2 = 0 := by
      rw [List.length_take]
      omega
    have front : (merkleLayer crypto (items.take (2 * (count / 2)))).length = count / 2 := by
      rw [merkleLayer_length, List.length_take]
      omega
    have size : (count + 1) / 2 = count / 2 + 1 := by omega
    have here : count / 2 < buffer.length := by omega
    rw [if_pos odd, readItem_eq last, Exec.ok_bind, writeItem, if_pos, Exec.ok_bind, split,
      merkleLayer_append crypto even, List.set_append_right _ _ front.le, front, Nat.sub_self,
      List.drop_eq_getElem_cons here, List.set_cons_zero, size, List.append_assoc]
    · rfl
    · rw [List.length_append, front, List.length_drop]
      omega
  · have whole : 2 * (count / 2) = count := by omega
    have size : (count + 1) / 2 = count / 2 := by omega
    rw [if_neg odd, whole, size]
    rfl

/-! ## The layers -/

/-- The root over a list of items. -/
def merkleRootOf (crypto : CryptoBackend) (items : List Uint256) : Option Uint256 :=
  PairTree.root (merkleNode crypto) items

theorem merkleRootOf_layer (crypto : CryptoBackend) {items : List Uint256}
    (several : 2 ≤ items.length) :
    merkleRootOf crypto items = merkleRootOf crypto (merkleLayer crypto items) := by
  rw [merkleRootOf, PairTree.root_layer _ several, ← merkleLayer_eq]
  rfl

theorem merkleLayers_root (crypto : CryptoBackend) {layers : Nat} {items : List Uint256}
    (several : 2 ≤ items.length) (enough : items.length ≤ 2 ^ layers) :
    merkleRootOf crypto items = some (merkleLayers crypto layers items) := by
  induction layers generalizing items with
  | zero =>
      rw [pow_zero] at enough
      omega
  | succ layers inductionHypothesis =>
      have width := merkleLayer_length crypto items
      rw [merkleRootOf_layer crypto several, merkleLayers]
      split
      next root single =>
        rw [single]
        exact PairTree.root_singleton _ root
      next layer notSingle =>
        refine inductionHypothesis ?_ (by rw [pow_succ] at enough; omega)
        by_contra few
        obtain ⟨root, one⟩ := List.length_eq_one_iff.1
          (show (merkleLayer crypto items).length = 1 by omega)
        exact notSingle root one

/-- The root that a block is checked against. -/
theorem merkleRootOf_eq (crypto : CryptoBackend) {items : List Uint256} (nonempty : items ≠ [])
    (bounded : items.length ≤ 2 ^ merkleTreeMaxLayers) :
    merkleRootOf crypto items = some (merkleTreeRecalc crypto items) := by
  match items with
  | [] => exact absurd rfl nonempty
  | [item] => exact PairTree.root_singleton _ item
  | left :: right :: others => exact merkleLayers_root crypto (by simp) bounded

/-- The layers suffice, the loop ends in one of them, and nothing but the items matters. -/
theorem recalcLoop_root (crypto : CryptoBackend) {layers : List MerkleTreeLayer}
    {items : List Uint256} {count : Nat} (positive : 0 < count) (available : count ≤ items.length)
    (bounded : count + 1 < 2 ^ 31) (some : layers ≠ []) (enough : count ≤ 2 ^ layers.length) :
    ∃ after root layerIndex,
      recalcLoop crypto layers items count = .ok (after, .some root, layerIndex) ∧
        after.length = layers.length ∧
        merkleRootOf crypto (merkleLayer crypto (items.take count)) = .some root := by
  induction layers generalizing items count with
  | nil => exact absurd rfl some
  | cons layer layers inductionHypothesis =>
      have width := merkleLayer_length crypto (items.take count)
      rw [List.length_take_of_le available] at width
      rw [recalcLoop, recalcLayer_eq crypto layer available bounded, Exec.ok_bind]
      dsimp only
      generalize (merkleTreeLayerResize layer ((count + 1) / 2)).items.drop ((count + 1) / 2) = left
      split
      next single =>
        obtain ⟨root, one⟩ := List.length_eq_one_iff.1 (width.trans single)
        rw [one]
        exact ⟨⟨(count + 1) / 2, [root] ++ left⟩ :: layers, root, 0, rfl, rfl,
          PairTree.root_singleton _ root⟩
      next more =>
        have whole : (merkleLayer crypto (items.take count) ++ left).take ((count + 1) / 2) =
            merkleLayer crypto (items.take count) := by
          rw [← width, List.take_left]
        rw [List.length_cons, pow_succ] at enough
        have others : layers ≠ [] := by
          intro none
          rw [none, List.length_nil, pow_zero] at enough
          omega
        obtain ⟨after, root, layerIndex, returns, size, value⟩ := @inductionHypothesis
          (merkleLayer crypto (items.take count) ++ left) ((count + 1) / 2)
          (by omega) (by rw [List.length_append]; omega) (by omega) others (by omega)
        rw [whole, ← merkleRootOf_layer crypto (by omega)] at value
        rw [returns, Exec.ok_bind]
        exact ⟨_, root, layerIndex + 1, rfl, by rw [List.length_cons, List.length_cons, size], value⟩

/-! ## What a call needs -/

/-- The pairs that are hashed have been read. -/
theorem available_of_hashPairs {crypto : CryptoBackend} {items : List Uint256} {pairs i : Nat}
    {layerItems : List Uint256} (returns : (hashPairs crypto items pairs i layerItems).Returns) :
    pairs = 0 ∨ 2 * (i + pairs) ≤ items.length := by
  induction pairs generalizing i layerItems with
  | zero => exact .inl rfl
  | succ pairs inductionHypothesis =>
      right
      rw [hashPairs] at returns
      obtain ⟨left, -, rest⟩ := Exec.returns_bind.1 returns
      obtain ⟨right, second, others⟩ := Exec.returns_bind.1 rest
      obtain ⟨written, -, last⟩ := Exec.returns_bind.1 others
      have inside : i * 2 + 1 < items.length := by
        by_contra outside
        rw [readItem_of_le (by omega)] at second
        cases second
      rcases inductionHypothesis last with none | available
      · omega
      · omega

/-- A layer returns only over items that exist, and over fewer than `2 ^ 31 - 1`. -/
theorem available_of_recalcLayer {crypto : CryptoBackend} {items : List Uint256} {count : Nat}
    {layer : MerkleTreeLayer} (returns : (recalcLayer crypto items count layer).Returns) :
    count ≤ items.length ∧ count + 1 < 2 ^ 31 := by
  unfold recalcLayer at returns
  split at returns
  · exact absurd returns (Exec.not_returns_fault _)
  next bounded =>
    refine ⟨?_, by omega⟩
    obtain ⟨layerItems, pairs, rest⟩ := Exec.returns_bind.1 returns
    have available := available_of_hashPairs ⟨layerItems, pairs⟩
    dsimp only at rest
    split at rest
    next single =>
      obtain ⟨last, odd, -⟩ := Exec.returns_bind.1 rest
      by_contra outside
      rw [readItem_of_le (by omega)] at odd
      cases odd
    next even => omega

theorem recalcLoop_length {crypto : CryptoBackend} {layers after : List MerkleTreeLayer}
    {items : List Uint256} {count layerIndex : Nat} {root : Option Uint256}
    (returns : recalcLoop crypto layers items count = .ok (after, root, layerIndex)) :
    after.length = layers.length := by
  induction layers generalizing items count after root layerIndex with
  | nil =>
      cases returns
      rfl
  | cons layer layers inductionHypothesis =>
      rw [recalcLoop] at returns
      obtain ⟨next, -, rest⟩ := Exec.bind_eq_ok.1 returns
      split at rest
      · obtain ⟨item, -, done⟩ := Exec.bind_eq_ok.1 rest
        cases done
        rfl
      · obtain ⟨⟨others, found, index⟩, loops, done⟩ := Exec.bind_eq_ok.1 rest
        cases done
        rw [List.length_cons, List.length_cons, inductionHypothesis loops]

/-! ## Operations on the list of items -/

/-- The items of the tree. -/
def MerkleTree.leaves (mtree : MerkleTree) : List Uint256 := mtree.items.take mtree.count

/-- What every operation keeps. -/
structure MerkleTree.Valid (mtree : MerkleTree) : Prop where
  allocated : mtree.count ≤ mtree.items.length
  layers : mtree.layers.length = merkleTreeMaxLayers

theorem MerkleTree.Valid.leaves_length {mtree : MerkleTree} (valid : mtree.Valid) :
    mtree.leaves.length = mtree.count :=
  List.length_take_of_le valid.allocated

/-- What an operation does to the items: a removed item is replaced by the last one. -/
def MerkleOp.apply : MerkleOp → List Uint256 → List Uint256
  | .add items, leaves => leaves ++ items
  | .remove index, leaves =>
      if index < 0 ∨ leaves.length ≤ index then leaves
      else (leaves.set index.toNat (leaves.getD (leaves.length - 1) uint256Zero)).dropLast
  | .set index item, leaves =>
      if index < 0 ∨ leaves.length ≤ index then leaves else leaves.set index.toNat item
  | .recalc _ _, leaves => leaves

/-- The items a sequence of operations leaves in an empty tree. -/
def leavesAfter (ops : List MerkleOp) : List Uint256 :=
  ops.foldl (fun leaves op => op.apply leaves) []

/-- The number of items that a call of `recalc` covers. -/
def recalcCount (mtree : MerkleTree) (count : Int) : Nat :=
  if 0 < count then count.toNat else mtree.count

/-- Something is added; a recalculation of several items starts with the first one, covers
only items in the array, and not `2 ^ 31 - 1` of them. -/
def OpReturns (mtree : MerkleTree) : MerkleOp → Prop
  | .add items => items ≠ []
  | .remove _ | .set _ _ => True
  | .recalc startIndex count => mtree.count ≤ 1 ∨ startIndex = 0 ∧
      recalcCount mtree count ≤ mtree.items.length ∧ recalcCount mtree count + 1 < 2 ^ 31

section Operations

variable {crypto : CryptoBackend} {mtree after : MerkleTree}

theorem merkleTreeResize_leaves (valid : mtree.Valid) (size : Nat) :
    (merkleTreeResize mtree size).items.take mtree.count = mtree.leaves :=
  growBuffer_take valid.allocated _

theorem le_roundedSize (size : Nat) : size ≤ roundedSize size := by
  unfold roundedSize merkleTreeAllocSize
  omega

theorem merkleTreeAdd_spec (valid : mtree.Valid) {items : List Uint256}
    (returns : merkleTreeAdd mtree items = .ok after) :
    items ≠ [] ∧ after.Valid ∧ after.leaves = mtree.leaves ++ items := by
  unfold merkleTreeAdd at returns
  obtain ⟨_, checked, done⟩ := Exec.bind_eq_ok.1 returns
  rw [Exec.assert_eq_ok] at checked
  cases done
  have room : mtree.count + items.length ≤
      (merkleTreeResize mtree (mtree.count + items.length)).items.length := by
    rw [merkleTreeResize, growBuffer_length]
    exact (le_roundedSize _).trans (le_max_right _ _)
  have width := valid.leaves_length
  refine ⟨?_, ⟨?_, valid.layers⟩, ?_⟩
  · apply List.ne_nil_of_length_pos
    omega
  · show mtree.count + items.length ≤ List.length (_ ++ _ ++ _)
    change _ ≤ (merkleTreeResize mtree _).items.length at room
    rw [List.length_append, List.length_append, List.length_take, List.length_drop]
    show mtree.count + items.length ≤
      min mtree.count (merkleTreeResize mtree (mtree.count + items.length)).items.length + _ + _
    omega
  · show List.take (mtree.count + items.length)
      ((merkleTreeResize mtree (mtree.count + items.length)).items.take mtree.count ++ items ++ _) = _
    rw [merkleTreeResize_leaves valid, List.take_append_of_le_length, List.take_of_length_le]
    · rw [List.length_append]
      omega
    · rw [List.length_append]
      omega

theorem merkleTreeAdd_returns {items : List Uint256} (some : items ≠ []) :
    (merkleTreeAdd mtree items).Returns := by
  have positive := List.length_pos_of_ne_nil some
  unfold merkleTreeAdd
  rw [Exec.assert_of (by omega), Exec.ok_bind]
  exact Exec.returns_ok _

theorem merkleTreeSet_spec (valid : mtree.Valid) (index : Int) (item : Uint256) :
    (merkleTreeSet mtree index item).2.Valid ∧
      (merkleTreeSet mtree index item).2.leaves = (MerkleOp.set index item).apply mtree.leaves := by
  have width := valid.leaves_length
  unfold merkleTreeSet MerkleOp.apply
  dsimp only
  rw [width]
  split
  next out =>
    refine ⟨valid, ?_⟩
    rw [if_pos (by omega)]
  next inside =>
    rw [if_neg (by omega)]
    refine ⟨⟨?_, valid.layers⟩, ?_⟩
    · rw [List.length_set]
      exact valid.allocated
    · exact List.take_set

theorem merkleTreeRemove_spec (valid : mtree.Valid) (index : Int) :
    (merkleTreeRemove mtree index).2.Valid ∧
      (merkleTreeRemove mtree index).2.leaves = (MerkleOp.remove index).apply mtree.leaves := by
  have width := valid.leaves_length
  have allocated := valid.allocated
  unfold merkleTreeRemove MerkleOp.apply
  dsimp only
  rw [width]
  by_cases out : index < 0 ∨ mtree.count ≤ index
  · rw [if_pos out, if_pos (by omega)]
    exact ⟨valid, rfl⟩
  · have last : mtree.leaves.getD (mtree.count - 1) uint256Zero =
        mtree.items.getD (mtree.count - 1) uint256Zero := by
      rw [List.getD_eq_getElem?_getD, List.getD_eq_getElem?_getD, MerkleTree.leaves,
        List.getElem?_take_of_lt (by omega)]
    rw [if_neg out, if_neg (by omega), last, List.dropLast_eq_take, List.length_set, width]
    refine ⟨⟨?_, valid.layers⟩, ?_⟩
    · dsimp only
      split
      · rw [List.length_set, List.length_set]
        omega
      · rw [List.length_set]
        omega
    · show List.take (mtree.count - 1) (List.set _ (mtree.count - 1) _) = _
      rw [List.take_set_of_le le_rfl, List.take_set, MerkleTree.leaves, List.take_take,
        Nat.min_eq_left (by omega)]
      split
      next moved => exact List.take_set
      next atEnd => rw [List.set_eq_of_length_le (by rw [List.length_take]; omega)]

theorem recalc_spec (valid : mtree.Valid) {startIndex count : Int}
    (returns : recalc crypto mtree startIndex count = .ok after) :
    after.Valid ∧ after.leaves = mtree.leaves := by
  unfold recalc at returns
  dsimp only at returns
  split at returns
  · split at returns
    · obtain ⟨item, -, done⟩ := Exec.bind_eq_ok.1 returns
      cases done
      exact ⟨⟨valid.allocated, valid.layers⟩, rfl⟩
    · cases returns
      exact ⟨valid, rfl⟩
  · obtain ⟨_, -, rest⟩ := Exec.bind_eq_ok.1 returns
    obtain ⟨_, -, rest⟩ := Exec.bind_eq_ok.1 rest
    obtain ⟨⟨layers, root, layerIndex⟩, loops, done⟩ := Exec.bind_eq_ok.1 rest
    cases done
    exact ⟨⟨valid.allocated, (recalcLoop_length loops).trans valid.layers⟩, rfl⟩

/-- A recalculation of several items, as far as its arguments matter. -/
theorem recalc_several (several : 2 ≤ mtree.count) (startIndex count : Int) :
    recalc crypto mtree startIndex count =
      if startIndex = 0 then do
        let (layers, root, layerIndex) ←
          recalcLoop crypto mtree.layers mtree.items (recalcCount mtree count)
        return { mtree with
          merkleRoot := root.getD mtree.merkleRoot
          layersCount := layerIndex
          layers }
      else .fault .assertion := by
  unfold recalc
  dsimp only
  rw [if_neg (by omega)]
  by_cases first : startIndex = 0
  · subst first
    have covered : (if (if count < 0 then (mtree.count : Int) - 0 else count) ≤ 0
        then (mtree.count : Int) - 0 else if count < 0 then (mtree.count : Int) - 0 else count).toNat =
        recalcCount mtree count := by
      unfold recalcCount
      split_ifs <;> omega
    rw [Exec.assert_of (by omega), Exec.ok_bind, Exec.assert_of rfl, Exec.ok_bind, covered, if_pos rfl]
  · rw [if_neg first]
    by_cases inside : 0 ≤ startIndex ∧ startIndex < mtree.count
    · rw [Exec.assert_of inside, Exec.ok_bind, Exec.assert_of_not first, Exec.fault_bind]
    · rw [Exec.assert_of_not inside, Exec.fault_bind]

theorem recalcCount_pos (several : 2 ≤ mtree.count) (count : Int) : 0 < recalcCount mtree count := by
  unfold recalcCount
  split <;> omega

/-- The loop over the layers of a tree. -/
theorem recalcLoop_layers (valid : mtree.Valid) {count : Nat} (positive : 0 < count)
    (available : count ≤ mtree.items.length) (bounded : count + 1 < 2 ^ 31) :
    ∃ after root layerIndex, recalcLoop crypto mtree.layers mtree.items count =
        .ok (after, some root, layerIndex) ∧
      merkleRootOf crypto (merkleLayer crypto (mtree.items.take count)) = some root := by
  have layers := valid.layers
  have enough : count ≤ 2 ^ mtree.layers.length := by
    rw [layers, merkleTreeMaxLayers]
    omega
  have some : mtree.layers ≠ [] := by
    apply List.ne_nil_of_length_pos
    rw [layers]
    decide
  obtain ⟨after, root, layerIndex, returns, -, value⟩ :=
    recalcLoop_root crypto positive available bounded some enough
  exact ⟨after, root, layerIndex, returns, value⟩

theorem recalc_returns_iff (valid : mtree.Valid) (startIndex count : Int) :
    (recalc crypto mtree startIndex count).Returns ↔ OpReturns mtree (.recalc startIndex count) := by
  show _ ↔ mtree.count ≤ 1 ∨ startIndex = 0 ∧
    recalcCount mtree count ≤ mtree.items.length ∧ recalcCount mtree count + 1 < 2 ^ 31
  by_cases few : mtree.count ≤ 1
  · refine iff_of_true ?_ (.inl few)
    have allocated := valid.allocated
    unfold recalc
    dsimp only
    rw [if_pos few]
    split
    next single =>
      rw [readItem_eq (by omega), Exec.ok_bind]
      exact Exec.returns_ok _
    next empty => exact Exec.returns_ok _
  · rw [recalc_several (by omega), or_iff_right few]
    by_cases first : startIndex = 0
    · rw [if_pos first]
      constructor
      · intro returns
        obtain ⟨outcome, loops, -⟩ := Exec.returns_bind.1 returns
        obtain ⟨layer, layers, stored⟩ : ∃ layer layers, mtree.layers = layer :: layers :=
          List.exists_cons_of_length_pos (by rw [valid.layers]; decide)
        rw [stored, recalcLoop] at loops
        obtain ⟨next, here, -⟩ := Exec.bind_eq_ok.1 loops
        exact ⟨first, available_of_recalcLayer ⟨next, here⟩⟩
      · intro fits
        obtain ⟨after, root, layerIndex, loops, -⟩ := @recalcLoop_layers crypto _ valid
          _ (recalcCount_pos (by omega) count) fits.2.1 fits.2.2
        rw [loops, Exec.ok_bind]
        exact Exec.returns_ok _
    · rw [if_neg first]
      exact iff_of_false (Exec.not_returns_fault _) (fun fits => first fits.1)

/-- A recalculation of everything sets the root. -/
theorem recalc_root (valid : mtree.Valid) (some : 0 < mtree.count)
    (bounded : mtree.count + 1 < 2 ^ 31) :
    ∃ after, recalc crypto mtree 0 (-1) = .ok after ∧
      merkleRootOf crypto mtree.leaves = .some after.merkleRoot := by
  have allocated := valid.allocated
  by_cases single : mtree.count = 1
  · have leaves : mtree.leaves = [mtree.items[0]] := by
      rw [MerkleTree.leaves, single, List.take_add_one, List.getElem?_eq_getElem (by omega)]
      rfl
    refine ⟨{ mtree with merkleRoot := mtree.items[0] }, ?_, ?_⟩
    · unfold recalc
      dsimp only
      rw [if_pos (by omega), if_pos single, readItem_eq (by omega)]
      rfl
    · rw [leaves]
      exact PairTree.root_singleton _ _
  · have covered : recalcCount mtree (-1) = mtree.count := rfl
    have width := valid.leaves_length
    obtain ⟨after, root, layerIndex, loops, value⟩ :=
      @recalcLoop_layers crypto _ valid _ some allocated bounded
    rw [recalc_several (by omega), if_pos rfl, covered, loops]
    refine ⟨_, rfl, ?_⟩
    rw [merkleRootOf_layer crypto (by omega)]
    exact value

theorem runOp_returns_iff (valid : mtree.Valid) (op : MerkleOp) :
    (runOp crypto mtree op).Returns ↔ OpReturns mtree op := by
  cases op with
  | add items =>
      refine ⟨?_, merkleTreeAdd_returns⟩
      intro returns
      obtain ⟨after, done⟩ := returns
      exact (merkleTreeAdd_spec valid done).1
  | remove index => exact iff_of_true (Exec.returns_ok _) trivial
  | set index item => exact iff_of_true (Exec.returns_ok _) trivial
  | recalc startIndex count => exact recalc_returns_iff valid startIndex count

/-- An operation that returns does to the items what it should. -/
theorem runOp_spec (valid : mtree.Valid) {op : MerkleOp}
    (returns : runOp crypto mtree op = .ok after) :
    after.Valid ∧ after.leaves = op.apply mtree.leaves := by
  cases op with
  | add items => exact (merkleTreeAdd_spec valid returns).2
  | remove index =>
      cases returns
      exact merkleTreeRemove_spec valid index
  | set index item =>
      cases returns
      exact merkleTreeSet_spec valid index item
  | recalc startIndex count => exact recalc_spec valid returns

theorem runOps_spec (valid : mtree.Valid) {ops : List MerkleOp}
    (returns : runOps crypto mtree ops = .ok after) :
    after.Valid ∧ after.leaves = ops.foldl (fun leaves op => op.apply leaves) mtree.leaves := by
  induction ops generalizing mtree with
  | nil =>
      cases returns
      exact ⟨valid, rfl⟩
  | cons op ops inductionHypothesis =>
      rw [runOps] at returns
      obtain ⟨next, here, rest⟩ := Exec.bind_eq_ok.1 returns
      obtain ⟨nextValid, nextLeaves⟩ := runOp_spec valid here
      rw [List.foldl_cons, ← nextLeaves]
      exact inductionHypothesis nextValid rest

theorem runOps_append (crypto : CryptoBackend) (mtree : MerkleTree) (front back : List MerkleOp) :
    runOps crypto mtree (front ++ back) =
      (runOps crypto mtree front >>= fun mtree => runOps crypto mtree back) := by
  induction front generalizing mtree with
  | nil => rfl
  | cons op front inductionHypothesis =>
      rw [List.cons_append, runOps, runOps, bind_assoc]
      exact Exec.bind_congr_of rfl fun mtree => inductionHypothesis mtree

/-- A sequence returns when every call finds what it needs. -/
theorem runOps_returns_iff (valid : mtree.Valid) (ops : List MerkleOp) :
    (runOps crypto mtree ops).Returns ↔ ∀ front op back, ops = front ++ op :: back →
      ∀ before, runOps crypto mtree front = .ok before → OpReturns before op := by
  induction ops generalizing mtree with
  | nil =>
      apply iff_of_true (Exec.returns_ok _)
      intro front op back split
      exact absurd split (List.append_ne_nil_of_right_ne_nil _ (List.cons_ne_nil _ _)).symm
  | cons op ops inductionHypothesis =>
      rw [runOps, Exec.returns_bind]
      constructor
      · intro returns
        obtain ⟨next, here, rest⟩ := returns
        have others := (inductionHypothesis (runOp_spec valid here).1).1 rest
        intro front called back split before run
        cases front with
        | nil =>
            cases split
            cases run
            exact (runOp_returns_iff valid op).1 ⟨next, here⟩
        | cons first front =>
            rw [List.cons_append, List.cons.injEq] at split
            obtain ⟨rfl, split⟩ := split
            rw [runOps, here, Exec.ok_bind] at run
            exact others front called back split before run
      · intro each
        obtain ⟨next, here⟩ := (@runOp_returns_iff crypto _ valid op).2
          (each [] op ops rfl mtree rfl)
        refine ⟨next, here, (inductionHypothesis (runOp_spec valid here).1).2 ?_⟩
        intro front called back split before run
        apply each (op :: front) called back (by rw [split, List.cons_append]) before
        rw [runOps, here, Exec.ok_bind]
        exact run

end Operations

/-! ## Sequences -/

theorem uint256MerkleTreeNew_valid (maxSize : Int) :
    (uint256MerkleTreeNew maxSize).Valid ∧ (uint256MerkleTreeNew maxSize).leaves = [] :=
  ⟨⟨Nat.zero_le _, List.length_replicate⟩, List.take_zero⟩

/-- After a sequence of operations the root of everything is the root of the items, unless a
call before stops the program, or `2 ^ 31 - 1` items are left. -/
theorem merkleRoot_iff (crypto : CryptoBackend) (maxSize : Int) {ops : List MerkleOp}
    (fewer : ∀ front, front <+: ops → (leavesAfter front).length < 2 ^ 31)
    (some : leavesAfter ops ≠ []) :
    (∃ mtree, runOps crypto (uint256MerkleTreeNew maxSize) (ops ++ [.recalc 0 (-1)]) = .ok mtree ∧
      merkleRootOf crypto (leavesAfter ops) = .some mtree.merkleRoot) ↔
    (∀ front op back, ops = front ++ op :: back →
      ∀ before, runOps crypto (uint256MerkleTreeNew maxSize) front = .ok before →
        OpReturns before op) ∧
      (leavesAfter ops).length ≠ 2 ^ 31 - 1 := by
  obtain ⟨valid, empty⟩ := uint256MerkleTreeNew_valid maxSize
  have bound := fewer ops (List.prefix_refl ops)
  rw [← runOps_returns_iff valid, runOps_append]
  have left (before : MerkleTree)
      (run : runOps crypto (uint256MerkleTreeNew maxSize) ops = .ok before) :
      before.Valid ∧ before.leaves = leavesAfter ops ∧ before.count = (leavesAfter ops).length := by
    obtain ⟨beforeValid, leaves⟩ := runOps_spec valid run
    rw [empty] at leaves
    exact ⟨beforeValid, leaves, by rw [← beforeValid.leaves_length, leaves, leavesAfter]⟩
  have last (before : MerkleTree) : runOps crypto before [.recalc 0 (-1)] =
      recalc crypto before 0 (-1) := by
    rw [runOps, runOp]
    cases recalc crypto before 0 (-1) with
    | ok value => rfl
    | fault cause => rfl
    | timeout => rfl
  constructor
  · intro correct
    obtain ⟨mtree, returns, -⟩ := correct
    obtain ⟨before, run, recalculated⟩ := Exec.bind_eq_ok.1 returns
    obtain ⟨beforeValid, leaves, count⟩ := left before run
    refine ⟨⟨before, run⟩, ?_⟩
    rw [last] at recalculated
    rcases (recalc_returns_iff beforeValid 0 (-1)).1 ⟨mtree, recalculated⟩ with few | fits
    · omega
    · have covered : recalcCount before (-1) = before.count := rfl
      rw [covered] at fits
      omega
  · intro allowed
    obtain ⟨⟨before, run⟩, notMaximal⟩ := allowed
    obtain ⟨beforeValid, leaves, count⟩ := left before run
    have positive := List.length_pos_of_ne_nil some
    obtain ⟨mtree, recalculated, root⟩ :=
      @recalc_root crypto _ beforeValid (by omega) (by omega)
    refine ⟨mtree, ?_, ?_⟩
    · rw [run, Exec.ok_bind, last]
      exact recalculated
    · rw [← leaves]
      exact root

/-- Three items, one of them replaced and one removed, between recalculations. -/
def sampleOps : List MerkleOp :=
  [.add [sampleRoot, uint256Zero], .recalc 0 (-1), .add [uint256NaN], .recalc 0 (-1), .set 1 uint256NaN,
    .remove 0]

theorem merkleRoot_iff_sampleOps :
    (∃ mtree, runOps sampleCrypto (uint256MerkleTreeNew 0) (sampleOps ++ [.recalc 0 (-1)]) =
        .ok mtree ∧
      merkleRootOf sampleCrypto (leavesAfter sampleOps) = some mtree.merkleRoot) ↔
    (∀ front op back, sampleOps = front ++ op :: back →
      ∀ before, runOps sampleCrypto (uint256MerkleTreeNew 0) front = .ok before →
        OpReturns before op) ∧
      (leavesAfter sampleOps).length ≠ 2 ^ 31 - 1 := by
  have fewer : ∀ front, front <+: sampleOps → (leavesAfter front).length < 2 ^ 31 := by
    intro front isPrefix
    have listed := (List.mem_inits front sampleOps).2 isPrefix
    have each : ∀ front ∈ sampleOps.inits, (leavesAfter front).length < 2 ^ 31 := by decide +kernel
    exact each front listed
  have some : leavesAfter sampleOps ≠ [] := by decide +kernel
  exact merkleRoot_iff sampleCrypto 0 fewer some

/-- `2 ^ 31 - 1` items have no root, and a tree does not survive that nothing is added. -/
theorem merkleRoot_stops :
    (∃ ops, (∀ front, front <+: ops → (leavesAfter front).length < 2 ^ 31) ∧ leavesAfter ops ≠ [] ∧
      (leavesAfter ops).length = 2 ^ 31 - 1 ∧
      ¬ ∃ mtree, runOps sampleCrypto (uint256MerkleTreeNew 0) (ops ++ [.recalc 0 (-1)]) = .ok mtree ∧
        merkleRootOf sampleCrypto (leavesAfter ops) = some mtree.merkleRoot) ∧
      runOps sampleCrypto (uint256MerkleTreeNew 0)
        [.add [uint256Zero], .add [], .recalc 0 (-1)] = .fault .assertion := by
  obtain ⟨many, size⟩ : ∃ items : List Uint256, items.length = 2 ^ 31 - 1 :=
    ⟨List.replicate (2 ^ 31 - 1) uint256Zero, List.length_replicate⟩
  have leaves : leavesAfter [.add many] = many := List.nil_append many
  refine ⟨⟨[.add many], ?_, ?_, by rw [leaves, size], ?_⟩, by decide +kernel⟩
  · intro front isPrefix
    rcases List.prefix_cons_iff.1 isPrefix with rfl | ⟨rest, rfl, nothing⟩
    · decide
    · rw [List.prefix_nil.1 nothing, leaves, size]
      decide
  · rw [leaves]
    apply List.ne_nil_of_length_pos
    omega
  · intro returned
    obtain ⟨mtree, returns, -⟩ := returned
    obtain ⟨valid, empty⟩ := uint256MerkleTreeNew_valid 0
    rw [List.cons_append, runOps] at returns
    obtain ⟨before, added, rest⟩ := Exec.bind_eq_ok.1 returns
    obtain ⟨beforeValid, items⟩ := runOp_spec valid added
    have count : before.count = 2 ^ 31 - 1 := by
      rw [← beforeValid.leaves_length, items, empty, ← size]
      exact congrArg List.length leaves
    rw [List.nil_append, runOps] at rest
    obtain ⟨after, recalculated, -⟩ := Exec.bind_eq_ok.1 rest
    have needs := (runOp_returns_iff beforeValid _).1 ⟨after, recalculated⟩
    change before.count ≤ 1 ∨ _ ∧ _ ∧ recalcCount before (-1) + 1 < 2 ^ 31 at needs
    have covered : recalcCount before (-1) = before.count := rfl
    omega

end BitcoinClib.Block
