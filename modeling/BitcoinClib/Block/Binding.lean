import BitcoinClib.Lib.PairTree
import BitcoinClib.Block.RoundTrip
import Mathlib.Data.Nat.Log

/-!
Contract: what a block header says about the transactions of the block.

Owns:
- `merkle_tree_recalc` as the root of a tree over pairs (`merkleTreeRecalc_eq`);
- two full blocks with one header have the same txids exactly when their trees have the same
  depth and neither list of txids spells out the padding of the other (`txids_eq_iff`).

Collisions of the hash are excluded among the nodes of the two trees only: no function into
32 bytes is injective.
-/

namespace BitcoinClib.Block

open BitcoinClib.Lib
open BitcoinClib.Lib.Parser
open BitcoinClib.Types
open BitcoinClib.Crypto
open BitcoinClib.Tx

/-- The 64 bytes under a node. -/
def nodePreimage (pair : Uint256 × Uint256) : Bytes := pair.1.val ++ pair.2.val

def merkleNode (crypto : CryptoBackend) (pair : Uint256 × Uint256) : Uint256 :=
  hash256 crypto (nodePreimage pair)

theorem nodePreimage_injective : Function.Injective nodePreimage := by
  intro left right same
  obtain ⟨first, second⟩ := List.append_inj same (by rw [left.1.2, right.1.2])
  exact Prod.ext (Subtype.ext first) (Subtype.ext second)

theorem merkleLayer_eq (crypto : CryptoBackend) (items : List Uint256) :
    merkleLayer crypto items = (PairTree.toPairs items).map (merkleNode crypto) := by
  induction items using PairTree.toPairs.induct with
  | case1 => rfl
  | case2 last => rfl
  | case3 left right items inductionHypothesis =>
      rw [merkleLayer, inductionHypothesis]
      rfl

/-- The number of layers above the txids. -/
def merkleDepth (items : List Uint256) : Nat := Nat.clog 2 items.length

theorem merkleDepth_layer (crypto : CryptoBackend) {items : List Uint256}
    (several : 2 ≤ items.length) :
    merkleDepth items = merkleDepth (merkleLayer crypto items) + 1 := by
  unfold merkleDepth
  rw [merkleLayer_eq, List.length_map, PairTree.toPairs_length,
    Nat.clog_of_two_le (by decide) several]
  rfl

theorem merkleLayers_eq (crypto : CryptoBackend) {layers : Nat} {items : List Uint256}
    (several : 2 ≤ items.length) (enough : merkleDepth items ≤ layers) :
    PairTree.fold (merkleNode crypto) (merkleDepth items) items =
      [merkleLayers crypto layers items] := by
  induction layers generalizing items with
  | zero =>
      rw [merkleDepth_layer crypto several] at enough
      omega
  | succ layers inductionHypothesis =>
      have below := merkleDepth_layer crypto several
      rw [below, PairTree.fold, ← merkleLayer_eq]
      rw [below] at enough
      have length : (merkleLayer crypto items).length = (items.length + 1) / 2 := by
        rw [merkleLayer_eq, List.length_map, PairTree.toPairs_length]
      unfold merkleLayers
      split
      next root single =>
        rw [single]
        rfl
      next layer notSingle =>
        refine inductionHypothesis ?_ (by omega)
        by_contra single
        obtain ⟨root, one⟩ := List.length_eq_one_iff.1
          (show (merkleLayer crypto items).length = 1 by omega)
        exact notSingle root one

/-- The root, over as many transactions as a block can hold. -/
theorem merkleTreeRecalc_eq (crypto : CryptoBackend) {items : List Uint256}
    (nonempty : items ≠ []) (bounded : items.length ≤ 2 ^ merkleTreeMaxLayers) :
    PairTree.fold (merkleNode crypto) (merkleDepth items) items =
      [merkleTreeRecalc crypto items] := by
  have enough : merkleDepth items ≤ merkleTreeMaxLayers := Nat.clog_le_of_le_pow bounded
  match items with
  | [] => exact absurd rfl nonempty
  | [item] =>
      rw [merkleDepth, List.length_singleton, Nat.clog_one_right]
      rfl
  | left :: right :: others => exact merkleLayers_eq crypto (by simp) enough

/-- The strings hashed for the nodes of a tree. -/
def nodePreimages (crypto : CryptoBackend) (items : List Uint256) : List Bytes :=
  (PairTree.joined (merkleNode crypto) (merkleDepth items) items).map nodePreimage

/-- `hash256` is injective on the strings hashed for the nodes of the two trees. -/
def NoNodeCollision (crypto : CryptoBackend) (left right : List Uint256) : Prop :=
  ∀ a ∈ nodePreimages crypto left, ∀ b ∈ nodePreimages crypto right,
    hash256 crypto a = hash256 crypto b → a = b

/-- The longer list of txids takes the padding of the shorter one for transactions. -/
def Repeats (short long : List Uint256) : Prop :=
  PairTree.Repeats (merkleDepth short) short long

def BlockObject.txids (block : BlockObject) : List Uint256 := block.txns.map TxObject.txid

theorem eq_of_root_eq {crypto : CryptoBackend} {left right : List Uint256}
    (noCollision : NoNodeCollision crypto left right)
    (leftNonempty : left ≠ []) (rightNonempty : right ≠ [])
    (leftBounded : left.length ≤ 2 ^ merkleTreeMaxLayers)
    (rightBounded : right.length ≤ 2 ^ merkleTreeMaxLayers)
    (root : merkleTreeRecalc crypto left = merkleTreeRecalc crypto right)
    (depth : merkleDepth left = merkleDepth right)
    (notLeft : ¬ Repeats left right) (notRight : ¬ Repeats right left) : left = right := by
  have leftFold := merkleTreeRecalc_eq crypto leftNonempty leftBounded
  have rightFold := merkleTreeRecalc_eq crypto rightNonempty rightBounded
  unfold NoNodeCollision nodePreimages at noCollision
  unfold Repeats at notLeft notRight
  rw [← depth] at rightFold noCollision notRight
  have collisionFree : PairTree.NoCollision (merkleNode crypto) (merkleDepth left) left right :=
    fun a leftNode b rightNode same => nodePreimage_injective
      (noCollision _ (List.mem_map_of_mem leftNode) _ (List.mem_map_of_mem rightNode) same)
  have expanded := PairTree.expand_eq_of_fold_eq (merkleDepth left) collisionFree
    (by rw [leftFold, rightFold, root])
  exact PairTree.eq_of_expand_eq expanded notLeft notRight

/-- A full block holds transactions, fewer than a tree can cover, and their root. -/
theorem satoshiBlockParse_full {crypto : CryptoBackend} {stale : Uint256} {payload : Bytes}
    {block : BlockObject} {size : Nat}
    (returns : satoshiBlockParse crypto stale payload = .ok (some (block, size)))
    (full : payload.length ≠ 80) :
    block.hdr = headerOfBytes (payload.take 80) ∧ block.txids ≠ [] ∧
      block.txids.length ≤ 2 ^ merkleTreeMaxLayers ∧
      block.hdr.merkleRoot = merkleTreeRecalc crypto block.txids := by
  obtain ⟨fits, header, body, rfl, length, hdr, layout⟩ := satoshiBlockParse_eq_ok returns
  rcases layout with ⟨rfl, -, -⟩ | ⟨rest, parses, root, rfl⟩
  · exact absurd (by rw [List.append_nil, length]) full
  obtain ⟨count, middle, announces, nonempty, rfl, read⟩ := counted_parses.1 parses
  obtain ⟨raws, rfl, related⟩ := many_reads (satoshiTxReader_reads crypto) read
  refine ⟨by rw [hdr, ← length, List.take_left], fun empty => nonempty (List.map_eq_nil_iff.1 empty),
    ?_, root⟩
  have entries : raws.length ≤ (raws.flatMap id).length := by
    refine length_le_flatMap fun raw present => ?_
    obtain ⟨-, consumed⟩ := forall_of_forall₂ related.flip raw present
    exact consumed
  rw [List.flatMap_id] at entries
  have bound : maxBlockSerializedSize = 4000000 := rfl
  have layers : 2 ^ merkleTreeMaxLayers = 4294967296 := rfl
  have same : block.txns.length = raws.length := related.length_eq.symm
  rw [BlockObject.txids, List.length_map, same, layers]
  simp only [List.length_append] at fits
  omega

/-- Two full blocks with one header have the same txids exactly when their trees have one depth
and neither list repeats its end where the other one is padded. -/
theorem txids_eq_iff {crypto : CryptoBackend} {firstStale secondStale : Uint256}
    {first second : Bytes} {firstBlock secondBlock : BlockObject} {firstSize secondSize : Nat}
    (firstAccepted : satoshiBlockParse crypto firstStale first = .ok (some (firstBlock, firstSize)))
    (secondAccepted :
      satoshiBlockParse crypto secondStale second = .ok (some (secondBlock, secondSize)))
    (firstFull : first.length ≠ 80) (secondFull : second.length ≠ 80)
    (sameHeader : first.take 80 = second.take 80)
    (noCollision : NoNodeCollision crypto firstBlock.txids secondBlock.txids) :
    firstBlock.txids = secondBlock.txids ↔
      merkleDepth firstBlock.txids = merkleDepth secondBlock.txids ∧
        ¬ Repeats firstBlock.txids secondBlock.txids ∧
        ¬ Repeats secondBlock.txids firstBlock.txids := by
  obtain ⟨firstHdr, firstNonempty, firstBounded, firstRoot⟩ :=
    satoshiBlockParse_full firstAccepted firstFull
  obtain ⟨secondHdr, secondNonempty, secondBounded, secondRoot⟩ :=
    satoshiBlockParse_full secondAccepted secondFull
  have root : merkleTreeRecalc crypto firstBlock.txids =
      merkleTreeRecalc crypto secondBlock.txids := by
    rw [← firstRoot, ← secondRoot, firstHdr, secondHdr, sameHeader]
  constructor
  · intro same
    rw [same]
    exact ⟨rfl, fun repeats => lt_irrefl _ repeats.1, fun repeats => lt_irrefl _ repeats.1⟩
  · rintro ⟨depth, notFirst, notSecond⟩
    exact eq_of_root_eq noCollision firstNonempty secondNonempty firstBounded secondBounded root
      depth notFirst notSecond

/-! ## Sample blocks -/

def sampleHeader (root : Uint256) : BlockHeader := ⟨1, uint256Zero, root, 0, 0x1d00ffff, 0⟩

def sampleTxns : List Bytes := [0x51, 0x52, 0x53].map fun opcode =>
  leBytes 4 1 ++ counted [coinbaseOutpoint.bytes ++ [1, opcode] ++ leBytes 4 0] ++
    counted [leBytes 8 50 ++ [1, opcode]] ++ leBytes 4 0

/-- The root over the three transactions. -/
def sampleRoot : Uint256 :=
  merkleTreeRecalc sampleCrypto (sampleTxns.map (hash256 sampleCrypto))

/-- A full block over the transactions, and what is stored for it. -/
def sampleBlockBytes (txns : List Bytes) : Bytes :=
  headerBytes (sampleHeader sampleRoot) ++ counted txns

def sampleBlock (txns : List Bytes) : BlockObject where
  hdr := sampleHeader sampleRoot
  txns := txns.filterMap fun raw =>
    match satoshiTxParse sampleCrypto raw with
    | .ok (some (tx, _)) => some tx
    | _ => none
  hash := hash256 sampleCrypto (headerBytes (sampleHeader sampleRoot))

/-- The last transaction takes the place of its own padding. -/
def repeatedTxns : List Bytes := sampleTxns ++ sampleTxns.drop 2

instance (left right : List Uint256) : Decidable (NoNodeCollision sampleCrypto left right) :=
  inferInstanceAs (Decidable (∀ a ∈ _, ∀ b ∈ _, _))

theorem txids_eq_iff_sampleTxns :
    (sampleBlock sampleTxns).txids = (sampleBlock sampleTxns).txids ↔
      merkleDepth (sampleBlock sampleTxns).txids = merkleDepth (sampleBlock sampleTxns).txids ∧
        ¬ Repeats (sampleBlock sampleTxns).txids (sampleBlock sampleTxns).txids ∧
        ¬ Repeats (sampleBlock sampleTxns).txids (sampleBlock sampleTxns).txids := by
  have accepted : satoshiBlockParse sampleCrypto uint256Zero (sampleBlockBytes sampleTxns) =
      .ok (some (sampleBlock sampleTxns, (sampleBlockBytes sampleTxns).length)) := by
    decide +kernel
  -- the same block in front of other bytes
  have followed :
      satoshiBlockParse sampleCrypto uint256Zero (sampleBlockBytes sampleTxns ++ [7, 7]) =
        .ok (some (sampleBlock sampleTxns, (sampleBlockBytes sampleTxns).length)) := by
    decide +kernel
  exact txids_eq_iff accepted followed (by decide +kernel) (by decide +kernel)
    (by decide +kernel) (by decide +kernel)

/-- Three and four transactions under one header. -/
theorem repeatedTail_accepted :
    satoshiBlockParse sampleCrypto uint256Zero (sampleBlockBytes sampleTxns) =
        .ok (some (sampleBlock sampleTxns, (sampleBlockBytes sampleTxns).length)) ∧
      satoshiBlockParse sampleCrypto uint256Zero (sampleBlockBytes repeatedTxns) =
        .ok (some (sampleBlock repeatedTxns, (sampleBlockBytes repeatedTxns).length)) ∧
      (sampleBlockBytes sampleTxns).length ≠ 80 ∧ (sampleBlockBytes repeatedTxns).length ≠ 80 ∧
      (sampleBlockBytes sampleTxns).take 80 = (sampleBlockBytes repeatedTxns).take 80 ∧
      NoNodeCollision sampleCrypto (sampleBlock sampleTxns).txids
        (sampleBlock repeatedTxns).txids ∧
      (sampleBlock sampleTxns).txns.length = 3 ∧ (sampleBlock repeatedTxns).txns.length = 4 := by
  decide +kernel

end BitcoinClib.Block
