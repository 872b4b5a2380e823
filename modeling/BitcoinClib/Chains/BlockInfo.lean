import BitcoinClib.Chains.Types

/-!
Contract: the functions on the nodes of a candidate tree.

Owns:
- `block_info_new`, `block_info_free`, `block_info_add_child`,
  `block_info_update_cumulative_difficulty`, `block_info_declare_inheritance`,
  `get_current_chain` and `update_first_child_cumulative_difficulty`.

A loop or recursion along pointers takes fuel; following a pointer to a released node is a
fault.
-/

namespace BitcoinClib.Chains

open BitcoinClib.Lib

variable {Hash : Type}

namespace ActiveChainList

/-- A zeroed block of memory with the record `info`, outside every tree. -/
def calloc (list : ActiveChainList Hash) (info : BlockInfo Hash) : ActiveChainList Hash :=
  { list with
    nodes := list.nodes.write list.next ⟨info, none, none, none⟩
    next := list.next + 1 }

end ActiveChainList

/-- `block_info_new`; the new node is at `list.next`. -/
def blockInfoNew (env : ChainEnv Hash) (list : ActiveChainList Hash) (hash : Option Hash)
    (hdr : Option (SatoshiBlockHeader Hash)) : ActiveChainList Hash :=
  list.calloc ⟨hash.getD env.zeroHash, some (hdr.getD env.zeroHdr), 0⟩

/-- `block_info_free`. -/
def blockInfoFree : Nat → Heap (BlockInfo Hash) → Option Ptr → Exec (Heap (BlockInfo Hash))
  | 0, _, _ => .timeout
  | _ + 1, nodes, none => .ok nodes
  | fuel + 1, nodes, some info => do
      let node ← nodes.read info
      let nodes ← if node.nextSibling.isSome then do
          let freed ← blockInfoFree fuel nodes node.nextSibling
          let node ← freed.read info
          .ok (freed.write info { node with nextSibling := none })
        else .ok nodes
      let node ← nodes.read info
      let nodes ← if node.firstChild.isSome then do
          let freed ← blockInfoFree fuel nodes node.firstChild
          let node ← freed.read info
          .ok (freed.write info { node with firstChild := none })
        else .ok nodes
      .ok (nodes.release info)

/-- `while(sibling->next_sibling) sibling = sibling->next_sibling;` -/
def lastSibling : Nat → Heap (BlockInfo Hash) → Ptr → Exec Ptr
  | 0, _, _ => .timeout
  | fuel + 1, nodes, sibling => do
      let node ← nodes.read sibling
      match node.nextSibling with
      | none => .ok sibling
      | some next => lastSibling fuel nodes next

/-- `block_info_add_child`. -/
def blockInfoAddChild (fuel : Nat) (nodes : Heap (BlockInfo Hash)) (parent child : Ptr) :
    Exec (Heap (BlockInfo Hash)) := do
  let owner ← nodes.read parent
  let nodes ← match owner.firstChild with
    | none => .ok (nodes.write parent { owner with firstChild := some child })
    | some firstChild => do
        let sibling ← lastSibling fuel nodes firstChild
        let node ← nodes.read sibling
        .ok (nodes.write sibling { node with nextSibling := some child })
  let node ← nodes.read child
  .ok (nodes.write child { node with parent := some parent })

/-- Difficulty of a node from the bits of its header. -/
def headerDifficulty (env : ChainEnv Hash) (info : BlockInfo Hash) : Exec ℚ := do
  let hdr ← Exec.deref info.hdr
  .ok (env.compactUint256ToBdiff hdr.bits)

/-- `*p_longest_offspring` after the comparison with `node`; the outer option is the
pointer `p_longest_offspring`, which may be NULL. -/
def offerLongest (nodes : Heap (BlockInfo Hash)) (node : Ptr) (cumulativeDifficulty : ℚ) :
    Option (Option Ptr) → Exec (Option (Option Ptr))
  | none => .ok none
  | some none => .ok (some (some node))
  | some (some heir) => do
      let current ← nodes.read heir
      .ok (some (some (if current.val.cumulativeDifficulty < cumulativeDifficulty then node
        else heir)))

mutual

/-- `block_info_update_cumulative_difficulty`. -/
def blockInfoUpdateCumulativeDifficulty (env : ChainEnv Hash) :
    Nat → Heap (BlockInfo Hash) → Option Ptr → ℚ → Option (Option Ptr) →
      Exec (Heap (BlockInfo Hash) × Option (Option Ptr))
  | 0, _, _, _, _ => .timeout
  | _ + 1, nodes, none, _, longest => .ok (nodes, longest)
  | fuel + 1, nodes, some node, cumulativeDifficulty, longest => do
      let cell ← nodes.read node
      let difficulty ← headerDifficulty env cell.val
      let own := cumulativeDifficulty + difficulty
      let nodes := nodes.write node
        { cell with val := { cell.val with cumulativeDifficulty := own } }
      let longest ← offerLongest nodes node own longest
      let (nodes, longest) ←
        blockInfoUpdateCumulativeDifficulty env fuel nodes cell.firstChild own longest
      let cell ← nodes.read node
      updateSiblings env fuel nodes cell.nextSibling cumulativeDifficulty longest

/-- The loop over the siblings, each of which visits those behind it again. -/
def updateSiblings (env : ChainEnv Hash) :
    Nat → Heap (BlockInfo Hash) → Option Ptr → ℚ → Option (Option Ptr) →
      Exec (Heap (BlockInfo Hash) × Option (Option Ptr))
  | 0, _, _, _, _ => .timeout
  | _ + 1, nodes, none, _, longest => .ok (nodes, longest)
  | fuel + 1, nodes, some sibling, cumulativeDifficulty, longest => do
      let (nodes, longest) ←
        blockInfoUpdateCumulativeDifficulty env fuel nodes (some sibling) cumulativeDifficulty
          longest
      let cell ← nodes.read sibling
      updateSiblings env fuel nodes cell.nextSibling cumulativeDifficulty longest

end

/-- `while(prev && prev->next_sibling != heir) prev = prev->next_sibling;` -/
def previousSibling : Nat → Heap (BlockInfo Hash) → Option Ptr → Ptr → Exec (Option Ptr)
  | 0, _, _, _ => .timeout
  | _ + 1, _, none, _ => .ok none
  | fuel + 1, nodes, some prev, heir => do
      let node ← nodes.read prev
      if node.nextSibling = some heir then .ok (some prev)
      else previousSibling fuel nodes node.nextSibling heir

/-- `heir` jumps to the first place among its siblings. -/
def jumpToFirst (fuel : Nat) (nodes : Heap (BlockInfo Hash)) (parent heir : Ptr) :
    Exec (Heap (BlockInfo Hash)) := do
  let owner ← nodes.read parent
  if owner.firstChild = some heir then .ok nodes
  else do
    let found ← previousSibling fuel nodes owner.firstChild heir
    match found with
    | none => .fault .assertion
    | some prev => do
        let node ← nodes.read heir
        let before ← nodes.read prev
        let nodes := nodes.write prev { before with nextSibling := node.nextSibling }
        let node ← nodes.read heir
        let nodes := nodes.write heir { node with nextSibling := owner.firstChild }
        let owner ← nodes.read parent
        .ok (nodes.write parent { owner with firstChild := some heir })

/-- `block_info_declare_inheritance` on a node that is not NULL. -/
def blockInfoDeclareInheritance : Nat → Heap (BlockInfo Hash) → Ptr →
    Exec (Heap (BlockInfo Hash))
  | 0, _, _ => .timeout
  | fuel + 1, nodes, heir => do
      let node ← nodes.read heir
      match node.parent with
      | none => .ok nodes
      | some parent => do
          let nodes ← jumpToFirst fuel nodes parent heir
          blockInfoDeclareInheritance fuel nodes parent

/-- `get_current_chain`: the node without a parent above `parent`. -/
def getCurrentChain : Nat → Heap (BlockInfo Hash) → Ptr → Exec Ptr
  | 0, _, _ => .timeout
  | fuel + 1, nodes, parent => do
      let node ← nodes.read parent
      match node.parent with
      | none => .ok parent
      | some above => getCurrentChain fuel nodes above

/-- `update_first_child_cumulative_difficulty`. -/
def updateFirstChildCumulativeDifficulty (env : ChainEnv Hash) :
    Nat → Heap (BlockInfo Hash) → Option Ptr → ℚ → Exec (Heap (BlockInfo Hash))
  | 0, _, _, _ => .timeout
  | _ + 1, nodes, none, _ => .ok nodes
  | fuel + 1, nodes, some child, cumulativeDifficulty => do
      let node ← nodes.read child
      let difficulty ← headerDifficulty env node.val
      let own := cumulativeDifficulty + difficulty
      let nodes := nodes.write child
        { node with val := { node.val with cumulativeDifficulty := own } }
      updateFirstChildCumulativeDifficulty env fuel nodes node.firstChild own

end BitcoinClib.Chains
