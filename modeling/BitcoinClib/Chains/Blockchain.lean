import BitcoinClib.Chains.ActiveChain

/-!
Contract: the blockchain and `blockchain_add`.

Owns:
- the heirs with their search index: `blockchain_resize`, `blockchain_find`,
  `abandon_child`, `add_heir`, `blockchain_abandon_inheritances` and
  `blockchain_add_inheritances`;
- `blockchain_add`, one definition for each of its rules.

A growth of `heirs` moves the array: pointers into the old allocation dangle.
-/

namespace BitcoinClib.Chains

open BitcoinClib.Lib

variable {Hash : Type} [DecidableEq Hash]

namespace Blockchain

/-- The heir behind a pointer into the array. -/
def heirAt (chain : Blockchain Hash) (ref : HeirRef) : Exec (BlockchainHeir Hash) :=
  if ref.arena = chain.arena then
    match chain.heirs[ref.slot]? with
    | some heir => .ok heir
    | none => .fault .bounds
  else .fault .pointer

/-- The comparison key of an entry of the index over heirs. -/
def heirHash (chain : Blockchain Hash) (ref : HeirRef) : Exec Hash := do
  let heir ← chain.heirAt ref
  .ok heir.hash

/-- Write a slot. -/
def setHeir (chain : Blockchain Hash) (ref : HeirRef) (heir : BlockchainHeir Hash) :
    Exec (Blockchain Hash) :=
  if ref.arena = chain.arena then
    if ref.slot < chain.maxSize ∧ ref.slot ≤ chain.heirs.length then
      .ok { chain with heirs := chain.heirs.take ref.slot ++ [heir] }
    else .fault .bounds
  else .fault .pointer

/-- A call of a callback is recorded. -/
def notify (chain : Blockchain Hash) (callback : Callback Hash) : Blockchain Hash :=
  { chain with callbacks := chain.callbacks ++ [callback] }

end Blockchain

/-- `blockchain_resize` for a positive size. The new part is meant to be zeroed, the
`memset` starts at the first slot. -/
def blockchainResize (env : ChainEnv Hash) (chain : Blockchain Hash) (size : Nat) :
    Blockchain Hash :=
  let rounded := (size + blockchainDefaultAllocSize - 1) / blockchainDefaultAllocSize *
    blockchainDefaultAllocSize
  if rounded ≤ chain.maxSize then chain
  else { chain with
    heirs := List.replicate (min (rounded - chain.maxSize) chain.heirs.length) env.zeroHeir ++
      chain.heirs.drop (rounded - chain.maxSize)
    arena := chain.arena + 1
    maxSize := rounded }

/-- `blockchain_find`. -/
def blockchainFind (chain : Blockchain Hash) (hash : Hash) : Exec (Option HeirRef) :=
  SearchTree.tfind chain.heirHash chain.searchRoot hash

/-- `abandon_child`; the orphan is at the `next` address of the list. -/
def abandonChild (env : ChainEnv Hash) (chain : Blockchain Hash) (parent heir : HeirRef) :
    Exec (Blockchain Hash) := do
  let parentHeir ← chain.heirAt parent
  let current ← chain.heirAt heir
  let orphan := chain.candidatesList.next
  let list := blockInfoNew env chain.candidatesList (some current.hash) none
  let hdr := { env.zeroHdr with
    prevHash := parentHeir.hash
    bits := current.bits
    timestamp := current.timestamp.toUInt32 }
  let list := { list with
    nodes := list.nodes.write orphan
      ⟨⟨current.hash, some hdr, current.cumulativeDifficulty⟩, none, none, none⟩ }
  let (_, searchRoot) ← SearchTree.tdelete chain.heirHash chain.searchRoot heir
  .ok { chain with candidatesList := list, searchRoot }

/-- `add_heir`; the heir is the slot behind `parent`. -/
def addHeir (env : ChainEnv Hash) (chain : Blockchain Hash) (parent : HeirRef) (child : Ptr) :
    Exec (Blockchain Hash) := do
  let parentHeir ← chain.heirAt parent
  let cell ← chain.candidatesList.nodes.read child
  let hdr ← Exec.deref cell.val.hdr
  Exec.assert (parentHeir.hash = hdr.prevHash)
  let chain := blockchainResize env chain ((1 + chain.height) + 1)
  let heir : HeirRef := ⟨parent.arena, parent.slot + 1⟩
  let parentHeir ← chain.heirAt parent
  let difficulty := env.compactUint256ToBdiff hdr.bits
  let chain ← chain.setHeir heir
    ⟨cell.val.hash, hdr.timestamp.toUInt64, hdr.bits,
      parentHeir.cumulativeDifficulty + difficulty, hdr⟩
  let (entry, searchRoot) ← SearchTree.tsearch chain.heirHash chain.searchRoot heir
  Exec.assert (entry = heir)
  .ok { chain with searchRoot }

/-- The loop of `blockchain_abandon_inheritances`: `count` heirs above slot `slot`, the last
one first. The slot that was abandoned is not read again. -/
def abandonLoop (env : ChainEnv Hash) (arena slot : Nat) :
    Nat → Blockchain Hash → Option Ptr → Exec (Blockchain Hash × Option Ptr)
  | 0, chain, orphans => .ok (chain, orphans)
  | count + 1, chain, orphans => do
      let last := slot + count + 1
      let lastOffspring ← chain.heirAt ⟨arena, last⟩
      let current := chain.candidatesList.next
      let chain ← abandonChild env chain ⟨arena, last - 1⟩ ⟨arena, last⟩
      let chain := chain.notify (.removeBlock lastOffspring.hash last)
      let list := chain.candidatesList
      let cell ← list.nodes.read current
      let nodes := list.nodes.write current { cell with firstChild := orphans }
      let nodes ← match orphans with
        | none => .ok nodes
        | some orphan => do
            let cell ← nodes.read orphan
            .ok (nodes.write orphan { cell with parent := some current })
      abandonLoop env arena slot count
        { chain with
          heirs := chain.heirs.take last
          candidatesList := { list with nodes } } (some current)

/-- `blockchain_abandon_inheritances`; the heirs above `parent` as a path of orphans. -/
def blockchainAbandonInheritances (env : ChainEnv Hash) (chain : Blockchain Hash)
    (parent : HeirRef) : Exec (Blockchain Hash × Option Ptr) := do
  Exec.assert (parent.slot ≤ chain.height)
  if parent.slot = chain.height then .ok (chain, none)
  else do
    let (chain, orphans) ←
      abandonLoop env parent.arena parent.slot (chain.height - parent.slot) chain none
    .ok ({ chain with height := parent.slot }, orphans)

/-- The loop of `blockchain_add_inheritances` along the first children. -/
def addInheritancesLoop (env : ChainEnv Hash) :
    Nat → Blockchain Hash → HeirRef → Option Ptr → Nat → Exec (Blockchain Hash × Nat)
  | 0, _, _, _, _ => .timeout
  | _ + 1, chain, _, none, height => .ok (chain, height)
  | fuel + 1, chain, parent, some child, height => do
      let chain ← addHeir env chain parent child
      let parent : HeirRef := ⟨parent.arena, parent.slot + 1⟩
      let cell ← chain.candidatesList.nodes.read child
      let hdr ← Exec.deref cell.val.hdr
      let chain := chain.notify (.addBlock cell.val.hash parent.slot hdr)
      addInheritancesLoop env fuel chain parent cell.firstChild (height + 1)

/-- `blockchain_add_inheritances`. -/
def blockchainAddInheritances (fuel : Nat) (env : ChainEnv Hash) (chain : Blockchain Hash)
    (parent : HeirRef) (child : Option Ptr) : Exec (Blockchain Hash × Option Ptr) := do
  Exec.assert (child.isSome)
  let (chain, orphans) ← blockchainAbandonInheritances env chain parent
  let (chain, height) ← addInheritancesLoop env fuel chain parent child parent.slot
  .ok ({ chain with height }, orphans)

/-! ## `blockchain_add` -/

/-- A new node for the header, at the `next` address of the list. -/
def newOrphan (env : ChainEnv Hash) (list : ActiveChainList Hash) (blockHash : Hash)
    (hdr : SatoshiBlockHeader Hash) : ActiveChainList Hash :=
  let orphan := list.next
  let list := blockInfoNew env list (some blockHash) none
  { list with nodes := list.nodes.write orphan ⟨⟨blockHash, some hdr, 0⟩, none, none, none⟩ }

/-- `while(child) { block_info_add_child(orphan, child); child = child->next_sibling; }` -/
def claimChildren : Nat → Heap (BlockInfo Hash) → Ptr → Option Ptr →
    Exec (Heap (BlockInfo Hash))
  | 0, _, _, _ => .timeout
  | _ + 1, nodes, _, none => .ok nodes
  | fuel + 1, nodes, orphan, some child => do
      let nodes ← blockInfoAddChild fuel nodes orphan child
      let cell ← nodes.read child
      claimChildren fuel nodes orphan cell.nextSibling

/-- The sub-rule of a chain: the missing parent arrives and claims the children of `head`.
The new node is at the `next` address of the list. -/
def chainSubRules (fuel : Nat) (env : ChainEnv Hash) (list : ActiveChainList Hash) (head : Ptr)
    (blockHash : Hash) (hdr : SatoshiBlockHeader Hash) : Exec (ActiveChainList Hash) := do
  let list ← listSearchTreeRemove list head
  let orphan := list.next
  let list := newOrphan env list blockHash hdr
  let cell ← list.nodes.read head
  let nodes ← claimChildren fuel list.nodes orphan cell.firstChild
  let (nodes, _) ← blockInfoUpdateCumulativeDifficulty env fuel nodes (some orphan) 0 none
  let cell ← nodes.read head
  let nodes := nodes.write head { cell with firstChild := none }
  listRemove fuel { list with nodes } head

/-- The value of a pointer to a released node is indeterminate. -/
def checkPointer (nodes : Heap (BlockInfo Hash)) : Option Ptr → Exec Unit
  | none => .ok ()
  | some p => do
      let _ ← nodes.read p
      .ok ()

/-- Rule II: join the chain of `parent`; the chain that was joined. The comparison with
`chain->longest_end` uses a pointer, which must be NULL or point to a live node. -/
def ruleII (fuel : Nat) (env : ChainEnv Hash) (list : ActiveChainList Hash)
    (parent orphan : Ptr) : Exec (ActiveChainList Hash × Ptr) := do
  let chain ← getCurrentChain fuel list.nodes parent
  let nodes ← blockInfoAddChild fuel list.nodes parent orphan
  let cell ← nodes.read parent
  let (nodes, longest) ←
    blockInfoUpdateCumulativeDifficulty env fuel nodes (some orphan)
      cell.val.cumulativeDifficulty (some none)
  let fields ← Exec.deref (list.activeChains chain)
  checkPointer nodes fields.longestEnd
  match longest with
  | some (some longestEnd) =>
      if some longestEnd = fields.longestEnd then .ok ({ list with nodes }, chain)
      else do
        let nodes ← blockInfoDeclareInheritance fuel nodes longestEnd
        let list := { list with nodes }
        .ok (list.setActiveChain chain { fields with longestEnd := some longestEnd }, chain)
  | _ => .fault .pointer

/-- Rule III: a new chain for `orphan`. -/
def ruleIII (fuel : Nat) (env : ChainEnv Hash) (list : ActiveChainList Hash) (orphan : Ptr) :
    Exec (ActiveChainList Hash × Ptr) := do
  let chain := list.next
  let list ← activeChainNew fuel list orphan false
  let fields ← Exec.deref (list.activeChains chain)
  let list := list.setActiveChain chain { fields with pSearchRoot := true }
  let list ← listSearchTreeAdd list chain
  let list ← listAdd fuel list chain
  let fields ← Exec.deref (list.activeChains chain)
  let (nodes, longest) ←
    blockInfoUpdateCumulativeDifficulty env fuel list.nodes (some orphan) 0
      (some fields.longestEnd)
  let list := { list with nodes }
  match longest with
  | some longestEnd => .ok (list.setActiveChain chain { fields with longestEnd }, chain)
  | none => .fault .pointer

/-- `while(child) { list->search_tree_remove(list, child); child = child->first_child; }` -/
def removeFirstChildren :
    Nat → ActiveChainList Hash → Option Ptr → Exec (ActiveChainList Hash)
  | 0, _, _ => .timeout
  | _ + 1, list, none => .ok list
  | fuel + 1, list, some child => do
      let list ← listSearchTreeRemove list child
      let cell ← list.nodes.read child
      removeFirstChildren fuel list cell.firstChild

/-- Swap the successor with the orphans, or with his next sibling. -/
def leaveChain (fuel : Nat) (list : ActiveChainList Hash) (chain successor : Ptr)
    (orphans : Option Ptr) : Exec (ActiveChainList Hash) := do
  match orphans with
  | some orphan => do
      let searchRoot ← searchTreeTraverseBFS fuel .add list.nodes list.searchRoot orphan
      let cell ← list.nodes.read successor
      let top ← list.nodes.read orphan
      let nodes := list.nodes.write orphan { top with nextSibling := cell.nextSibling }
      let head ← nodes.read chain
      .ok { list with
        nodes := nodes.write chain { head with firstChild := some orphan }
        searchRoot }
  | none => do
      let cell ← list.nodes.read successor
      let head ← list.nodes.read chain
      .ok { list with
        nodes := list.nodes.write chain { head with firstChild := cell.nextSibling } }

/-- The branch of Rule IV in which the chain wins the round against the heirs above
`heir`. -/
def winRound (fuel : Nat) (env : ChainEnv Hash) (blockChain : Blockchain Hash) (chain : Ptr)
    (heir : HeirRef) : Exec (Blockchain Hash) := do
  let (blockChain, orphans) ← blockchainAbandonInheritances env blockChain heir
  let head ← blockChain.candidatesList.nodes.read chain
  let (blockChain, _) ←
    blockchainAddInheritances fuel env blockChain heir head.firstChild
  let successor ← Exec.deref head.firstChild
  let list := blockChain.candidatesList
  let cell ← list.nodes.read successor
  let list ← removeFirstChildren fuel list cell.firstChild
  let list ← leaveChain fuel list chain successor orphans
  let cell ← list.nodes.read successor
  let list ← abandonSiblings fuel list cell.firstChild
  let (_, searchRoot) ← SearchTree.tdelete (nodeHash list.nodes) list.searchRoot successor
  let nodes ← blockInfoFree fuel list.nodes (some successor)
  let list := { list with nodes, searchRoot }
  let head ← list.nodes.read chain
  let list ← if head.firstChild.isNone then listRemove fuel list chain else .ok list
  .ok { blockChain with candidatesList := list }

/-- Rule IV: a chain whose parent is an heir competes with the heirs above him. -/
def ruleIV (fuel : Nat) (env : ChainEnv Hash) (blockChain : Blockchain Hash) (chain : Ptr) :
    Exec (Blockchain Hash) := do
  let list := blockChain.candidatesList
  let head ← list.nodes.read chain
  let found ← blockchainFind blockChain head.val.hash
  match found with
  | none => .ok blockChain
  | some ref => do
      let heir ← blockChain.heirAt ref
      let nodes ← updateFirstChildCumulativeDifficulty env fuel list.nodes head.firstChild
        heir.cumulativeDifficulty
      let current ← blockChain.heirAt ⟨blockChain.arena, blockChain.height⟩
      let fields ← Exec.deref (list.activeChains chain)
      let longestEnd ← Exec.deref fields.longestEnd
      let cell ← nodes.read longestEnd
      let blockChain := { blockChain with candidatesList := { list with nodes } }
      if current.cumulativeDifficulty < cell.val.cumulativeDifficulty then
        winRound fuel env blockChain chain ref
      else .ok blockChain

/-- Rules I to III for the node of a new header; the chain it is in. -/
def placeOrphan (fuel : Nat) (env : ChainEnv Hash) (list : ActiveChainList Hash) (orphan : Ptr)
    (hdr : SatoshiBlockHeader Hash) : Exec (ActiveChainList Hash × Ptr) := do
  let list ← listSearchTreeAdd list orphan
  let found ← activeChainListFind list hdr.prevHash
  match found with
  | some parent => ruleII fuel env list parent orphan
  | none => ruleIII fuel env list orphan

/-- Rules I to IV for the node of a new header. -/
def addOrphan (fuel : Nat) (env : ChainEnv Hash) (blockChain : Blockchain Hash)
    (list : ActiveChainList Hash) (orphan : Ptr) (hdr : SatoshiBlockHeader Hash) :
    Exec (Int × Blockchain Hash) := do
  let (list, chain) ← placeOrphan fuel env list orphan hdr
  let blockChain ← ruleIV fuel env { blockChain with candidatesList := list } chain
  .ok (0, blockChain)

/-- `blockchain_add`; `blockHash` may be NULL. -/
def blockchainAdd (fuel : Nat) (env : ChainEnv Hash) (blockChain : Blockchain Hash)
    (blockHash : Option Hash) (hdr : SatoshiBlockHeader Hash) :
    Exec (Int × Blockchain Hash) := do
  let hash := env.hash256 hdr
  Exec.assert (blockHash = none ∨ blockHash = some hash)
  let heir ← blockchainFind blockChain hash
  match heir with
  | some _ => .ok (-1, blockChain)
  | none => do
      let list := blockChain.candidatesList
      let found ← activeChainListFind list hash
      match found with
      | some orphan => do
          let cell ← list.nodes.read orphan
          if cell.parent.isSome then .ok (-1, blockChain)
          else do
            let claimed ← chainSubRules fuel env list orphan hash hdr
            addOrphan fuel env blockChain claimed list.next hdr
      | none =>
          addOrphan fuel env blockChain (newOrphan env list hash hdr) list.next hdr

end BitcoinClib.Chains
