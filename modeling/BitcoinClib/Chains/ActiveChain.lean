import BitcoinClib.Chains.BlockInfo
import BitcoinClib.Chains.Queue

/-!
Contract: active chains and the list of them.

Owns:
- the search index of the list, `active_chain_new`, `active_chain_free`, `list_add`,
  `list_remove`, the breadth-first traversal and `abandon_siblings`.

The array of chains grows without a limit: its `realloc` keeps the entries and only the
list itself points to them.
-/

namespace BitcoinClib.Chains

open BitcoinClib.Lib

variable {Hash : Type} [DecidableEq Hash]

/-- The comparison key of an entry of a search index over nodes. -/
def nodeHash (nodes : Heap (BlockInfo Hash)) (node : Ptr) : Exec Hash := do
  let cell ← nodes.read node
  .ok cell.val.hash

/-- `active_chain_list_find`. -/
def activeChainListFind (list : ActiveChainList Hash) (hash : Hash) : Exec (Option Ptr) :=
  SearchTree.tfind (nodeHash list.nodes) list.searchRoot hash

/-- `list_search_tree_add`. -/
def listSearchTreeAdd (list : ActiveChainList Hash) (node : Ptr) :
    Exec (ActiveChainList Hash) := do
  let (entry, searchRoot) ← SearchTree.tsearch (nodeHash list.nodes) list.searchRoot node
  Exec.assert (entry = node)
  .ok { list with searchRoot }

/-- `list_search_tree_remove`. -/
def listSearchTreeRemove (list : ActiveChainList Hash) (node : Ptr) :
    Exec (ActiveChainList Hash) := do
  let (found, searchRoot) ← SearchTree.tdelete (nodeHash list.nodes) list.searchRoot node
  Exec.assert (found = true)
  .ok { list with searchRoot }

/-- `enum traverse_action_type`. -/
inductive TraverseActionType where
  | add
  | remove
deriving DecidableEq

/-- `action(node, p_search_root, blockchain_heir_compare)`. -/
def traverseAction (type : TraverseActionType) (nodes : Heap (BlockInfo Hash))
    (searchRoot : List Ptr) (node : Ptr) : Exec (List Ptr) :=
  match type with
  | .add => do
      let (_, root) ← SearchTree.tsearch (nodeHash nodes) searchRoot node
      .ok root
  | .remove => do
      let (_, root) ← SearchTree.tdelete (nodeHash nodes) searchRoot node
      .ok root

/-- `while(sibling) { queue->enter(queue, sibling); sibling = sibling->next_sibling; }` -/
def enterSiblings :
    Nat → Heap (BlockInfo Hash) → ClibQueue Ptr → Option Ptr → Exec (ClibQueue Ptr)
  | 0, _, _, _ => .timeout
  | _ + 1, _, queue, none => .ok queue
  | fuel + 1, nodes, queue, some sibling => do
      let queue ← queue.enter (some sibling)
      let cell ← nodes.read sibling
      enterSiblings fuel nodes queue cell.nextSibling

/-- The loop of `search_tree_traverse_BFS`: it ends at the first NULL that leaves. -/
def traverseLoop (type : TraverseActionType) (nodes : Heap (BlockInfo Hash)) :
    Nat → ClibQueue Ptr → List Ptr → Exec (List Ptr)
  | 0, _, _ => .timeout
  | fuel + 1, queue, searchRoot => do
      let (left, queue) ← queue.leave
      match left with
      | none => do
          Exec.assert (queue.length = 0)
          .ok searchRoot
      | some node => do
          let searchRoot ← traverseAction type nodes searchRoot node
          let cell ← nodes.read node
          let queue ← enterSiblings fuel nodes queue cell.nextSibling
          let queue ← queue.enter cell.firstChild
          traverseLoop type nodes fuel queue searchRoot

/-- `search_tree_traverse_BFS`. -/
def searchTreeTraverseBFS (fuel : Nat) (type : TraverseActionType)
    (nodes : Heap (BlockInfo Hash)) (searchRoot : List Ptr) (node : Ptr) :
    Exec (List Ptr) := do
  let queue ← ClibQueue.init 100
  let queue ← queue.enter (some node)
  traverseLoop type nodes fuel queue searchRoot

/-- `while(longest_end->first_child) longest_end = longest_end->first_child;` -/
def firstChildEnd : Nat → Heap (BlockInfo Hash) → Ptr → Exec Ptr
  | 0, _, _ => .timeout
  | fuel + 1, nodes, longestEnd => do
      let cell ← nodes.read longestEnd
      match cell.firstChild with
      | none => .ok longestEnd
      | some child => firstChildEnd fuel nodes child

/-- `active_chain_new`; the chain is at `list.next`. -/
def activeChainNew (fuel : Nat) (list : ActiveChainList Hash) (orphan : Ptr)
    (pSearchRoot : Bool) : Exec (ActiveChainList Hash) := do
  let cell ← list.nodes.read orphan
  match cell.val.hdr with
  | none => .fault .assertion
  | some hdr => do
      let chain := list.next
      let nodes := list.nodes.write chain ⟨⟨hdr.prevHash, none, 0⟩, none, some orphan, none⟩
      let cell ← nodes.read orphan
      let nodes := nodes.write orphan { cell with parent := some chain }
      let longestEnd ← firstChildEnd fuel nodes orphan
      let searchRoot ← if pSearchRoot then
          searchTreeTraverseBFS fuel .add nodes list.searchRoot chain
        else .ok list.searchRoot
      .ok { list with
        nodes
        activeChains := fun p =>
          if p = chain then some ⟨some longestEnd, pSearchRoot⟩ else list.activeChains p
        next := chain + 1
        searchRoot }

namespace ActiveChainList

/-- Write the fields of a chain behind its head. -/
def setActiveChain (list : ActiveChainList Hash) (chain : Ptr) (fields : ActiveChain) :
    ActiveChainList Hash :=
  { list with activeChains := fun p => if p = chain then some fields else list.activeChains p }

end ActiveChainList

/-- `active_chain_remove_child` from the first child on. -/
def activeChainRemoveChildren :
    Nat → Heap (BlockInfo Hash) → Option Ptr → List Ptr → Exec (List Ptr)
  | 0, _, _, _ => .timeout
  | _ + 1, _, none, searchRoot => .ok searchRoot
  | fuel + 1, nodes, some child, searchRoot => do
      let (_, searchRoot) ← SearchTree.tdelete (nodeHash nodes) searchRoot child
      let cell ← nodes.read child
      let searchRoot ← activeChainRemoveChildren fuel nodes cell.firstChild searchRoot
      activeChainRemoveChildren fuel nodes cell.nextSibling searchRoot

/-- `while(child) { block_info_free(child); child = child->next_sibling; }` -/
def freeChildren : Nat → Heap (BlockInfo Hash) → Option Ptr → Exec (Heap (BlockInfo Hash))
  | 0, _, _ => .timeout
  | _ + 1, nodes, none => .ok nodes
  | fuel + 1, nodes, some child => do
      let nodes ← blockInfoFree fuel nodes (some child)
      let cell ← nodes.read child
      freeChildren fuel nodes cell.nextSibling

/-- `active_chain_free`; without a search root `tdelete` does nothing. -/
def activeChainFree (fuel : Nat) (list : ActiveChainList Hash) (chain : Ptr) :
    Exec (ActiveChainList Hash) := do
  let fields ← Exec.deref (list.activeChains chain)
  let head ← list.nodes.read chain
  let searchRoot ← if fields.pSearchRoot then do
      let searchRoot ←
        activeChainRemoveChildren fuel list.nodes head.firstChild list.searchRoot
      let (_, searchRoot) ← SearchTree.tdelete (nodeHash list.nodes) searchRoot chain
      .ok searchRoot
    else .ok list.searchRoot
  let nodes ← freeChildren fuel list.nodes head.firstChild
  .ok { list with
    nodes := nodes.release chain
    activeChains := fun p => if p = chain then none else list.activeChains p
    searchRoot }

/-- `list_add`. -/
def listAdd (fuel : Nat) (list : ActiveChainList Hash) (chain : Ptr) :
    Exec (ActiveChainList Hash) := do
  let fields ← Exec.deref (list.activeChains chain)
  let list := { list with chains := list.chains ++ [chain] }
  if fields.pSearchRoot then .ok list
  else do
    let list := list.setActiveChain chain { fields with pSearchRoot := true }
    let searchRoot ← searchTreeTraverseBFS fuel .add list.nodes list.searchRoot chain
    .ok { list with searchRoot }

/-- The array of chains after the last one took the place of `chain`. -/
def dropChain (chain : Ptr) (chains : List Ptr) : List Ptr :=
  (chains.set (chains.idxOf chain) (chains.getLastD chain)).dropLast

/-- `list_remove`. -/
def listRemove (fuel : Nat) (list : ActiveChainList Hash) (chain : Ptr) :
    Exec (ActiveChainList Hash) :=
  if chain ∈ list.chains then do
    let list ← activeChainFree fuel list chain
    .ok { list with chains := dropChain chain list.chains }
  else .ok list

/-- The tree operation of `tsearch(chain->head, &list->search_root, ..)`, whose result is
not checked. -/
def tsearchHead (list : ActiveChainList Hash) (chain : Ptr) : Exec (ActiveChainList Hash) := do
  let (_, searchRoot) ← SearchTree.tsearch (nodeHash list.nodes) list.searchRoot chain
  .ok { list with searchRoot }

/-- `abandon_siblings`. -/
def abandonSiblings : Nat → ActiveChainList Hash → Option Ptr → Exec (ActiveChainList Hash)
  | 0, _, _ => .timeout
  | _ + 1, list, none => .ok list
  | fuel + 1, list, some successor => do
      let cell ← list.nodes.read successor
      let list ← match cell.nextSibling with
        | none => .ok list
        | some sibling => do
            let chain := list.next
            let list ← activeChainNew fuel list sibling false
            let list ← tsearchHead list chain
            let fields ← Exec.deref (list.activeChains chain)
            let list := list.setActiveChain chain { fields with pSearchRoot := true }
            listAdd fuel list chain
      let cell ← list.nodes.read successor
      let list := { list with
        nodes := list.nodes.write successor { cell with nextSibling := none } }
      abandonSiblings fuel list cell.firstChild

end BitcoinClib.Chains
