import BitcoinClib.Lib.Exec
import Mathlib.Algebra.Group.Int.Defs
import Mathlib.Algebra.Group.Nat.Defs
import Mathlib.Data.List.Basic

/-!
Contract: `avl_tree.c`, and the stack of `clib-stack.c` as far as an iteration uses it.

Owns:
- the nodes with their stored heights, `avl_rot`, `avl_tree_balance` and `avl_tree_add`;
- `avl_tree_traverse` and the iterator with its records, `avl_tree_iter_begin` and
  `avl_tree_iter_next`.

Does not own: `avl_tree_del` and `avl_tree_find` (`AvlDelete`). A pointer to a node is the node with
all that hangs on it; memory for a new node or record is given, and the array of 96 pointers in
`avl_tree_add` is deep enough for any tree that fits an address space (`AvlRuns`).
-/

namespace BitcoinClib.Utils

open BitcoinClib.Lib

variable {κ : Type}

/-- A pointer to `struct avl_node`: NULL, or a key, the children `a[0]` and `a[1]`, and `h`. -/
inductive AvlNode (κ : Type) where
  | null
  | node (key : κ) (left right : AvlNode κ) (h : Int)
deriving DecidableEq, Repr

namespace AvlNode

/-- `height_of` -/
def heightOf : AvlNode κ → Int
  | null => 0
  | node _ _ _ h => h

/-- `node->a[dir]` -/
def child : AvlNode κ → Bool → AvlNode κ
  | null, _ => null
  | node _ left right _, dir => if dir then right else left

/-- A node with `a[dir]` and `a[!dir]`. -/
def join (key : κ) (dir : Bool) (same other : AvlNode κ) (h : Int) : AvlNode κ :=
  if dir then node key other same h else node key same other h

end AvlNode

open AvlNode

/-- `avl_rot` on a node `x` of this key and height with `y` on the deeper side: what `*p` is then,
and the change of its height. -/
def avlRot (key : κ) (dir : Bool) (y other : AvlNode κ) (hx : Int) : Exec (AvlNode κ × Int) :=
  match y with
  | null => .fault .pointer
  | node keyY left right hy =>
      let z := (node keyY left right hy).child (!dir)
      let deep := (node keyY left right hy).child dir
      let hz := heightOf z
      if hz > heightOf deep then
        match z with
        | null => .fault .pointer
        | node keyZ leftZ rightZ h =>
            let x := join key dir ((node keyZ leftZ rightZ h).child (!dir)) other hz
            let y := join keyY dir deep ((node keyZ leftZ rightZ h).child dir) hz
            .ok (join keyZ dir y x (hz + 1), hz + 1 - hx)
      else
        let x := join key dir z other (hz + 1)
        .ok (join keyY dir deep x (hz + 2), hz + 2 - hx)

/-- `avl_tree_balance`: what `*p` is then, and the change of its height. -/
def avlTreeBalance (n : AvlNode κ) : Exec (AvlNode κ × Int) :=
  match n with
  | null => .fault .pointer
  | node key left right old =>
      let h0 := heightOf left
      let h1 := heightOf right
      -- `h0 - h1 + 1u < 3u` is a comparison of `unsigned int`
      if (h0 - h1 + 1) % 2 ^ 32 < 3 then
        let h := if h0 < h1 then h1 + 1 else h0 + 1
        .ok (node key left right h, h - old)
      else if h0 < h1 then avlRot key true right left old
      else avlRot key false left right old

/-! ## `avl_tree_add` -/

/-- A pointer on the way down: the node it is in, and the child it is. -/
structure AvlStep (κ : Type) where
  key : κ
  dir : Bool
  other : AvlNode κ
  h : Int

/-- The node again, with this child. -/
def AvlStep.plug (step : AvlStep κ) (child : AvlNode κ) : AvlNode κ :=
  join step.key step.dir child step.other step.h

/-- The loop that goes down: the key of the node that was found, and the pointers passed, the last
one first. -/
def avlTreeDescend (cmp : κ → κ → Exec Int) (key : κ) :
    AvlNode κ → List (AvlStep κ) → Exec (Option κ × List (AvlStep κ))
  | null, path => .ok (none, path)
  | node nodeKey left right h, path => do
      let c ← cmp key nodeKey
      if c = 0 then .ok (some nodeKey, path)
      else if c > 0 then avlTreeDescend cmp key right (⟨nodeKey, true, left, h⟩ :: path)
      else avlTreeDescend cmp key left (⟨nodeKey, false, right, h⟩ :: path)

/-- `while (i && avl_tree_balance(a[--i]))`: the root. The nodes above a height that has not
changed stay as they are. -/
def avlTreeRebuild : Bool → AvlNode κ → List (AvlStep κ) → Exec (AvlNode κ)
  | _, child, [] => .ok child
  | false, child, step :: path => avlTreeRebuild false (step.plug child) path
  | true, child, step :: path => do
      let (n, change) ← avlTreeBalance (step.plug child)
      avlTreeRebuild (change ≠ 0) n path

/-- The codes of `VISIT`, and the values behind them. -/
inductive Visit where
  | preorder
  | postorder
  | endorder
  | leaf
  | beyond
deriving DecidableEq, Repr

/-- `struct avl_tree_iter` -/
structure AvlTreeIter (κ : Type) where
  n : AvlNode κ
  parent : Option Nat
  which : Visit

/-- `struct avl_tree` with its stack, and the memory of the records; a record that was freed is
gone. -/
structure AvlTree (κ : Type) where
  root : AvlNode κ
  count : Int
  stack : Option (List Nat)
  iters : List (Option (AvlTreeIter κ))

/-- `avl_tree_init` -/
def avlTreeInit : AvlTree κ := ⟨null, 0, none, []⟩

/-- `avl_tree_add`: the data of the node it returns. -/
def avlTreeAdd (tree : AvlTree κ) (key : κ) (cmp : κ → κ → Exec Int) :
    Exec (κ × AvlTree κ) := do
  let (found, path) ← avlTreeDescend cmp key tree.root []
  match found with
  | some nodeKey => .ok (nodeKey, tree)
  | none => do
      let root ← avlTreeRebuild true (node key null null 1) path
      .ok (key, { tree with root := root, count := tree.count + 1 })

/-! ## Traversal -/

/-- `++which` -/
def Visit.next : Visit → Visit
  | preorder => postorder
  | postorder => endorder
  | endorder => leaf
  | leaf | beyond => beyond

/-- The records and the stack. -/
structure IterStack (κ : Type) where
  iters : List (Option (AvlTreeIter κ))
  stack : List Nat

namespace IterStack

/-- A record is read. -/
def load (s : IterStack κ) (address : Nat) : Exec (AvlTreeIter κ) :=
  match s.iters[address]? with
  | some (some iter) => .ok iter
  | _ => .fault .pointer

/-- `which` of a record is written. -/
def setWhich (s : IterStack κ) (address : Nat) (which : Visit) : Exec (IterStack κ) := do
  let iter ← s.load address
  .ok { s with iters := s.iters.set address (some { iter with which := which }) }

/-- `stack_pop`, and `avl_tree_iter_free` of what was popped. -/
def popFree (s : IterStack κ) (address : Nat) : IterStack κ :=
  { iters := s.iters.set address none, stack := s.stack.tail }

/-- The record on top is done: it is popped, `which` of its parent counts up, and it is freed. -/
def finish (s : IterStack κ) (address : Nat) : Exec (IterStack κ) := do
  let current ← s.load address
  match current.parent with
  | none => .ok (s.popFree address)
  | some parent => do
      let iter ← s.load parent
      let s ← s.setWhich parent iter.which.next
      .ok (s.popFree address)

end IterStack

end BitcoinClib.Utils
