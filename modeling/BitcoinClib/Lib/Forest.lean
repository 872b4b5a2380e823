import BitcoinClib.Lib.Exec
import Mathlib.Data.List.Basic
import Mathlib.Data.List.Nodup
import Mathlib.Data.List.Perm.Basic
import Mathlib.Data.List.Perm.Subperm

/-!
Contract: forests stored as first-child / next-sibling records in a heap.

Owns:
- `Member`, `Heap` and their read, write and release operations;
- `Forest`, the shape a heap region holds, and `Forest.Holds`;
- the structural operations on forests (`append`, `hang`, `adopt`) with
  their effect on the identifiers, on the parent links and on what a heap holds.

Does not own: what a member stores, or any algorithm that walks the records.
-/

namespace BitcoinClib.Lib

universe u

variable {α : Type u}

abbrev Ptr := Nat

/-- A record of an intrusive first-child / next-sibling forest. -/
structure Member (α : Type u) where
  val : α
  parent : Option Ptr
  firstChild : Option Ptr
  nextSibling : Option Ptr
deriving DecidableEq, Repr

/-- Live records by address; an address without a record is free or was released. -/
abbrev Heap (α : Type u) := Ptr → Option (Member α)

namespace Heap

def read (heap : Heap α) (p : Ptr) : Exec (Member α) := Exec.deref (heap p)

def write (heap : Heap α) (p : Ptr) (member : Member α) : Heap α :=
  fun q => if q = p then some member else heap q

def release (heap : Heap α) (p : Ptr) : Heap α :=
  fun q => if q = p then none else heap q

variable {heap : Heap α} {p q : Ptr} {member : Member α}

@[simp] theorem write_same : heap.write p member p = some member := if_pos rfl

theorem write_of_ne (different : q ≠ p) : heap.write p member q = heap q := if_neg different

@[simp] theorem release_same : heap.release p p = none := if_pos rfl

theorem release_of_ne (different : q ≠ p) : heap.release p q = heap q := if_neg different

theorem read_eq (live : heap p = some member) : heap.read p = .ok member := by
  unfold read
  rw [live, Exec.deref_some]

theorem read_eq_ok : heap.read p = .ok member ↔ heap p = some member := Exec.deref_eq_ok

/-- The last write to a record counts. -/
theorem write_write {other : Member α} :
    (heap.write p other).write p member = heap.write p member := by
  funext q
  unfold write
  split <;> rfl

/-- Writing back what is stored changes nothing. -/
theorem write_self (live : heap p = some member) : heap.write p member = heap := by
  funext q
  by_cases same : q = p
  · rw [same, write_same, live]
  · exact write_of_ne same

end Heap

/-- A list of sibling trees, each node with its own sub-forest of children. -/
inductive Forest (α : Type u) where
  | nil
  | node (id : Ptr) (val : α) (parent : Option Ptr) (children siblings : Forest α)
deriving Repr

namespace Forest

/-- What a pointer to the forest contains. -/
def first : Forest α → Option Ptr
  | .nil => none
  | .node id _ _ _ _ => some id

/-- The last of the sibling roots. -/
def last : Forest α → Option Ptr
  | .nil => none
  | .node id _ _ _ .nil => some id
  | .node _ _ _ _ siblings => siblings.last

def ids : Forest α → List Ptr
  | .nil => []
  | .node id _ _ children siblings => id :: (children.ids ++ siblings.ids)

/-- The nodes with the values they store, in preorder. -/
def members : Forest α → List (Ptr × α)
  | .nil => []
  | .node id val _ children siblings => (id, val) :: (children.members ++ siblings.members)

/-- The heap stores exactly this shape at these addresses. -/
def Holds (heap : Heap α) : Forest α → Prop
  | .nil => True
  | .node id val parent children siblings =>
      heap id = some ⟨val, parent, children.first, siblings.first⟩ ∧
        children.Holds heap ∧ siblings.Holds heap

/-- All sibling roots have the parent `p`, and every other node the node above it. -/
def Hung (p : Ptr) : Forest α → Prop
  | .nil => True
  | .node id _ parent children siblings => parent = some p ∧ children.Hung id ∧ siblings.Hung p

/-- Below the sibling roots every node has the node above it as its parent. -/
def Nested : Forest α → Prop
  | .nil => True
  | .node id _ _ children siblings => children.Hung id ∧ siblings.Nested

/-- No node has another one beside it. -/
def Straight : Forest α → Prop
  | .nil => True
  | .node _ _ _ children siblings => siblings = .nil ∧ children.Straight

/-- The siblings of `f` followed by those of `g`. -/
def append : Forest α → Forest α → Forest α
  | .nil, g => g
  | .node id val parent children siblings, g =>
      .node id val parent children (siblings.append g)

/-- The first sibling root gets the parent `p`. -/
def hang (p : Ptr) : Forest α → Forest α
  | .nil => .nil
  | .node id val _ children siblings => .node id val (some p) children siblings

/-- The trees of `g` become the last children of node `p`. -/
def adopt (p : Ptr) : Forest α → Forest α → Forest α
  | .nil, _ => .nil
  | .node id val parent children siblings, g =>
      if id = p then .node id val parent (children.append g) siblings
      else .node id val parent (children.adopt p g) (siblings.adopt p g)

/-- The children of node `p`. -/
def childrenOf (p : Ptr) : Forest α → Forest α
  | .nil => .nil
  | .node id _ _ children siblings =>
      if id = p then children
      else if p ∈ children.ids then children.childrenOf p else siblings.childrenOf p

/-! ## Identifiers -/

@[simp] theorem first_nil : (nil : Forest α).first = none := rfl

@[simp] theorem first_node {id : Ptr} {val : α} {parent : Option Ptr}
    {children siblings : Forest α} :
    (node id val parent children siblings).first = some id := rfl

@[simp] theorem ids_nil : (nil : Forest α).ids = [] := rfl

@[simp] theorem ids_node {id : Ptr} {val : α} {parent : Option Ptr}
    {children siblings : Forest α} :
    (node id val parent children siblings).ids = id :: (children.ids ++ siblings.ids) := rfl

theorem eq_nil_of_first {f : Forest α} (empty : f.first = none) : f = nil := by
  cases f with
  | nil => rfl
  | node => cases empty

theorem first_append (f g : Forest α) : (f.append g).first = f.first.or g.first := by
  cases f <;> rfl

@[simp] theorem nil_append (g : Forest α) : nil.append g = g := rfl

@[simp] theorem append_nil (f : Forest α) : f.append nil = f := by
  induction f with
  | nil => rfl
  | node id val parent children siblings _ siblingsEq => rw [append, siblingsEq]

theorem append_assoc (f g h : Forest α) : (f.append g).append h = f.append (g.append h) := by
  induction f with
  | nil => rfl
  | node id val parent children siblings _ siblingsEq => rw [append, append, append, siblingsEq]

@[simp] theorem ids_append (f g : Forest α) : (f.append g).ids = f.ids ++ g.ids := by
  induction f with
  | nil => rfl
  | node id val parent children siblings _ siblingsEq => simp [append, siblingsEq]

@[simp] theorem members_hang (p : Ptr) (f : Forest α) : (f.hang p).members = f.members := by
  cases f <;> rfl

@[simp] theorem ids_hang (p : Ptr) (f : Forest α) : (f.hang p).ids = f.ids := by
  cases f <;> rfl

@[simp] theorem first_hang (p : Ptr) (f : Forest α) : (f.hang p).first = f.first := by
  cases f <;> rfl

theorem adopt_of_not_mem {p : Ptr} {f : Forest α} (g : Forest α) (absent : p ∉ f.ids) :
    f.adopt p g = f := by
  induction f with
  | nil => rfl
  | node id val parent children siblings childrenEq siblingsEq =>
      simp only [ids_node, List.mem_cons, List.mem_append, not_or] at absent
      rw [adopt, if_neg (Ne.symm absent.1), childrenEq absent.2.1, siblingsEq absent.2.2]

@[simp] theorem first_adopt (p : Ptr) (f g : Forest α) : (f.adopt p g).first = f.first := by
  cases f with
  | nil => rfl
  | node id val parent children siblings =>
      rw [adopt]
      split <;> rfl

/-! ## What a heap holds -/

variable {heap heap' : Heap α} {f g old new : Forest α} {p v l : Ptr}

@[simp] theorem holds_nil : (nil : Forest α).Holds heap := trivial

theorem Holds.congr (held : f.Holds heap) (agree : ∀ i ∈ f.ids, heap' i = heap i) :
    f.Holds heap' := by
  induction f with
  | nil => trivial
  | node id val parent children siblings childrenHeld siblingsHeld =>
      obtain ⟨here, below, beside⟩ := held
      refine ⟨(agree id (by simp)).trans here, childrenHeld below ?_, siblingsHeld beside ?_⟩
      · intro i present
        exact agree i (by simp [present])
      · intro i present
        exact agree i (by simp [present])

theorem Holds.write (held : f.Holds heap) {member : Member α} (absent : p ∉ f.ids) :
    f.Holds (heap.write p member) :=
  held.congr fun _ present => Heap.write_of_ne fun same => absent (same ▸ present)

theorem Holds.release (held : f.Holds heap) (absent : p ∉ f.ids) : f.Holds (heap.release p) :=
  held.congr fun _ present => Heap.release_of_ne fun same => absent (same ▸ present)

/-- A node of a held forest is live and stores its value. -/
theorem Holds.live {val : α} (held : f.Holds heap) (present : (p, val) ∈ f.members) :
    ∃ member, heap p = some member ∧ member.val = val := by
  induction f with
  | nil => cases present
  | node id own parent children siblings childrenLive siblingsLive =>
      obtain ⟨here, below, beside⟩ := held
      simp only [members, List.mem_cons, Prod.mk.injEq, List.mem_append] at present
      rcases present with ⟨rfl, rfl⟩ | child | sibling
      · exact ⟨_, here, rfl⟩
      · exact childrenLive below child
      · exact siblingsLive beside sibling

theorem mem_ids_of_last (ends : f.last = some l) : l ∈ f.ids := by
  induction f with
  | nil => cases ends
  | node id val parent children siblings _ siblingsEnd =>
      cases siblings with
      | nil =>
          cases ends
          simp
      | node =>
          have deeper := siblingsEnd ends
          simp only [ids_node, List.mem_cons, List.mem_append] at deeper ⊢
          exact .inr (.inr deeper)

/-- Relinking the last sibling replaces everything after it. -/
theorem Holds.relink (held : (f.append old).Holds heap) (distinct : f.ids.Nodup)
    (ends : f.last = some l)
    (linked : heap' l = (heap l).map fun member => { member with nextSibling := new.first })
    (frame : ∀ i ∈ f.ids, i ≠ l → heap' i = heap i) (after : new.Holds heap') :
    (f.append new).Holds heap' := by
  induction f with
  | nil => exact after
  | node id val parent children siblings _ siblingsHeld =>
      obtain ⟨here, below, beside⟩ := held
      simp only [ids_node, List.nodup_cons, List.mem_append, not_or] at distinct
      obtain ⟨⟨notChild, notSibling⟩, distinct⟩ := distinct
      have apart := List.nodup_append.1 distinct
      cases siblings with
      | nil =>
          obtain rfl : id = l := Option.some.inj ends
          refine ⟨?_, below.congr ?_, after⟩
          · rw [linked, here]
            rfl
          · intro i child
            apply frame i (by simp [child])
            rintro rfl
            exact notChild child
      | node next nextVal nextParent nextChildren nextSiblings =>
          have inside : l ∈ (node next nextVal nextParent nextChildren nextSiblings).ids :=
            mem_ids_of_last ends
          refine ⟨?_, below.congr ?_, siblingsHeld beside apart.2.1 ends ?_⟩
          · refine (frame id (by simp) ?_).trans here
            rintro rfl
            exact notSibling inside
          · intro i child
            exact frame i (by simp [child]) fun same => apart.2.2 i child l inside same
          · intro i sibling
            exact frame i (List.mem_cons_of_mem _ (List.mem_append_right _ sibling))

theorem childrenOf_ids_subset : ∀ i ∈ (f.childrenOf p).ids, i ∈ f.ids := by
  induction f with
  | nil => exact fun _ present => present
  | node id val parent children siblings childrenSub siblingsSub =>
      intro i present
      rw [childrenOf] at present
      simp only [ids_node, List.mem_cons, List.mem_append]
      split at present
      · exact .inr (.inl present)
      split at present
      · exact .inr (.inl (childrenSub i present))
      · exact .inr (.inr (siblingsSub i present))

/-- The record of a node points to its children. -/
theorem Holds.childrenOf (held : f.Holds heap) (present : p ∈ f.ids) :
    (f.childrenOf p).Holds heap ∧
      ∃ member, heap p = some member ∧ member.firstChild = (f.childrenOf p).first := by
  induction f with
  | nil => cases present
  | node id val parent children siblings childrenHeld siblingsHeld =>
      obtain ⟨here, below, beside⟩ := held
      rw [Forest.childrenOf]
      split
      next same => exact ⟨below, _, same ▸ here, rfl⟩
      next other =>
        simp only [ids_node, List.mem_cons, Ne.symm other, false_or, List.mem_append] at present
        split
        next child => exact childrenHeld below child
        next notChild => exact siblingsHeld beside (present.resolve_left notChild)

/-- Adoption changes the record of the adopting node and of its last child only. -/
theorem Holds.adopt (held : f.Holds heap) (distinct : f.ids.Nodup) (present : p ∈ f.ids)
    (linked : heap' p = (heap p).map fun member =>
      { member with firstChild := ((f.childrenOf p).append g).first })
    (frame : ∀ i ∈ f.ids, i ≠ p → i ∉ (f.childrenOf p).ids → heap' i = heap i)
    (after : ((f.childrenOf p).append g).Holds heap') : (f.adopt p g).Holds heap' := by
  induction f with
  | nil => cases present
  | node id val parent children siblings childrenHeld siblingsHeld =>
      obtain ⟨here, below, beside⟩ := held
      simp only [ids_node, List.nodup_cons, List.mem_append, not_or] at distinct
      obtain ⟨⟨notChild, notSibling⟩, distinct⟩ := distinct
      have apart := List.nodup_append.1 distinct
      rw [Forest.childrenOf] at linked frame after
      rw [Forest.adopt]
      by_cases same : id = p
      · rw [if_pos same] at linked frame after ⊢
        subst same
        refine ⟨?_, after, beside.congr ?_⟩
        · rw [linked, here]
          rfl
        · intro i sibling
          apply frame i (by simp [sibling])
          · rintro rfl
            exact notSibling sibling
          · exact fun child => apart.2.2 i child i sibling rfl
      · rw [if_neg same] at linked frame after ⊢
        simp only [ids_node, List.mem_cons, Ne.symm same, false_or, List.mem_append] at present
        by_cases child : p ∈ children.ids
        · rw [if_pos child] at linked frame after
          have absent : p ∉ siblings.ids := fun both => apart.2.2 p child p both rfl
          refine ⟨?_, childrenHeld below apart.1 child linked ?_ after, ?_⟩
          · rw [first_adopt, first_adopt]
            refine (frame id (by simp) same ?_).trans here
            exact fun inside => notChild (childrenOf_ids_subset id inside)
          · intro i inside
            exact frame i (by simp [inside])
          · rw [adopt_of_not_mem g absent]
            refine beside.congr fun i sibling => frame i (by simp [sibling]) ?_ ?_
            · rintro rfl
              exact absent sibling
            · exact fun inside => apart.2.2 i (childrenOf_ids_subset i inside) i sibling rfl
        · rw [if_neg child] at linked frame after
          have sibling := present.resolve_left child
          refine ⟨?_, ?_, siblingsHeld beside apart.2.1 sibling linked ?_ after⟩
          · rw [first_adopt, first_adopt]
            refine (frame id (by simp) same ?_).trans here
            exact fun inside => notSibling (childrenOf_ids_subset id inside)
          · rw [adopt_of_not_mem g child]
            refine below.congr fun i inside => frame i (by simp [inside]) ?_ ?_
            · rintro rfl
              exact child inside
            · exact fun other => apart.2.2 i inside i (childrenOf_ids_subset i other) rfl
          · intro i inside
            exact frame i (by simp [inside])

/-! ## Parent links -/

theorem Hung.nested (hung : f.Hung p) : f.Nested := by
  induction f generalizing p with
  | nil => trivial
  | node id val parent children siblings _ siblingsNested =>
      exact ⟨hung.2.1, siblingsNested hung.2.2⟩

theorem hung_append : (f.append g).Hung p ↔ f.Hung p ∧ g.Hung p := by
  induction f with
  | nil => simp [Hung]
  | node id val parent children siblings _ siblingsHung =>
      simp only [append, Hung, siblingsHung, and_assoc]

theorem Hung.adopt {q : Ptr} (hung : f.Hung q) (adopted : g.Hung p) : (f.adopt p g).Hung q := by
  induction f generalizing q with
  | nil => trivial
  | node id val parent children siblings childrenHung siblingsHung =>
      obtain ⟨here, below, beside⟩ := hung
      rw [Forest.adopt]
      split
      next same => exact ⟨here, hung_append.2 ⟨below, same ▸ adopted⟩, beside⟩
      · exact ⟨here, childrenHung below, siblingsHung beside⟩

theorem Nested.adopt (nested : f.Nested) (adopted : g.Hung p) : (f.adopt p g).Nested := by
  induction f with
  | nil => trivial
  | node id val parent children siblings _ siblingsNested =>
      rw [Forest.adopt]
      split
      next same => exact ⟨hung_append.2 ⟨nested.1, same ▸ adopted⟩, nested.2⟩
      · exact ⟨nested.1.adopt adopted, siblingsNested nested.2⟩

end Forest

end BitcoinClib.Lib
