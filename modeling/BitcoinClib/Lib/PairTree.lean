import Mathlib.Data.List.Basic
import Mathlib.Data.List.Infix
import Mathlib.Logic.Function.Basic

/-!
Contract: trees over lists whose layers pair neighbours and take a last odd entry twice.

Owns:
- `toPairs`, one layer, `fold`, the layers under a node function, and `root`, the last one;
- `expand`, the leaves a tree of a given depth really has;
- `expand_eq_of_fold_eq`: without a collision among their nodes, trees with one root have
  the same expanded leaves;
- `eq_of_expand_eq`: leaf lists with the same expansion agree unless one of them spells out
  what the other leaves to the padding (`Repeats`).

Does not own: any hash function.
-/

namespace BitcoinClib.Lib

namespace PairTree

variable {α β : Type}

/-- Neighbours in pairs; a last odd entry is its own neighbour. -/
def toPairs : List α → List (α × α)
  | [] => []
  | [last] => [(last, last)]
  | left :: right :: items => (left, right) :: toPairs items

def unpair (pairs : List (α × α)) : List α := pairs.flatMap fun pair => [pair.1, pair.2]

/-- The leaves of a tree of depth `depth`, padding included. -/
def expand : (depth : Nat) → {α : Type} → List α → List α
  | 0, _, items => items
  | depth + 1, _, items => unpair (expand depth (toPairs items))

/-- The layer `depth` steps above the leaves. -/
def fold (node : α × α → α) : Nat → List α → List α
  | 0, items => items
  | depth + 1, items => fold node depth ((toPairs items).map node)

/-- What the nodes of the first `depth` layers join. -/
def joined (node : α × α → α) : Nat → List α → List (α × α)
  | 0, _ => []
  | depth + 1, items => toPairs items ++ joined node depth ((toPairs items).map node)

/-! ## One layer -/

theorem toPairs_map (f : α → β) (items : List α) :
    toPairs (items.map f) = (toPairs items).map (Prod.map f f) := by
  induction items using toPairs.induct with
  | case1 => rfl
  | case2 last => rfl
  | case3 left right items inductionHypothesis =>
      rw [List.map_cons, List.map_cons, toPairs, toPairs, inductionHypothesis]
      rfl

theorem unpair_map (f : α → β) (pairs : List (α × α)) :
    unpair (pairs.map (Prod.map f f)) = (unpair pairs).map f := by
  rw [unpair, unpair, List.flatMap_map, List.map_flatMap]
  rfl

theorem toPairs_length (items : List α) : (toPairs items).length = (items.length + 1) / 2 := by
  induction items using toPairs.induct with
  | case1 => simp [toPairs]
  | case2 last => simp [toPairs]
  | case3 left right items inductionHypothesis =>
      rw [toPairs, List.length_cons, inductionHypothesis, List.length_cons, List.length_cons]
      omega

/-- The padding stands behind the items. -/
theorem prefix_unpair_toPairs (items : List α) : items <+: unpair (toPairs items) := by
  induction items using toPairs.induct with
  | case1 => exact List.nil_prefix
  | case2 last => exact ⟨[last], rfl⟩
  | case3 left right items inductionHypothesis =>
      obtain ⟨padding, same⟩ := inductionHypothesis
      refine ⟨padding, ?_⟩
      rw [toPairs, unpair, List.flatMap_cons, ← unpair, ← same]
      rfl

theorem mem_unpair_toPairs {items : List α} {item : α} (present : item ∈ unpair (toPairs items)) :
    item ∈ items := by
  induction items using toPairs.induct with
  | case1 => exact present
  | case2 last =>
      rcases List.mem_cons.1 present with rfl | again
      · exact List.mem_cons_self
      · exact again
  | case3 left right items inductionHypothesis =>
      rw [toPairs, unpair, List.flatMap_cons, ← unpair, List.mem_append] at present
      rcases present with here | there
      · rcases List.mem_cons.1 here with rfl | next
        · exact List.mem_cons_self
        · exact List.mem_cons_of_mem _ (List.mem_cons.2 (.inl (List.mem_singleton.1 next)))
      · exact List.mem_cons_of_mem _ (List.mem_cons_of_mem _ (inductionHypothesis there))

theorem isPrefix_unpair {left right : List (α × α)} (isPrefix : left <+: right) :
    unpair left <+: unpair right := by
  obtain ⟨rest, rfl⟩ := isPrefix
  exact ⟨unpair rest, List.flatMap_append.symm⟩

/-! ## Roots -/

/-- The root: a single item, or the root of the layer above several. -/
def root (node : α × α → α) : List α → Option α
  | [] => none
  | [item] => some item
  | left :: right :: items => root node ((toPairs (left :: right :: items)).map node)
termination_by items => items.length
decreasing_by
  rw [List.length_map, toPairs_length, List.length_cons, List.length_cons]
  omega

@[simp] theorem root_singleton (node : α × α → α) (item : α) : root node [item] = some item := by
  rw [root]

theorem root_layer (node : α × α → α) {items : List α} (several : 2 ≤ items.length) :
    root node items = root node ((toPairs items).map node) := by
  match items, several with
  | left :: right :: items, _ => rw [root]

/-! ## Expansion -/

theorem expand_map (depth : Nat) {α β : Type} (f : α → β) (items : List α) :
    expand depth (items.map f) = (expand depth items).map f := by
  induction depth generalizing α β with
  | zero => rfl
  | succ depth inductionHypothesis =>
      rw [expand, expand, toPairs_map, inductionHypothesis, unpair_map]

theorem prefix_expand (depth : Nat) {α : Type} (items : List α) : items <+: expand depth items := by
  induction depth generalizing α with
  | zero => exact List.prefix_refl items
  | succ depth inductionHypothesis =>
      exact (prefix_unpair_toPairs items).trans (isPrefix_unpair (inductionHypothesis _))

theorem mem_expand (depth : Nat) {α : Type} {items : List α} {item : α}
    (present : item ∈ expand depth items) : item ∈ items := by
  induction depth generalizing α with
  | zero => exact present
  | succ depth inductionHypothesis =>
      obtain ⟨pair, member, component⟩ := List.mem_flatMap.1 present
      exact mem_unpair_toPairs
        (List.mem_flatMap.2 ⟨pair, inductionHypothesis member, component⟩)

/-- No node of the left tree has the value of a different node of the right one. -/
def NoCollision (node : α × α → α) (depth : Nat) (left right : List α) : Prop :=
  ∀ a ∈ joined node depth left, ∀ b ∈ joined node depth right, node a = node b → a = b

theorem eq_of_map_eq {f : α → β} {left right : List α}
    (inj : ∀ a ∈ left, ∀ b ∈ right, f a = f b → a = b) (same : left.map f = right.map f) :
    left = right := by
  induction left generalizing right with
  | nil => exact (List.map_eq_nil_iff.1 same.symm).symm
  | cons head tail inductionHypothesis =>
      cases right with
      | nil => cases same
      | cons first others =>
          rw [List.map_cons, List.map_cons, List.cons.injEq] at same
          rw [inj head List.mem_cons_self first List.mem_cons_self same.1,
            inductionHypothesis (fun a leftMember b rightMember =>
              inj a (List.mem_cons_of_mem _ leftMember) b (List.mem_cons_of_mem _ rightMember))
              same.2]

/-- One root, no collision: the same expanded leaves. -/
theorem expand_eq_of_fold_eq {node : α × α → α} (depth : Nat) {left right : List α}
    (noCollision : NoCollision node depth left right)
    (same : fold node depth left = fold node depth right) :
    expand depth left = expand depth right := by
  induction depth generalizing left right with
  | zero => exact same
  | succ depth inductionHypothesis =>
      have above := inductionHypothesis (fun a leftNode b rightNode =>
        noCollision a (List.mem_append_right _ leftNode) b (List.mem_append_right _ rightNode)) same
      rw [expand_map, expand_map] at above
      rw [expand, expand]
      congr 1
      -- the node function is injective on the pairs of this layer
      refine eq_of_map_eq (fun a leftNode b rightNode => ?_) above
      exact noCollision a (List.mem_append_left _ (mem_expand depth leftNode)) b
        (List.mem_append_left _ (mem_expand depth rightNode))

/-- The longer list spells out a part of the padding of the shorter one. -/
def Repeats (depth : Nat) (short long : List α) : Prop :=
  short.length < long.length ∧ long = (expand depth short).take long.length

theorem eq_of_expand_eq {depth : Nat} {left right : List α}
    (same : expand depth left = expand depth right) (notLeft : ¬ Repeats depth left right)
    (notRight : ¬ Repeats depth right left) : left = right := by
  have leftPart := List.prefix_iff_eq_take.1 (prefix_expand depth left)
  have rightPart := List.prefix_iff_eq_take.1 (prefix_expand depth right)
  rcases lt_trichotomy left.length right.length with shorter | equal | longer
  · rw [← same] at rightPart
    exact absurd ⟨shorter, rightPart⟩ notLeft
  · rw [leftPart, rightPart, same, equal]
  · rw [same] at leftPart
    exact absurd ⟨longer, leftPart⟩ notRight

end PairTree

end BitcoinClib.Lib
