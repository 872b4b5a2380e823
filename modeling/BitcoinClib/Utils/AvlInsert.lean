import BitcoinClib.Utils.AvlIter

/-!
Contract: `avl_tree_add` as the insertion into an ordered set.

Owns:
- balanced trees, and what `avl_tree_balance` makes of a node whose children are
  (`avlTreeBalance_avl`);
- `Ordered`, trees whose keys lie in the order of their values, and comparisons of these values;
- `Finds`, what the way down to a key ends at (`avlTreeDescend_finds`);
- `avlTreeAdd_found` and `avlTreeAdd_new`.
-/

namespace BitcoinClib.Utils

open BitcoinClib.Lib
open AvlNode

variable {κ : Type}

/-! ## Balance -/

namespace AvlNode

/-- The heights of two siblings differ by one at most. -/
def Balanced : AvlNode κ → Prop
  | null => True
  | node _ left right _ =>
      left.heightOf ≤ right.heightOf + 1 ∧ right.heightOf ≤ left.heightOf + 1 ∧
        left.Balanced ∧ right.Balanced

/-- A balanced tree with correct heights. -/
structure Avl (n : AvlNode κ) : Prop where
  heights : n.Heights
  balanced : n.Balanced

theorem Avl.null : (null : AvlNode κ).Avl := ⟨trivial, trivial⟩

theorem avl_node {key : κ} {left right : AvlNode κ} {h : Int} :
    (node key left right h).Avl ↔ h = max left.heightOf right.heightOf + 1 ∧
      left.heightOf ≤ right.heightOf + 1 ∧ right.heightOf ≤ left.heightOf + 1 ∧
        left.Avl ∧ right.Avl := by
  constructor
  · intro avl
    obtain ⟨⟨height, leftHeights, rightHeights⟩, low, high, leftBalanced, rightBalanced⟩ := avl
    exact ⟨height, low, high, ⟨leftHeights, leftBalanced⟩, ⟨rightHeights, rightBalanced⟩⟩
  · intro parts
    obtain ⟨height, low, high, left, right⟩ := parts
    exact ⟨⟨height, left.heights, right.heights⟩, low, high, left.balanced, right.balanced⟩

/-- The keys on the sides of a node. -/
def joinKeys (key : κ) (dir : Bool) (same other : List κ) : List κ :=
  if dir then other ++ key :: same else same ++ key :: other

theorem join_keys (key : κ) (dir : Bool) (same other : AvlNode κ) (h : Int) :
    (join key dir same other h).keys = joinKeys key dir same.keys other.keys := by
  cases dir with
  | false => rfl
  | true => rfl

@[simp] theorem join_heightOf (key : κ) (dir : Bool) (same other : AvlNode κ) (h : Int) :
    (join key dir same other h).heightOf = h := by
  cases dir with
  | false => rfl
  | true => rfl

theorem join_avl {key : κ} {dir : Bool} {same other : AvlNode κ} {h : Int} :
    (join key dir same other h).Avl ↔ h = max same.heightOf other.heightOf + 1 ∧
      same.heightOf ≤ other.heightOf + 1 ∧ other.heightOf ≤ same.heightOf + 1 ∧
        same.Avl ∧ other.Avl := by
  cases dir with
  | false => exact avl_node
  | true =>
      show (node key other same h).Avl ↔ _
      rw [avl_node, max_comm]
      constructor
      · intro parts
        exact ⟨parts.1, parts.2.2.1, parts.2.1, parts.2.2.2.2, parts.2.2.2.1⟩
      · intro parts
        exact ⟨parts.1, parts.2.2.1, parts.2.1, parts.2.2.2.2, parts.2.2.2.1⟩

/-- A node in terms of one of its sides. -/
theorem node_eq_join (key : κ) (dir : Bool) (left right : AvlNode κ) (h : Int) :
    node key left right h = join key dir ((node key left right h).child dir)
      ((node key left right h).child (!dir)) h := by
  cases dir with
  | false => rfl
  | true => rfl

theorem exists_join (dir : Bool) {n : AvlNode κ} (there : n ≠ null) :
    ∃ key same other h, n = join key dir same other h := by
  cases n with
  | null => exact absurd rfl there
  | node key left right h => exact ⟨key, _, _, h, node_eq_join key dir left right h⟩

theorem Avl.heightOf_nonneg {n : AvlNode κ} (avl : n.Avl) : 0 ≤ n.heightOf :=
  avl.heights.heightOf_nonneg

theorem ne_null_of_height {n : AvlNode κ} (high : 0 < n.heightOf) : n ≠ null := by
  rintro rfl
  exact absurd high (lt_irrefl 0)

end AvlNode

/-- The single rotation. -/
theorem avlRot_single (key keyY : κ) (dir : Bool) {deep z : AvlNode κ} (other : AvlNode κ)
    (hx hy : Int) (outer : ¬ heightOf z > heightOf deep) :
    avlRot key dir (join keyY dir deep z hy) other hx =
      .ok (join keyY dir deep (join key dir z other (heightOf z + 1)) (heightOf z + 2),
        heightOf z + 2 - hx) := by
  cases dir with
  | false => exact if_neg outer
  | true => exact if_neg outer

/-- The double rotation. -/
theorem avlRot_double (key keyY keyZ : κ) (dir : Bool) {deep zDeep zOther : AvlNode κ}
    (other : AvlNode κ) (hx hy : Int) {hz : Int} (inner : hz > heightOf deep) :
    avlRot key dir (join keyY dir deep (join keyZ dir zDeep zOther hz) hy) other hx =
      .ok (join keyZ dir (join keyY dir deep zDeep hz) (join key dir zOther other hz) (hz + 1),
        hz + 1 - hx) := by
  cases dir with
  | false => exact if_pos inner
  | true => exact if_pos inner

/-- A rotation keeps the keys, and makes a balanced tree of a node with one side higher by two. -/
theorem avlRot_avl {key : κ} {dir : Bool} {y other : AvlNode κ} (hx : Int) (deeper : y.Avl)
    (shallow : other.Avl) (high : y.heightOf = other.heightOf + 2) :
    ∃ n, avlRot key dir y other hx = .ok (n, n.heightOf - hx) ∧ n.Avl ∧
      n.keys = joinKeys key dir y.keys other.keys ∧
      y.heightOf ≤ n.heightOf ∧ n.heightOf ≤ y.heightOf + 1 := by
  have bottom := shallow.heightOf_nonneg
  obtain ⟨keyY, deep, z, hy, rfl⟩ := exists_join dir (ne_null_of_height (n := y) (by omega))
  obtain ⟨height, low, near, deepAvl, zAvl⟩ := join_avl.1 deeper
  have deepBottom := deepAvl.heightOf_nonneg
  rw [join_heightOf] at high
  by_cases inner : z.heightOf > deep.heightOf
  · obtain ⟨keyZ, zDeep, zOther, hz, rfl⟩ := exists_join dir (ne_null_of_height (n := z) (by omega))
    obtain ⟨zHeight, zLow, zNear, zDeepAvl, zOtherAvl⟩ := join_avl.1 zAvl
    rw [join_heightOf] at inner height low near
    have deepSide : (join keyY dir deep zDeep hz).Avl :=
      join_avl.2 ⟨by omega, by omega, by omega, deepAvl, zDeepAvl⟩
    have otherSide : (join key dir zOther other hz).Avl :=
      join_avl.2 ⟨by omega, by omega, by omega, zOtherAvl, shallow⟩
    refine ⟨join keyZ dir (join keyY dir deep zDeep hz) (join key dir zOther other hz) (hz + 1),
      ?_, join_avl.2 ⟨?_, ?_, ?_, deepSide, otherSide⟩, ?_, ?_, ?_⟩
    · rw [avlRot_double key keyY keyZ dir other hx hy inner, join_heightOf]
    · rw [join_heightOf, join_heightOf, max_self]
    · rw [join_heightOf, join_heightOf]
      omega
    · rw [join_heightOf, join_heightOf]
      omega
    · simp only [join_keys, joinKeys]
      cases dir with
      | false => simp
      | true => simp
    · rw [join_heightOf, join_heightOf]
      omega
    · rw [join_heightOf, join_heightOf]
      omega
  · have otherSide : (join key dir z other (z.heightOf + 1)).Avl :=
      join_avl.2 ⟨by omega, by omega, by omega, zAvl, shallow⟩
    refine ⟨join keyY dir deep (join key dir z other (z.heightOf + 1)) (z.heightOf + 2),
      ?_, join_avl.2 ⟨?_, ?_, ?_, deepAvl, otherSide⟩, ?_, ?_, ?_⟩
    · rw [avlRot_single key keyY dir other hx hy inner, join_heightOf]
    · rw [join_heightOf]
      omega
    · rw [join_heightOf]
      omega
    · rw [join_heightOf]
      omega
    · simp only [join_keys, joinKeys]
      cases dir with
      | false => simp
      | true => simp
    · rw [join_heightOf, join_heightOf]
      omega
    · rw [join_heightOf, join_heightOf]
      omega

/-- `avl_tree_balance` on a node whose children are balanced and differ by two at most. -/
theorem avlTreeBalance_node {key : κ} {left right : AvlNode κ} (old : Int) (leftAvl : left.Avl)
    (rightAvl : right.Avl) (low : left.heightOf ≤ right.heightOf + 2)
    (high : right.heightOf ≤ left.heightOf + 2) :
    ∃ n, avlTreeBalance (node key left right old) = .ok (n, n.heightOf - old) ∧ n.Avl ∧
      n.keys = left.keys ++ key :: right.keys ∧
      max left.heightOf right.heightOf ≤ n.heightOf ∧
      n.heightOf ≤ max left.heightOf right.heightOf + 1 ∧
      (left.heightOf ≤ right.heightOf + 1 → right.heightOf ≤ left.heightOf + 1 →
        n.heightOf = max left.heightOf right.heightOf + 1) := by
  rw [avlTreeBalance]
  by_cases near : left.heightOf ≤ right.heightOf + 1 ∧ right.heightOf ≤ left.heightOf + 1
  · have height : (if left.heightOf < right.heightOf then right.heightOf + 1
        else left.heightOf + 1) = max left.heightOf right.heightOf + 1 := by
      split
      next => omega
      next => omega
    refine ⟨node key left right (max left.heightOf right.heightOf + 1), ?_,
      avl_node.2 ⟨rfl, near.1, near.2, leftAvl, rightAvl⟩, rfl, ?_, ?_, fun _ _ => rfl⟩
    · rw [if_pos (by omega)]
      dsimp only
      rw [height]
      rfl
    · exact Int.le_add_one (le_refl _)
    · exact le_refl _
  · have far : ¬ (left.heightOf - right.heightOf + 1) % 2 ^ 32 < 3 := by
      rcases lt_or_ge left.heightOf (right.heightOf + 2) with below | above
      · have lower : left.heightOf - right.heightOf + 1 = -1 := by omega
        rw [lower]
        decide
      · have higher : left.heightOf - right.heightOf + 1 = 3 := by omega
        rw [higher]
        decide
    rw [if_neg far]
    split
    next less =>
      obtain ⟨n, rotates, avl, keys, least, most⟩ :=
        avlRot_avl old rightAvl leftAvl (by omega)
      exact ⟨n, rotates, avl, keys, by omega, by omega, fun first second =>
        absurd ⟨first, second⟩ near⟩
    next more =>
      obtain ⟨n, rotates, avl, keys, least, most⟩ :=
        avlRot_avl old leftAvl rightAvl (by omega)
      exact ⟨n, rotates, avl, keys, by omega, by omega, fun first second =>
        absurd ⟨first, second⟩ near⟩

theorem avlTreeBalance_join {key : κ} {dir : Bool} {same other : AvlNode κ} (old : Int)
    (sameAvl : same.Avl) (otherAvl : other.Avl) (low : same.heightOf ≤ other.heightOf + 2)
    (high : other.heightOf ≤ same.heightOf + 2) :
    ∃ n, avlTreeBalance (join key dir same other old) = .ok (n, n.heightOf - old) ∧ n.Avl ∧
      n.keys = joinKeys key dir same.keys other.keys ∧
      max same.heightOf other.heightOf ≤ n.heightOf ∧
      n.heightOf ≤ max same.heightOf other.heightOf + 1 ∧
      (same.heightOf ≤ other.heightOf + 1 → other.heightOf ≤ same.heightOf + 1 →
        n.heightOf = max same.heightOf other.heightOf + 1) := by
  cases dir with
  | false => exact avlTreeBalance_node old sameAvl otherAvl low high
  | true =>
      obtain ⟨n, balances, avl, keys, least, most, exactly⟩ :=
        avlTreeBalance_node old otherAvl sameAvl high low
      refine ⟨n, balances, avl, keys, ?_, ?_, ?_⟩
      · rw [max_comm]
        exact least
      · rw [max_comm]
        exact most
      · intro first second
        rw [max_comm]
        exact exactly second first

/-! ## The way down and up -/

/-- The keys of the tree, with those of the child at the end of the path. -/
def pathKeys : List (AvlStep κ) → List κ → List κ
  | [], keys => keys
  | step :: path, keys => pathKeys path (joinKeys step.key step.dir keys step.other.keys)

/-- The nodes on the path were balanced when the child at its end had this height. -/
def Carries : List (AvlStep κ) → Int → Prop
  | [], _ => True
  | step :: path, height =>
      step.h = max height step.other.heightOf + 1 ∧ height ≤ step.other.heightOf + 1 ∧
        step.other.heightOf ≤ height + 1 ∧ step.other.Avl ∧ Carries path step.h

/-- Nodes above a height that has not changed. -/
theorem avlTreeRebuild_same : ∀ {path : List (AvlStep κ)} {child : AvlNode κ},
    child.Avl → Carries path child.heightOf →
      ∃ root, avlTreeRebuild false child path = .ok root ∧ root.Avl ∧
        root.keys = pathKeys path child.keys
  | [], child, avl, _ => ⟨child, rfl, avl, rfl⟩
  | step :: path, child, avl, carries => by
      obtain ⟨height, low, high, otherAvl, above⟩ := carries
      have stepAvl : (step.plug child).Avl := join_avl.2 ⟨height, low, high, avl, otherAvl⟩
      have stepHeight : (step.plug child).heightOf = step.h := join_heightOf _ _ _ _ _
      rw [← stepHeight] at above
      obtain ⟨root, rebuilds, rootAvl, keys⟩ := avlTreeRebuild_same stepAvl above
      refine ⟨root, rebuilds, rootAvl, ?_⟩
      rw [keys, AvlStep.plug, join_keys]
      rfl

/-- Nodes above a child that may have grown by one. -/
theorem avlTreeRebuild_grown : ∀ {path : List (AvlStep κ)} {child : AvlNode κ} {height : Int},
    child.Avl → Carries path height → height ≤ child.heightOf → child.heightOf ≤ height + 1 →
      ∃ root, avlTreeRebuild true child path = .ok root ∧ root.Avl ∧
        root.keys = pathKeys path child.keys
  | [], child, _, avl, _, _, _ => ⟨child, rfl, avl, rfl⟩
  | step :: path, child, height, avl, carries, least, most => by
      obtain ⟨stepHeight, low, high, otherAvl, above⟩ := carries
      obtain ⟨n, balances, nAvl, nKeys, lower, upper, exactly⟩ :=
        avlTreeBalance_join step.h avl otherAvl
          (by omega) (by omega)
      have rebuilds : avlTreeRebuild true child (step :: path) =
          avlTreeRebuild (n.heightOf - step.h ≠ 0) n path := by
        rw [avlTreeRebuild, AvlStep.plug, balances]
        rfl
      have keys : pathKeys (step :: path) child.keys = pathKeys path n.keys := by
        rw [nKeys]
        rfl
      rw [rebuilds, keys]
      by_cases changed : n.heightOf = step.h
      · have stays : decide (n.heightOf - step.h ≠ 0) = false := by simp [changed]
        rw [stays]
        exact avlTreeRebuild_same nAvl (changed ▸ above)
      · have goes : decide (n.heightOf - step.h ≠ 0) = true := by
          rw [decide_eq_true_eq]
          omega
        rw [goes]
        exact avlTreeRebuild_grown nAvl above (by omega) (by omega)

/-! ## The order of the keys -/

variable {ν : Type} [LinearOrder ν] {cmp : κ → κ → Exec Int} {valueOf : κ → ν}

/-- The values of the keys ascend. -/
def Ordered (valueOf : κ → ν) (n : AvlNode κ) : Prop := (n.keys.map valueOf).Pairwise (· < ·)

/-- The function compares the values of two keys. -/
def Compares (cmp : κ → κ → Exec Int) (valueOf : κ → ν) (key other : κ) : Prop :=
  ∃ c, cmp key other = .ok c ∧ (c = 0 ↔ valueOf key = valueOf other) ∧
    (0 < c ↔ valueOf other < valueOf key)

theorem ordered_node {key : κ} {left right : AvlNode κ} {h : Int}
    (ordered : Ordered valueOf (node key left right h)) :
    Ordered valueOf left ∧ Ordered valueOf right ∧
      (∀ small ∈ left.keys, valueOf small < valueOf key) ∧
      ∀ large ∈ right.keys, valueOf key < valueOf large := by
  rw [Ordered, keys, List.map_append, List.map_cons, List.pairwise_append,
    List.pairwise_cons] at ordered
  obtain ⟨leftOrdered, ⟨above, rightOrdered⟩, below⟩ := ordered
  refine ⟨leftOrdered, rightOrdered, ?_, ?_⟩
  · intro small member
    exact below _ (List.mem_map_of_mem member) _ List.mem_cons_self
  · intro large member
    exact above _ (List.mem_map_of_mem member)

/-- A key between smaller and larger ones keeps the order. -/
theorem pairwise_insert {key : κ} {before after : List κ}
    (ascends : ((before ++ after).map valueOf).Pairwise (· < ·))
    (small : ∀ other ∈ before, valueOf other < valueOf key)
    (large : ∀ other ∈ after, valueOf key < valueOf other) :
    ((before ++ key :: after).map valueOf).Pairwise (· < ·) := by
  rw [List.map_append, List.pairwise_append] at ascends
  obtain ⟨first, second, apart⟩ := ascends
  rw [List.map_append, List.map_cons, List.pairwise_append, List.pairwise_cons]
  refine ⟨first, ⟨?_, second⟩, ?_⟩
  · intro value member
    obtain ⟨other, inside, rfl⟩ := List.mem_map.1 member
    exact large other inside
  · intro value member value' member'
    rcases List.mem_cons.1 member' with rfl | later
    · obtain ⟨other, inside, rfl⟩ := List.mem_map.1 member
      exact small other inside
    · exact apart value member value' later

/-- What the way down to these keys finds: a key of the same value, or the place of the key. -/
inductive Finds (valueOf : κ → ν) (key : κ) (keys : List κ) (path : List (AvlStep κ)) :
    Option κ × List (AvlStep κ) → Prop where
  | found {other : κ} (way : List (AvlStep κ)) (member : other ∈ keys)
      (value : valueOf other = valueOf key) : Finds valueOf key keys path (some other, way)
  | place {way : List (AvlStep κ)} (before after : List κ) (split : keys = before ++ after)
      (small : ∀ other ∈ before, valueOf other < valueOf key)
      (large : ∀ other ∈ after, valueOf key < valueOf other) (carries : Carries way 0)
      (joined : ∀ inner, pathKeys way inner = pathKeys path (before ++ inner ++ after)) :
      Finds valueOf key keys path (none, way)

/-- What is found in a part of the keys, with smaller keys before it and larger ones after it. -/
theorem Finds.widen {key : κ} {part lower upper : List κ} {inside path : List (AvlStep κ)}
    {outcome : Option κ × List (AvlStep κ)} (finds : Finds valueOf key part inside outcome)
    (small : ∀ other ∈ lower, valueOf other < valueOf key)
    (large : ∀ other ∈ upper, valueOf key < valueOf other)
    (joined : ∀ inner, pathKeys inside inner = pathKeys path (lower ++ inner ++ upper)) :
    Finds valueOf key (lower ++ part ++ upper) path outcome := by
  cases finds with
  | found way member value =>
      exact .found way (List.mem_append_left _ (List.mem_append_right _ member)) value
  | place before after split partSmall partLarge carries partJoined =>
      apply Finds.place (lower ++ before) (after ++ upper)
      case split =>
        rw [split]
        simp only [List.append_assoc]
      case small =>
        intro other member
        rcases List.mem_append.1 member with first | second
        · exact small other first
        · exact partSmall other second
      case large =>
        intro other member
        rcases List.mem_append.1 member with first | second
        · exact partLarge other first
        · exact large other second
      case carries => exact carries
      case joined =>
        intro inner
        rw [partJoined, joined]
        simp only [List.append_assoc]

/-- The way down through a balanced and ordered tree. -/
theorem avlTreeDescend_finds (key : κ) : ∀ {n : AvlNode κ} (path : List (AvlStep κ)),
    n.Avl → Ordered valueOf n → (∀ other ∈ n.keys, Compares cmp valueOf key other) →
      Carries path n.heightOf →
      ∃ outcome, avlTreeDescend cmp key n path = .ok outcome ∧
        Finds valueOf key n.keys path outcome
  | null, path, _, _, _, carries => by
      refine ⟨(none, path), rfl, .place [] [] rfl ?_ ?_ carries ?_⟩
      · exact fun other member => absurd member List.not_mem_nil
      · exact fun other member => absurd member List.not_mem_nil
      · intro inner
        rw [List.nil_append, List.append_nil]
  | node nodeKey left right h, path, avl, ordered, compares, carries => by
      obtain ⟨height, low, high, leftAvl, rightAvl⟩ := avl_node.1 avl
      obtain ⟨leftOrdered, rightOrdered, smaller, larger⟩ := ordered_node ordered
      obtain ⟨c, runs, zero, positive⟩ := compares nodeKey
        (List.mem_append_right _ List.mem_cons_self)
      rw [avlTreeDescend, runs, Exec.ok_bind]
      by_cases same : c = 0
      · rw [if_pos same]
        exact ⟨_, rfl, .found path (List.mem_append_right _ List.mem_cons_self)
          (zero.1 same).symm⟩
      rw [if_neg same]
      by_cases more : c > 0
      · -- the left subtree and the key of the node come before the place
        rw [if_pos more]
        have above := positive.1 more
        have inRight : ∀ other ∈ right.keys, Compares cmp valueOf key other := fun other member =>
          compares other (List.mem_append_right _ (List.mem_cons_of_mem _ member))
        have stepCarries : Carries (⟨nodeKey, true, left, h⟩ :: path) right.heightOf :=
          ⟨max_comm left.heightOf _ ▸ height, high, low, leftAvl, carries⟩
        obtain ⟨outcome, descends, finds⟩ :=
          avlTreeDescend_finds key _ rightAvl rightOrdered inRight stepCarries
        have wide : Finds valueOf key ((left.keys ++ [nodeKey]) ++ right.keys ++ []) path
            outcome := by
          apply finds.widen
          case small =>
            intro other member
            rcases List.mem_append.1 member with inLeft | here
            · exact lt_trans (smaller other inLeft) above
            · rw [List.mem_singleton.1 here]
              exact above
          case large => exact fun other member => absurd member List.not_mem_nil
          case joined =>
            intro inner
            simp [pathKeys, joinKeys]
        refine ⟨outcome, descends, ?_⟩
        rw [List.append_nil, List.append_assoc] at wide
        exact wide
      · -- the key of the node and the right subtree come after the place
        rw [if_neg more]
        have below : valueOf key < valueOf nodeKey := by
          rcases lt_trichotomy (valueOf key) (valueOf nodeKey) with less | equal | greater
          · exact less
          · exact absurd (zero.2 equal) same
          · exact absurd (positive.2 greater) more
        have inLeft : ∀ other ∈ left.keys, Compares cmp valueOf key other := fun other member =>
          compares other (List.mem_append_left _ member)
        have stepCarries : Carries (⟨nodeKey, false, right, h⟩ :: path) left.heightOf :=
          ⟨height, low, high, rightAvl, carries⟩
        obtain ⟨outcome, descends, finds⟩ :=
          avlTreeDescend_finds key _ leftAvl leftOrdered inLeft stepCarries
        have wide : Finds valueOf key ([] ++ left.keys ++ (nodeKey :: right.keys)) path
            outcome := by
          apply finds.widen
          case small => exact fun other member => absurd member List.not_mem_nil
          case large =>
            intro other member
            rcases List.mem_cons.1 member with rfl | later
            · exact below
            · exact lt_trans below (larger other later)
          case joined =>
            intro inner
            simp [pathKeys, joinKeys]
        exact ⟨outcome, descends, wide⟩

/-- A key whose value is in the tree is not inserted. -/
theorem avlTreeAdd_found {tree : AvlTree κ} {key : κ} (avl : tree.root.Avl)
    (ordered : Ordered valueOf tree.root)
    (compares : ∀ other ∈ tree.root.keys, Compares cmp valueOf key other)
    (present : valueOf key ∈ tree.root.keys.map valueOf) :
    ∃ found ∈ tree.root.keys, valueOf found = valueOf key ∧
      avlTreeAdd tree key cmp = .ok (found, tree) := by
  obtain ⟨outcome, descends, finds⟩ := avlTreeDescend_finds key [] avl ordered compares trivial
  cases finds with
  | @found other way member value =>
      refine ⟨other, member, value, ?_⟩
      rw [avlTreeAdd, descends]
      rfl
  | place before after split small large carries joined =>
      obtain ⟨other, inside, same⟩ := List.mem_map.1 present
      rw [split] at inside
      rcases List.mem_append.1 inside with first | second
      · exact absurd same (ne_of_lt (small other first))
      · exact absurd same.symm (ne_of_lt (large other second))

/-- A key with a new value comes to its place, and the tree stays balanced. -/
theorem avlTreeAdd_new {tree : AvlTree κ} {key : κ} (avl : tree.root.Avl)
    (ordered : Ordered valueOf tree.root)
    (compares : ∀ other ∈ tree.root.keys, Compares cmp valueOf key other)
    (absent : valueOf key ∉ tree.root.keys.map valueOf) :
    ∃ root before after, tree.root.keys = before ++ after ∧ root.keys = before ++ key :: after ∧
      root.Avl ∧ Ordered valueOf root ∧
      avlTreeAdd tree key cmp =
        .ok (key, { tree with root := root, count := tree.count + 1 }) := by
  obtain ⟨outcome, descends, finds⟩ := avlTreeDescend_finds key [] avl ordered compares trivial
  cases finds with
  | @found other way member value =>
      exact absurd (List.mem_map.2 ⟨other, member, value⟩) absent
  | @place way before after split small large carries joined =>
      have leaf : (node key null null 1).Avl :=
        avl_node.2 ⟨rfl, Int.le_add_one (le_refl 0), Int.le_add_one (le_refl 0), Avl.null,
          Avl.null⟩
      obtain ⟨root, rebuilds, rootAvl, rootKeys⟩ :=
        avlTreeRebuild_grown leaf carries (show (0 : Int) ≤ 1 by decide)
          (show (1 : Int) ≤ 0 + 1 by decide)
      rw [joined] at rootKeys
      have placed : root.keys = before ++ key :: after := by
        rw [rootKeys]
        simp [pathKeys, AvlNode.keys]
      refine ⟨root, before, after, split, placed, rootAvl, ?_, ?_⟩
      · rw [Ordered, split] at ordered
        rw [Ordered, placed]
        exact pairwise_insert ordered small large
      · rw [avlTreeAdd, descends]
        show (avlTreeRebuild true (node key null null 1) way >>= _) = _
        rw [rebuilds]
        rfl

end BitcoinClib.Utils
