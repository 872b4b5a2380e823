import BitcoinClib.Utils.AvlInsert

/-!
Contract: `avl_tree_del` and `avl_tree_find`.

Owns:
- the two loops of `avl_tree_del` that go down, and the deletion (`avlTreeDel`);
- `Reaches`, what the way down to a key ends at, and `Ends`, the node that precedes another;
- `avlTreeRebuild_shrunk`, the way up from a child that may have become lower;
- `avlTreeDel_present` and `avlTreeDel_absent`, and `avlTreeFind_finds`.

Does not own: the data of a deleted node, which `avl_tree_del` leaves to its caller.
-/

namespace BitcoinClib.Utils

open BitcoinClib.Lib
open AvlNode

variable {κ : Type}

/-! ## The functions -/

/-- `while(n)` of `avl_tree_del`: the node that was found, and the pointers passed, the last one
first. -/
def avlTreeDelDescend (cmp : κ → κ → Exec Int) (key : κ) :
    AvlNode κ → List (AvlStep κ) → Exec (AvlNode κ × List (AvlStep κ))
  | null, path => .ok (null, path)
  | node nodeKey left right h, path => do
      let rc ← cmp key nodeKey
      if rc = 0 then .ok (node nodeKey left right h, path)
      else if rc > 0 then avlTreeDelDescend cmp key right (⟨nodeKey, true, left, h⟩ :: path)
      else avlTreeDelDescend cmp key left (⟨nodeKey, false, right, h⟩ :: path)

/-- The node at which `while (n->a[1])` ends: its key, its `a[0]`, and the pointers passed. -/
structure AvlLast (κ : Type) where
  key : κ
  left : AvlNode κ
  passed : List (AvlStep κ)

/-- `while (n->a[1])` of `avl_tree_del`. -/
def avlTreeLast (key : κ) (left : AvlNode κ) :
    AvlNode κ → Int → List (AvlStep κ) → AvlLast κ
  | null, _, passed => ⟨key, left, passed⟩
  | node keyR leftR rightR hR, h, passed =>
      avlTreeLast keyR leftR rightR hR (⟨key, true, left, h⟩ :: passed)

/-- The pointer `avl_tree_del` returns: NULL, a node with its key, or the root, which was freed. -/
inductive AvlParent (κ : Type) where
  | null
  | node (key : κ)
  | freed
deriving DecidableEq, Repr

/-- `*a[i-2]`: the node above the one that was found. For the root it is the root itself, with
the key it has afterwards. -/
def avlTreeParent (root : AvlParent κ) : List (AvlStep κ) → AvlParent κ
  | [] => root
  | step :: _ => .node step.key

/-- `avl_tree_del` -/
def avlTreeDel (tree : AvlTree κ) (key : κ) (cmp : κ → κ → Exec Int) :
    Exec (AvlParent κ × AvlTree κ) := do
  let (n, path) ← avlTreeDelDescend cmp key tree.root []
  match n with
  | null => .ok (.null, tree)
  | node _ (node keyL leftL rightL hL) right h => do
      -- the preceding node is freed, and its key moves to the node that was found
      let last := avlTreeLast keyL leftL rightL hL []
      let way := last.passed ++ ⟨last.key, false, right, h⟩ :: path
      let root ← avlTreeRebuild true last.left way
      .ok (avlTreeParent (.node last.key) path,
        { tree with root := root, count := tree.count - 1 })
  | node _ null right _ => do
      let root ← avlTreeRebuild true right path
      .ok (avlTreeParent .freed path, { tree with root := root, count := tree.count - 1 })

/-- `avl_tree_find` -/
def avlTreeFind (cmp : κ → κ → Exec Int) (key : κ) : AvlNode κ → Exec (AvlNode κ)
  | null => .ok null
  | node nodeKey left right h => do
      let rc ← cmp key nodeKey
      if rc = 0 then .ok (node nodeKey left right h)
      else if rc > 0 then avlTreeFind cmp key right
      else avlTreeFind cmp key left

/-! ## The way up from a lower child -/

/-- Nodes above a child that may have become lower by one. -/
theorem avlTreeRebuild_shrunk : ∀ {path : List (AvlStep κ)} {child : AvlNode κ} {height : Int},
    child.Avl → Carries path height → child.heightOf ≤ height → height ≤ child.heightOf + 1 →
      ∃ root, avlTreeRebuild true child path = .ok root ∧ root.Avl ∧
        root.keys = pathKeys path child.keys
  | [], child, _, avl, _, _, _ => ⟨child, rfl, avl, rfl⟩
  | step :: path, child, height, avl, carries, most, least => by
      obtain ⟨stepHeight, low, high, otherAvl, above⟩ := carries
      obtain ⟨n, balances, nAvl, nKeys, lower, upper, exactly⟩ :=
        avlTreeBalance_join step.h avl otherAvl (by omega) (by omega)
      have rebuilds : avlTreeRebuild true child (step :: path) =
          avlTreeRebuild (n.heightOf - step.h ≠ 0) n path := by
        rw [avlTreeRebuild, AvlStep.plug, balances]
        rfl
      have keys : pathKeys (step :: path) child.keys = pathKeys path n.keys := by
        rw [nKeys]
        rfl
      have notHigher : n.heightOf ≤ step.h := by omega
      -- when the other side is not the higher one, the sides differ by one at most
      have notMuchLower : step.h ≤ n.heightOf + 1 := by
        by_cases level : step.other.heightOf ≤ child.heightOf + 1
        · have height := exactly (by omega) level
          omega
        · omega
      rw [rebuilds, keys]
      by_cases changed : n.heightOf = step.h
      · have stays : decide (n.heightOf - step.h ≠ 0) = false := by simp [changed]
        rw [stays]
        exact avlTreeRebuild_same nAvl (changed ▸ above)
      · have goes : decide (n.heightOf - step.h ≠ 0) = true := by
          rw [decide_eq_true_eq]
          omega
        rw [goes]
        exact avlTreeRebuild_shrunk nAvl above notHigher notMuchLower

/-! ## The way down -/

theorem pathKeys_append (below : List (AvlStep κ)) (above : List (AvlStep κ)) :
    ∀ keys, pathKeys (below ++ above) keys = pathKeys above (pathKeys below keys) := by
  induction below with
  | nil => exact fun keys => rfl
  | cons step below inductionHypothesis => exact fun keys => inductionHypothesis _

/-- The heights on a path do not depend on its keys. -/
theorem carries_key (below path : List (AvlStep κ)) (step : AvlStep κ) (key : κ) :
    ∀ {height : Int}, Carries (below ++ step :: path) height →
      Carries (below ++ { step with key := key } :: path) height := by
  induction below with
  | nil => exact fun carries => carries
  | cons first below inductionHypothesis =>
      intro height carries
      obtain ⟨stepHeight, low, high, otherAvl, above⟩ := carries
      exact ⟨stepHeight, low, high, otherAvl, inductionHypothesis above⟩

/-- The last node of a tree whose keys are these: its key comes last. -/
structure Ends (keys : List κ) (passed above : List (AvlStep κ)) (last : AvlLast κ)
    (before : List κ) : Prop where
  leftAvl : last.left.Avl
  carries : Carries (last.passed ++ above) (last.left.heightOf + 1)
  split : keys = before ++ last.left.keys ++ [last.key]
  joined : ∀ inner, pathKeys last.passed inner = pathKeys passed (before ++ inner)

theorem avlTreeLast_ends (above : List (AvlStep κ)) : ∀ {right : AvlNode κ} {key : κ}
    {left : AvlNode κ} {h : Int} (passed : List (AvlStep κ)), (node key left right h).Avl →
      Carries (passed ++ above) h →
        ∃ before, Ends (node key left right h).keys passed above
          (avlTreeLast key left right h passed) before
  | null, key, left, h, passed, avl, carries => by
      obtain ⟨height, low, high, leftAvl, -⟩ := avl_node.1 avl
      have bottom := leftAvl.heightOf_nonneg
      have level : h = left.heightOf + 1 := by
        rw [height]
        exact congrArg (· + 1) (max_eq_left bottom)
      exact ⟨[], leftAvl, level ▸ carries, rfl, fun _ => rfl⟩
  | node keyR leftR rightR hR, key, left, h, passed, avl, carries => by
      obtain ⟨height, low, high, leftAvl, rightAvl⟩ := avl_node.1 avl
      have stepCarries : Carries (⟨key, true, left, h⟩ :: passed ++ above) hR :=
        ⟨max_comm left.heightOf _ ▸ height, high, low, leftAvl, carries⟩
      obtain ⟨before, ends⟩ := avlTreeLast_ends above _ rightAvl stepCarries
      refine ⟨left.keys ++ key :: before, ends.leftAvl, ends.carries, ?_, ?_⟩
      · rw [AvlNode.keys, ends.split, avlTreeLast]
        simp only [List.append_assoc, List.cons_append]
      · intro inner
        rw [avlTreeLast, ends.joined]
        simp [pathKeys, joinKeys]

variable {ν : Type} [LinearOrder ν] {cmp : κ → κ → Exec Int} {valueOf : κ → ν}

/-- What the way down to a key ends at: a node with the value of the key, or NULL at its place. -/
structure Reaches (valueOf : κ → ν) (key : κ) (keys : List κ) (path : List (AvlStep κ))
    (found : AvlNode κ) (way : List (AvlStep κ)) (before after : List κ) : Prop where
  avl : found.Avl
  ordered : Ordered valueOf found
  carries : Carries way found.heightOf
  split : keys = before ++ found.keys ++ after
  small : ∀ other ∈ before, valueOf other < valueOf key
  large : ∀ other ∈ after, valueOf key < valueOf other
  joined : ∀ inner, pathKeys way inner = pathKeys path (before ++ inner ++ after)
  value : ∀ nodeKey left right h, found = node nodeKey left right h →
    valueOf nodeKey = valueOf key

theorem Reaches.widen {key : κ} {part lower upper before after : List κ}
    {inside path way : List (AvlStep κ)} {found : AvlNode κ}
    (reaches : Reaches valueOf key part inside found way before after)
    (small : ∀ other ∈ lower, valueOf other < valueOf key)
    (large : ∀ other ∈ upper, valueOf key < valueOf other)
    (joined : ∀ inner, pathKeys inside inner = pathKeys path (lower ++ inner ++ upper)) :
    Reaches valueOf key (lower ++ part ++ upper) path found way (lower ++ before)
      (after ++ upper) where
  avl := reaches.avl
  ordered := reaches.ordered
  carries := reaches.carries
  split := by
    rw [reaches.split]
    simp only [List.append_assoc]
  small := by
    intro other member
    rcases List.mem_append.1 member with first | second
    · exact small other first
    · exact reaches.small other second
  large := by
    intro other member
    rcases List.mem_append.1 member with first | second
    · exact reaches.large other first
    · exact large other second
  joined := by
    intro inner
    rw [reaches.joined, joined]
    simp only [List.append_assoc]
  value := reaches.value

/-- The way down of `avl_tree_del` through a balanced and ordered tree. -/
theorem avlTreeDelDescend_reaches (key : κ) : ∀ {n : AvlNode κ} (path : List (AvlStep κ)),
    n.Avl → Ordered valueOf n → (∀ other ∈ n.keys, Compares cmp valueOf key other) →
      Carries path n.heightOf →
      ∃ found way before after, avlTreeDelDescend cmp key n path = .ok (found, way) ∧
        avlTreeFind cmp key n = .ok found ∧
        Reaches valueOf key n.keys path found way before after
  | null, path, avl, ordered, _, carries => by
      refine ⟨null, path, [], [], rfl, rfl, avl, ordered, carries, rfl, ?_, ?_, ?_, ?_⟩
      · exact fun other member => absurd member List.not_mem_nil
      · exact fun other member => absurd member List.not_mem_nil
      · intro inner
        rw [List.nil_append, List.append_nil]
      · intro nodeKey left right h absent
        cases absent
  | node nodeKey left right h, path, avl, ordered, compares, carries => by
      obtain ⟨height, low, high, leftAvl, rightAvl⟩ := avl_node.1 avl
      obtain ⟨leftOrdered, rightOrdered, smaller, larger⟩ := ordered_node ordered
      obtain ⟨c, runs, zero, positive⟩ := compares nodeKey
        (List.mem_append_right _ List.mem_cons_self)
      rw [avlTreeDelDescend, avlTreeFind, runs, Exec.ok_bind, Exec.ok_bind]
      by_cases same : c = 0
      · rw [if_pos same, if_pos same]
        refine ⟨_, path, [], [], rfl, rfl, avl, ordered, carries, ?_, ?_, ?_, ?_, ?_⟩
        · rw [List.nil_append, List.append_nil]
        · exact fun other member => absurd member List.not_mem_nil
        · exact fun other member => absurd member List.not_mem_nil
        · intro inner
          rw [List.nil_append, List.append_nil]
        · intro _ _ _ _ here
          cases here
          exact (zero.1 same).symm
      rw [if_neg same, if_neg same]
      by_cases more : c > 0
      · -- the left subtree and the key of the node come before the key
        rw [if_pos more, if_pos more]
        have above := positive.1 more
        have inRight : ∀ other ∈ right.keys, Compares cmp valueOf key other := fun other member =>
          compares other (List.mem_append_right _ (List.mem_cons_of_mem _ member))
        have stepCarries : Carries (⟨nodeKey, true, left, h⟩ :: path) right.heightOf :=
          ⟨max_comm left.heightOf _ ▸ height, high, low, leftAvl, carries⟩
        obtain ⟨found, way, before, after, descends, finds, reaches⟩ :=
          avlTreeDelDescend_reaches key _ rightAvl rightOrdered inRight stepCarries
        have wide : Reaches valueOf key ((left.keys ++ [nodeKey]) ++ right.keys ++ []) path
            found way ((left.keys ++ [nodeKey]) ++ before) (after ++ []) := by
          apply reaches.widen
          case small =>
            intro other member
            rcases List.mem_append.1 member with inLeft | here
            · exact lt_trans (smaller other inLeft) above
            · rw [List.mem_singleton.1 here]
              exact above
          case large => exact fun other member => absurd member List.not_mem_nil
          case joined =>
            intro inner
            simp [pathKeys, joinKeys]
        have whole : (left.keys ++ [nodeKey]) ++ right.keys ++ [] =
            (node nodeKey left right h).keys := by simp [AvlNode.keys]
        exact ⟨found, way, _, _, descends, finds, whole ▸ wide⟩
      · -- the key of the node and the right subtree come after the key
        rw [if_neg more, if_neg more]
        have below : valueOf key < valueOf nodeKey := by
          rcases lt_trichotomy (valueOf key) (valueOf nodeKey) with less | equal | greater
          · exact less
          · exact absurd (zero.2 equal) same
          · exact absurd (positive.2 greater) more
        have inLeft : ∀ other ∈ left.keys, Compares cmp valueOf key other := fun other member =>
          compares other (List.mem_append_left _ member)
        have stepCarries : Carries (⟨nodeKey, false, right, h⟩ :: path) left.heightOf :=
          ⟨height, low, high, rightAvl, carries⟩
        obtain ⟨found, way, before, after, descends, finds, reaches⟩ :=
          avlTreeDelDescend_reaches key _ leftAvl leftOrdered inLeft stepCarries
        have wide : Reaches valueOf key ([] ++ left.keys ++ (nodeKey :: right.keys)) path
            found way ([] ++ before) (after ++ nodeKey :: right.keys) := by
          apply reaches.widen
          case small => exact fun other member => absurd member List.not_mem_nil
          case large =>
            intro other member
            rcases List.mem_cons.1 member with rfl | later
            · exact below
            · exact lt_trans below (larger other later)
          case joined =>
            intro inner
            simp [pathKeys, joinKeys]
        exact ⟨found, way, _, _, descends, finds, wide⟩

/-- Above a list of keys are these keys. -/
theorem mem_pathKeys {key : κ} : ∀ {path : List (AvlStep κ)} {keys : List κ}, key ∈ keys →
    key ∈ pathKeys path keys
  | [], _, member => member
  | step :: path, keys, member => by
      show key ∈ pathKeys path (joinKeys step.key step.dir keys step.other.keys)
      apply mem_pathKeys
      rw [joinKeys]
      split
      next => exact List.mem_append_right _ (List.mem_cons_of_mem _ member)
      next => exact List.mem_append_left _ member

/-- The node above the one that was found stays in the tree. -/
theorem avlTreeParent_mem {root : AvlParent κ} {path : List (AvlStep κ)} {inner : List κ}
    (atRoot : path = [] → ∀ key, root = .node key → key ∈ inner) :
    ∀ key, avlTreeParent root path = .node key → key ∈ pathKeys path inner := by
  intro key here
  cases path with
  | nil => exact atRoot rfl key here
  | cons step path =>
      cases here
      show step.key ∈ pathKeys path (joinKeys step.key step.dir inner step.other.keys)
      apply mem_pathKeys
      rw [joinKeys]
      split
      next => exact List.mem_append_right _ List.mem_cons_self
      next => exact List.mem_append_right _ List.mem_cons_self

theorem avlTreeParent_ne_null {root : AvlParent κ} (there : root ≠ .null)
    (path : List (AvlStep κ)) : avlTreeParent root path ≠ .null := by
  cases path with
  | nil => exact there
  | cons step path =>
      intro absent
      cases absent

/-! ## `avl_tree_find` and `avl_tree_del` -/

section

variable {tree : AvlTree κ} {key : κ} (avl : tree.root.Avl) (ordered : Ordered valueOf tree.root)
  (compares : ∀ other ∈ tree.root.keys, Compares cmp valueOf key other)

include avl ordered compares

/-- A key whose value is not in the tree is not found. -/
theorem avlTreeDel_absent (absent : valueOf key ∉ tree.root.keys.map valueOf) :
    avlTreeDel tree key cmp = .ok (.null, tree) ∧
      avlTreeFind cmp key tree.root = .ok null := by
  obtain ⟨found, way, before, after, descends, finds, reaches⟩ :=
    avlTreeDelDescend_reaches key [] avl ordered compares trivial
  have nothing : found = null := by
    cases found with
    | null => rfl
    | node nodeKey left right h =>
        have member : nodeKey ∈ tree.root.keys := by
          rw [reaches.split]
          exact List.mem_append_left _ (List.mem_append_right _
            (List.mem_append_right _ List.mem_cons_self))
        exact absurd (List.mem_map.2 ⟨nodeKey, member, reaches.value _ _ _ _ rfl⟩) absent
  rw [nothing] at descends finds
  refine ⟨?_, finds⟩
  rw [avlTreeDel, descends]
  rfl

/-- A key whose value is in the tree is taken out of it, and the tree stays balanced. -/
theorem avlTreeDel_present (present : valueOf key ∈ tree.root.keys.map valueOf) :
    ∃ parent root before gone after, tree.root.keys = before ++ gone :: after ∧
      valueOf gone = valueOf key ∧ root.keys = before ++ after ∧ root.Avl ∧
      (∃ left right h, avlTreeFind cmp key tree.root = .ok (node gone left right h)) ∧
      avlTreeDel tree key cmp =
        .ok (parent, { tree with root := root, count := tree.count - 1 }) ∧
      parent ≠ .null ∧ ∀ other, parent = .node other → other ∈ root.keys := by
  obtain ⟨found, way, before, after, descends, finds, reaches⟩ :=
    avlTreeDelDescend_reaches key [] avl ordered compares trivial
  have joined : ∀ inner, pathKeys way inner = before ++ inner ++ after := reaches.joined
  cases found with
  | null =>
      -- the keys before the place are smaller, and those after it are larger
      obtain ⟨other, inside, same⟩ := List.mem_map.1 present
      rw [reaches.split] at inside
      rcases List.mem_append.1 inside with first | second
      · rcases List.mem_append.1 first with first | none
        · exact absurd same (ne_of_lt (reaches.small other first))
        · exact absurd none List.not_mem_nil
      · exact absurd same.symm (ne_of_lt (reaches.large other second))
  | node gone left right h =>
      have value := reaches.value _ _ _ _ rfl
      obtain ⟨height, low, high, leftAvl, rightAvl⟩ := avl_node.1 reaches.avl
      have split : tree.root.keys = before ++ (left.keys ++ gone :: right.keys) ++ after :=
        reaches.split
      have carries : Carries way h := reaches.carries
      cases left with
      | null =>
          have bottom := rightAvl.heightOf_nonneg
          have level : h = right.heightOf + 1 := by
            rw [height]
            exact congrArg (· + 1) (max_eq_right bottom)
          obtain ⟨root, rebuilds, rootAvl, rootKeys⟩ :=
            avlTreeRebuild_shrunk rightAvl carries (by omega) (by omega)
          rw [joined] at rootKeys
          refine ⟨avlTreeParent .freed way, root, before, gone, right.keys ++ after, ?_, value, ?_,
            rootAvl, ⟨_, _, _, finds⟩, ?_, avlTreeParent_ne_null ?_ way, ?_⟩
          · rw [split, AvlNode.keys]
            simp only [List.nil_append, List.append_assoc, List.cons_append]
          · rw [rootKeys, List.append_assoc]
          · rw [avlTreeDel, descends]
            show (avlTreeRebuild true right way >>= _) = _
            rw [rebuilds]
            rfl
          · intro absent
            cases absent
          · intro other here
            rw [rootKeys, ← joined]
            apply avlTreeParent_mem _ other here
            intro _ _ freed
            cases freed
      | node keyL leftL rightL hL =>
          have stepCarries : Carries (⟨gone, false, right, h⟩ :: way) hL :=
            ⟨height, low, high, rightAvl, carries⟩
          obtain ⟨first, ends⟩ := avlTreeLast_ends (⟨gone, false, right, h⟩ :: way) [] leftAvl
            stepCarries
          generalize lastIs : avlTreeLast keyL leftL rightL hL [] = last at ends
          have lastCarries := carries_key last.passed way _ last.key ends.carries
          obtain ⟨root, rebuilds, rootAvl, rootKeys⟩ :=
            avlTreeRebuild_shrunk ends.leftAvl lastCarries (by omega) (by omega)
          have passed : pathKeys last.passed last.left.keys = first ++ last.left.keys :=
            ends.joined _
          rw [pathKeys_append, passed] at rootKeys
          have outer : root.keys = pathKeys way
              ((first ++ last.left.keys) ++ last.key :: right.keys) := rootKeys
          refine ⟨avlTreeParent (.node last.key) way, root,
            before ++ (first ++ last.left.keys ++ [last.key]), gone, right.keys ++ after,
            ?_, value, ?_, rootAvl, ⟨_, _, _, finds⟩, ?_, avlTreeParent_ne_null ?_ way, ?_⟩
          · rw [split, ends.split]
            simp only [List.append_assoc, List.cons_append]
          · rw [outer, joined]
            simp only [List.append_assoc, List.cons_append, List.nil_append]
          · rw [avlTreeDel, descends]
            show (avlTreeRebuild true (avlTreeLast keyL leftL rightL hL []).left
              ((avlTreeLast keyL leftL rightL hL []).passed ++
                ⟨(avlTreeLast keyL leftL rightL hL []).key, false, right, h⟩ :: way) >>= _) = _
            rw [lastIs, rebuilds]
            rfl
          · intro absent
            cases absent
          · intro other here
            rw [outer]
            apply avlTreeParent_mem _ other here
            intro _ lastKey same
            cases same
            exact List.mem_append_right _ List.mem_cons_self

end

end BitcoinClib.Utils
