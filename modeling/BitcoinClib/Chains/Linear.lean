import BitcoinClib.Chains.Reorganise
import Mathlib.Algebra.Order.Ring.Rat

/-!
Contract: the functions on nodes, run on a path of only children.

Owns:
- `Strung`, the blocks of a path in memory;
- for each loop or recursion along the pointers, that it returns on such a path once the
  fuel exceeds the length of the path, and what it leaves.

Does not own: the list the path belongs to.
-/

namespace BitcoinClib.Chains

open BitcoinClib.Lib

variable {Hash : Type}

/-- The nodes of a path with the headers they store. -/
abbrev Strand (Hash : Type) := List (Ptr × SatoshiBlockHeader Hash)

namespace Strand

/-- The pointer to the first block, or what stands behind the end of the strand. -/
def first : Strand Hash → Option Ptr → Option Ptr
  | [], next => next
  | block :: _, _ => some block.1

/-- The last block, or the parent of the strand. -/
def last : Option Ptr → Strand Hash → Option Ptr
  | parent, [] => parent
  | _, block :: rest => last (some block.1) rest

/-- The nodes of the strand. -/
def pointers (strand : Strand Hash) : List Ptr := strand.map Prod.fst

@[simp] theorem pointers_cons (block : Ptr × SatoshiBlockHeader Hash) (rest : Strand Hash) :
    pointers (block :: rest) = block.1 :: pointers rest := rfl

theorem pointers_append (left right : Strand Hash) :
    pointers (left ++ right) = pointers left ++ pointers right := List.map_append

@[simp] theorem first_cons (block : Ptr × SatoshiBlockHeader Hash) (rest : Strand Hash)
    (next : Option Ptr) : first (block :: rest) next = some block.1 := rfl

theorem first_append (left right : Strand Hash) (next : Option Ptr) :
    first (left ++ right) next = first left (first right next) := by
  cases left with
  | nil => rfl
  | cons => rfl

theorem last_append (parent : Option Ptr) (left right : Strand Hash) :
    last parent (left ++ right) = last (last parent left) right := by
  induction left generalizing parent with
  | nil => rfl
  | cons block rest inductionHypothesis => exact inductionHypothesis (some block.1)

theorem last_mem (block : Ptr × SatoshiBlockHeader Hash) (rest : Strand Hash)
    (parent : Option Ptr) : ∃ p ∈ pointers (block :: rest), last parent (block :: rest) = some p := by
  induction rest generalizing block parent with
  | nil => exact ⟨block.1, List.mem_cons_self, rfl⟩
  | cons next rest inductionHypothesis =>
      obtain ⟨p, inside, isLast⟩ := inductionHypothesis next (some block.1)
      exact ⟨p, List.mem_cons_of_mem _ inside, isLast⟩

end Strand

/-- Each block of the strand is the only child of the node before it, and `next` hangs on the
last one. -/
def Strung (env : ChainEnv Hash) (nodes : Heap (BlockInfo Hash)) :
    Option Ptr → Strand Hash → Option Ptr → Prop
  | _, [], _ => True
  | parent, block :: rest, next =>
      (∃ cumulativeDifficulty, nodes block.1 =
        some ⟨⟨env.hash256 block.2, some block.2, cumulativeDifficulty⟩, parent,
          Strand.first rest next, none⟩) ∧
        Strung env nodes (some block.1) rest next

variable {env : ChainEnv Hash} {nodes after : Heap (BlockInfo Hash)} {parent next : Option Ptr}
  {strand : Strand Hash} {fuel : Nat}

theorem strung_append {left right : Strand Hash} :
    Strung env nodes parent (left ++ right) next ↔
      Strung env nodes parent left (Strand.first right next) ∧
        Strung env nodes (Strand.last parent left) right next := by
  induction left generalizing parent with
  | nil => simp [Strung, Strand.last]
  | cons block rest inductionHypothesis =>
      simp only [List.cons_append, Strung, Strand.first_append, Strand.last, inductionHypothesis,
        and_assoc]

namespace Strung

/-- A path depends on its own nodes only. -/
theorem congr (strung : Strung env nodes parent strand next)
    (same : ∀ p ∈ strand.pointers, after p = nodes p) : Strung env after parent strand next := by
  induction strand generalizing parent with
  | nil => trivial
  | cons block rest inductionHypothesis =>
      obtain ⟨⟨cumulativeDifficulty, live⟩, below⟩ := strung
      refine ⟨⟨cumulativeDifficulty, ?_⟩, ?_⟩
      · rw [same block.1 List.mem_cons_self, live]
      · exact inductionHypothesis below fun p inside => same p (List.mem_cons_of_mem _ inside)

theorem write (strung : Strung env nodes parent strand next) {p : Ptr}
    {member : Member (BlockInfo Hash)} (off : p ∉ strand.pointers) :
    Strung env (nodes.write p member) parent strand next := by
  refine strung.congr fun q inside => Heap.write_of_ne ?_
  rintro rfl
  exact off inside

/-- A block of the path has its header, and no sibling. -/
theorem live (strung : Strung env nodes parent strand next)
    {block : Ptr × SatoshiBlockHeader Hash} (inside : block ∈ strand) :
    ∃ member, nodes block.1 = some member ∧ member.val.hash = env.hash256 block.2 ∧
      member.nextSibling = none := by
  induction strand generalizing parent with
  | nil => cases inside
  | cons head rest inductionHypothesis =>
      obtain ⟨⟨cumulativeDifficulty, headLive⟩, below⟩ := strung
      rcases List.mem_cons.1 inside with rfl | later
      · exact ⟨_, headLive, rfl, rfl⟩
      · exact inductionHypothesis below later

theorem firstChildPath (strung : Strung env nodes parent strand none) :
    FirstChildPath nodes (Strand.first strand none) strand.pointers := by
  induction strand generalizing parent with
  | nil => exact .nil
  | cons block rest inductionHypothesis =>
      obtain ⟨⟨cumulativeDifficulty, live⟩, below⟩ := strung
      exact .cons live (inductionHypothesis below)

/-- The nodes of a path are different ones. -/
theorem nodup (strung : Strung env nodes parent strand none) : strand.pointers.Nodup :=
  strung.firstChildPath.nodup

end Strung

/-! ## Loops along the first children -/

section Loops

theorem firstChildEnd_strung {block : Ptr × SatoshiBlockHeader Hash} {rest : Strand Hash}
    (strung : Strung env nodes parent (block :: rest) none) (enough : rest.length < fuel) :
    ∃ p, firstChildEnd fuel nodes block.1 = .ok p ∧
      Strand.last parent (block :: rest) = some p := by
  induction rest generalizing block parent fuel with
  | nil =>
      obtain ⟨⟨cumulativeDifficulty, live⟩, -⟩ := strung
      obtain ⟨fuel, rfl⟩ := Nat.exists_eq_succ_of_ne_zero (Nat.ne_of_gt enough)
      refine ⟨block.1, ?_, rfl⟩
      rw [firstChildEnd, Heap.read_eq live]
      rfl
  | cons child rest inductionHypothesis =>
      obtain ⟨⟨cumulativeDifficulty, live⟩, below⟩ := strung
      cases fuel with
      | zero => cases enough
      | succ fuel =>
          obtain ⟨p, ends, isLast⟩ := inductionHypothesis below (Nat.lt_of_succ_lt_succ enough)
          refine ⟨p, ?_, isLast⟩
          rw [firstChildEnd, Heap.read_eq live]
          exact ends

/-- From any block of a path below the node `top` the loop climbs to `top`. -/
theorem getCurrentChain_strung {top : Ptr} {head : Member (BlockInfo Hash)}
    (topLive : nodes top = some head) (isTop : head.parent = none)
    (strung : Strung env nodes (some top) strand next) (enough : strand.length < fuel) :
    ∀ p, Strand.last (some top) strand = some p → getCurrentChain fuel nodes p = .ok top := by
  induction strand using List.reverseRecOn generalizing fuel next with
  | nil =>
      intro p isLast
      cases isLast
      obtain ⟨fuel, rfl⟩ := Nat.exists_eq_succ_of_ne_zero (Nat.ne_of_gt enough)
      rw [getCurrentChain, Heap.read_eq topLive, Exec.ok_bind, isTop]
  | append_singleton front block inductionHypothesis =>
      intro p isLast
      obtain ⟨above, ⟨cumulativeDifficulty, live⟩, -⟩ := strung_append.1 strung
      rw [Strand.last_append] at isLast
      cases isLast
      rw [List.length_append, List.length_singleton] at enough
      cases fuel with
      | zero => omega
      | succ fuel =>
          rw [getCurrentChain, Heap.read_eq live, Exec.ok_bind]
          dsimp only
          obtain ⟨q, isParent⟩ : ∃ q, Strand.last (some top) front = some q := by
            cases front with
            | nil => exact ⟨top, rfl⟩
            | cons first rest =>
                obtain ⟨q, -, isLast⟩ := Strand.last_mem first rest (some top)
                exact ⟨q, isLast⟩
          rw [isParent]
          exact inductionHypothesis above (by omega) q isParent

/-- The last block of a path inherits already. -/
theorem blockInfoDeclareInheritance_strung {top : Ptr} {head : Member (BlockInfo Hash)}
    (topLive : nodes top = some head) (isTop : head.parent = none)
    (topChild : head.firstChild = Strand.first strand next)
    (strung : Strung env nodes (some top) strand next) (enough : strand.length < fuel) :
    ∀ p, Strand.last (some top) strand = some p →
      blockInfoDeclareInheritance fuel nodes p = .ok nodes := by
  induction strand using List.reverseRecOn generalizing fuel next with
  | nil =>
      intro p isLast
      cases isLast
      obtain ⟨fuel, rfl⟩ := Nat.exists_eq_succ_of_ne_zero (Nat.ne_of_gt enough)
      rw [blockInfoDeclareInheritance, Heap.read_eq topLive, Exec.ok_bind, isTop]
  | append_singleton front block inductionHypothesis =>
      intro p isLast
      obtain ⟨above, ⟨cumulativeDifficulty, live⟩, -⟩ := strung_append.1 strung
      rw [Strand.last_append] at isLast
      cases isLast
      rw [List.length_append, List.length_singleton] at enough
      cases fuel with
      | zero => omega
      | succ fuel =>
          rw [blockInfoDeclareInheritance, Heap.read_eq live, Exec.ok_bind]
          dsimp only
          -- the node above has the block as its first child
          obtain ⟨q, owner, isParent, ownerLive, isFirst⟩ : ∃ q owner,
              Strand.last (some top) front = some q ∧ nodes q = some owner ∧
                owner.firstChild = some block.1 := by
            cases front using List.reverseRecOn with
            | nil => exact ⟨top, head, rfl, topLive, topChild⟩
            | append_singleton others last _ =>
                obtain ⟨-, ⟨difficulty, lastLive⟩, -⟩ := strung_append.1 above
                exact ⟨last.1, _, Strand.last_append _ _ _, lastLive, rfl⟩
          rw [isParent]
          have jumps : jumpToFirst fuel nodes q block.1 = .ok nodes := by
            rw [jumpToFirst, Heap.read_eq ownerLive, Exec.ok_bind, if_pos isFirst]
          dsimp only
          rw [jumps, Exec.ok_bind]
          refine inductionHypothesis ?_ above (by omega) q isParent
          rw [topChild, Strand.first_append]

end Loops

/-! ## Difficulties -/

section Difficulties

/-- The pointer `p_longest_offspring` may be NULL, or hold NULL, the last block of the strand, or
a node outside it with at most the difficulty `base`. -/
def Offerable (nodes : Heap (BlockInfo Hash)) (strand : Strand Hash) (base : ℚ)
    (longest : Option (Option Ptr)) : Prop :=
  ∀ heir, longest = some (some heir) → Strand.last none strand = some heir ∨
    heir ∉ strand.pointers ∧
      ∃ member, nodes heir = some member ∧ member.val.cumulativeDifficulty ≤ base

/-- The first block is compared with the longest offspring so far. -/
theorem offerLongest_offerable {block : Ptr × SatoshiBlockHeader Hash} {rest : Strand Hash}
    {base : ℚ} (own : ℚ) {longest : Option (Option Ptr)} {member : Member (BlockInfo Hash)}
    (strung : Strung env nodes (some block.1) rest none) (live : nodes block.1 = some member)
    (difficulty : member.val.cumulativeDifficulty = own) (increases : base < own)
    (off : block.1 ∉ rest.pointers) (offerable : Offerable nodes (block :: rest) base longest) :
    ∃ offered, offerLongest nodes block.1 own longest = .ok offered ∧
      Offerable nodes rest own offered ∧
      offered.map (fun current => Strand.last current rest) =
        longest.map (fun _ => Strand.last (some block.1) rest) := by
  have here : Offerable nodes rest own (some (some block.1)) := by
    intro heir same
    cases same
    exact .inr ⟨off, member, live, le_of_eq difficulty⟩
  cases longest with
  | none => exact ⟨none, rfl, (by intro heir same; cases same), rfl⟩
  | some current =>
      cases current with
      | none => exact ⟨some (some block.1), rfl, here, rfl⟩
      | some heir =>
          rcases offerable heir rfl with isLast | ⟨outside, other, otherLive, below⟩
          · -- the longest offspring is the end of this path
            obtain ⟨cell, heirLive⟩ : ∃ cell, nodes heir = some cell := by
              obtain ⟨p, inside, endsAt⟩ := Strand.last_mem block rest none
              rw [isLast] at endsAt
              cases endsAt
              rcases List.mem_cons.1 inside with rfl | later
              · exact ⟨member, live⟩
              · exact strung.firstChildPath.live later
            by_cases wins : cell.val.cumulativeDifficulty < own
            · refine ⟨some (some block.1), ?_, here, rfl⟩
              simp only [offerLongest, Heap.read_eq heirLive, Exec.ok_bind, if_pos wins]
            · refine ⟨some (some heir), ?_, ?_, ?_⟩
              · simp only [offerLongest, Heap.read_eq heirLive, Exec.ok_bind, if_neg wins]
              · intro other same
                cases same
                cases rest with
                | nil =>
                    cases isLast
                    rw [live] at heirLive
                    cases heirLive
                    exact .inr ⟨off, member, live, le_of_eq difficulty⟩
                | cons child rest => exact .inl isLast
              · cases rest with
                | nil =>
                    cases isLast
                    rfl
                | cons child rest => rfl
          · have wins : other.val.cumulativeDifficulty < own := lt_of_le_of_lt below increases
            refine ⟨some (some block.1), ?_, here, rfl⟩
            simp only [offerLongest, Heap.read_eq otherLive, Exec.ok_bind, if_pos wins]

/-- `block_info_update_cumulative_difficulty` finds the last block of a path. -/
theorem blockInfoUpdate_strung {base : ℚ} {longest : Option (Option Ptr)}
    (positive : ∀ block ∈ strand, 0 < env.compactUint256ToBdiff block.2.bits)
    (strung : Strung env nodes parent strand none)
    (offerable : Offerable nodes strand base longest) (enough : strand.length < fuel) :
    ∃ after, blockInfoUpdateCumulativeDifficulty env fuel nodes (Strand.first strand none) base
        longest = .ok (after, longest.map fun current => Strand.last current strand) ∧
      Strung env after parent strand none ∧
      ∀ p, p ∉ strand.pointers → after p = nodes p := by
  induction strand generalizing parent nodes base longest fuel with
  | nil =>
      obtain ⟨fuel, rfl⟩ := Nat.exists_eq_succ_of_ne_zero (Nat.ne_of_gt enough)
      refine ⟨nodes, ?_, trivial, fun _ _ => rfl⟩
      simp only [Strand.first, blockInfoUpdateCumulativeDifficulty, Strand.last, Option.map_id']
  | cons block rest inductionHypothesis =>
      have off : block.1 ∉ Strand.pointers rest := (List.nodup_cons.1 strung.nodup).1
      obtain ⟨⟨cumulativeDifficulty, live⟩, below⟩ := strung
      cases fuel with
      | zero => cases enough
      | succ fuel =>
          have enoughBelow : rest.length < fuel := Nat.lt_of_succ_lt_succ enough
          have increases : base < base + env.compactUint256ToBdiff block.2.bits :=
            lt_add_of_pos_right base (positive block List.mem_cons_self)
          -- the difficulty of the first block is written
          let own := base + env.compactUint256ToBdiff block.2.bits
          let cell : Member (BlockInfo Hash) := ⟨⟨env.hash256 block.2, some block.2, own⟩, parent,
            Strand.first rest none, none⟩
          have belowNow : Strung env (nodes.write block.1 cell) (some block.1) rest none :=
            below.write off
          have offerableNow : Offerable (nodes.write block.1 cell) (block :: rest) base longest := by
            intro heir same
            apply (offerable heir same).imp_right
            rintro ⟨outside, member, memberLive, bounded⟩
            refine ⟨outside, member, ?_, bounded⟩
            rw [Heap.write_of_ne, memberLive]
            rintro rfl
            exact outside List.mem_cons_self
          obtain ⟨offered, offers, offerableBelow, sameLast⟩ :=
            offerLongest_offerable own belowNow Heap.write_same rfl increases off
              offerableNow
          obtain ⟨after, updates, belowAfter, unchanged⟩ :=
            inductionHypothesis (fun b inside => positive b (List.mem_cons_of_mem _ inside)) belowNow
              offerableBelow enoughBelow
          have afterLive : after block.1 = some cell := by
            rw [unchanged block.1 off, Heap.write_same]
          obtain ⟨last, rfl⟩ := Nat.exists_eq_succ_of_ne_zero (Nat.ne_of_gt (Nat.zero_lt_of_lt
            enoughBelow))
          refine ⟨after, ?_, ⟨⟨own, afterLive⟩, belowAfter⟩, fun p outside => ?_⟩
          · simp only [cell, own] at offers updates
            simp only [Strand.first_cons, blockInfoUpdateCumulativeDifficulty, Heap.read_eq live,
              headerDifficulty, Exec.deref_some, Exec.ok_bind]
            rw [offers, Exec.ok_bind, updates, Exec.ok_bind]
            simp only [Heap.read_eq afterLive, Exec.ok_bind, cell, updateSiblings, sameLast]
            rfl
          · rw [unchanged p fun inside => outside (List.mem_cons_of_mem _ inside)]
            exact Heap.write_of_ne fun same => outside (same ▸ List.mem_cons_self)

/-- `update_first_child_cumulative_difficulty` raises the last block above `base`. -/
theorem updateFirstChild_strung (base : ℚ)
    (positive : ∀ block ∈ strand, 0 < env.compactUint256ToBdiff block.2.bits)
    (strung : Strung env nodes parent strand none) (enough : strand.length < fuel) :
    ∃ after, updateFirstChildCumulativeDifficulty env fuel nodes (Strand.first strand none) base =
        .ok after ∧
      Strung env after parent strand none ∧
      (∀ p, p ∉ strand.pointers → after p = nodes p) ∧
      ∀ p, Strand.last none strand = some p →
        ∃ member, after p = some member ∧ base < member.val.cumulativeDifficulty := by
  induction strand generalizing parent nodes base fuel with
  | nil =>
      obtain ⟨fuel, rfl⟩ := Nat.exists_eq_succ_of_ne_zero (Nat.ne_of_gt enough)
      refine ⟨nodes, rfl, trivial, fun _ _ => rfl, fun p impossible => ?_⟩
      cases impossible
  | cons block rest inductionHypothesis =>
      have off : block.1 ∉ Strand.pointers rest := (List.nodup_cons.1 strung.nodup).1
      obtain ⟨⟨cumulativeDifficulty, live⟩, below⟩ := strung
      cases fuel with
      | zero => cases enough
      | succ fuel =>
          have increases : base < base + env.compactUint256ToBdiff block.2.bits :=
            lt_add_of_pos_right base (positive block List.mem_cons_self)
          let own := base + env.compactUint256ToBdiff block.2.bits
          let cell : Member (BlockInfo Hash) := ⟨⟨env.hash256 block.2, some block.2, own⟩, parent,
            Strand.first rest none, none⟩
          have belowNow : Strung env (nodes.write block.1 cell) (some block.1) rest none :=
            below.write off
          obtain ⟨after, updates, belowAfter, unchanged, raised⟩ :=
            inductionHypothesis own
              (fun b inside => positive b (List.mem_cons_of_mem _ inside)) belowNow
              (Nat.lt_of_succ_lt_succ enough)
          have afterLive : after block.1 = some cell := by
            rw [unchanged block.1 off, Heap.write_same]
          refine ⟨after, ?_, ⟨⟨own, afterLive⟩, belowAfter⟩, fun p outside => ?_,
            fun p isLast => ?_⟩
          · simp only [Strand.first_cons, updateFirstChildCumulativeDifficulty, Heap.read_eq live,
              headerDifficulty, Exec.deref_some, Exec.ok_bind]
            exact updates
          · rw [unchanged p fun inside => outside (List.mem_cons_of_mem _ inside)]
            exact Heap.write_of_ne fun same => outside (same ▸ List.mem_cons_self)
          · cases rest with
            | nil =>
                cases isLast
                exact ⟨cell, afterLive, increases⟩
            | cons child rest =>
                obtain ⟨member, memberLive, above⟩ := raised p isLast
                exact ⟨member, memberLive, lt_trans increases above⟩

end Difficulties

/-! ## Leaving and releasing -/

section Leaving

theorem abandonSiblings_strung [DecidableEq Hash] {list : ActiveChainList Hash}
    (strung : Strung env list.nodes parent strand none) (enough : strand.length < fuel) :
    abandonSiblings fuel list (Strand.first strand none) = .ok list := by
  induction strand generalizing parent fuel with
  | nil =>
      obtain ⟨fuel, rfl⟩ := Nat.exists_eq_succ_of_ne_zero (Nat.ne_of_gt enough)
      rfl
  | cons block rest inductionHypothesis =>
      obtain ⟨⟨cumulativeDifficulty, live⟩, below⟩ := strung
      cases fuel with
      | zero => cases enough
      | succ fuel =>
          simp only [Strand.first_cons, abandonSiblings, Heap.read_eq live, Exec.ok_bind]
          rw [Heap.write_self live]
          exact inductionHypothesis below (Nat.lt_of_succ_lt_succ enough)

theorem blockInfoFree_strung (strung : Strung env nodes parent strand none)
    (enough : strand.length < fuel) :
    ∃ after, blockInfoFree fuel nodes (Strand.first strand none) = .ok after ∧
      ∀ p, p ∉ strand.pointers → after p = nodes p := by
  induction strand generalizing parent fuel with
  | nil =>
      obtain ⟨fuel, rfl⟩ := Nat.exists_eq_succ_of_ne_zero (Nat.ne_of_gt enough)
      exact ⟨nodes, rfl, fun _ _ => rfl⟩
  | cons block rest inductionHypothesis =>
      have off : block.1 ∉ Strand.pointers rest := (List.nodup_cons.1 strung.nodup).1
      obtain ⟨⟨cumulativeDifficulty, live⟩, below⟩ := strung
      cases fuel with
      | zero => cases enough
      | succ fuel =>
          obtain ⟨freed, frees, unchanged⟩ :=
            inductionHypothesis below (Nat.lt_of_succ_lt_succ enough)
          have freedLive := (unchanged block.1 off).trans live
          simp only [Strand.first_cons, blockInfoFree, Heap.read_eq live, Exec.ok_bind,
            Option.isSome_none, Bool.false_eq_true, if_false]
          cases rest with
          | nil =>
              refine ⟨nodes.release block.1, rfl, fun p outside => ?_⟩
              exact Heap.release_of_ne fun same => outside (same ▸ List.mem_cons_self)
          | cons child rest =>
              rw [Strand.first_cons, Option.isSome_some, if_pos rfl]
              rw [Strand.first_cons] at frees
              rw [frees, Exec.ok_bind, Heap.read_eq freedLive, Exec.ok_bind]
              refine ⟨_, rfl, fun p outside => ?_⟩
              have notHead : p ≠ block.1 := fun same => outside (same ▸ List.mem_cons_self)
              have notLater := fun inside => outside (List.mem_cons_of_mem _ inside)
              rw [Heap.release_of_ne notHead, Heap.write_of_ne notHead, unchanged p notLater]

end Leaving

/-! ## Joining -/

section Joining

/-- `block_info_add_child` below a node without children. -/
theorem blockInfoAddChild_childless {parent child : Ptr} {owner node : Member (BlockInfo Hash)}
    (ownerLive : nodes parent = some owner) (childless : owner.firstChild = none)
    (childLive : nodes child = some node) (different : child ≠ parent) :
    blockInfoAddChild fuel nodes parent child =
      .ok ((nodes.write parent { owner with firstChild := some child }).write child
        { node with parent := some parent }) := by
  have stillLive : (nodes.write parent { owner with firstChild := some child }) child =
      some node := by
    rw [Heap.write_of_ne different, childLive]
  simp only [blockInfoAddChild, Heap.read_eq ownerLive, Exec.ok_bind, childless,
    Heap.read_eq stillLive]

/-- The first block of a strand gets another parent. -/
theorem Strung.hang {top : Ptr} {other : Option Ptr} {block : Ptr × SatoshiBlockHeader Hash}
    {rest : Strand Hash} {node : Member (BlockInfo Hash)}
    (strung : Strung env nodes other (block :: rest) none) (live : nodes block.1 = some node) :
    Strung env (nodes.write block.1 { node with parent := some top }) (some top) (block :: rest)
      none := by
  have off : block.1 ∉ Strand.pointers rest := (List.nodup_cons.1 strung.nodup).1
  obtain ⟨⟨cumulativeDifficulty, blockLive⟩, below⟩ := strung
  rw [live] at blockLive
  cases blockLive
  exact ⟨⟨cumulativeDifficulty, Heap.write_same⟩, below.write off⟩

/-- `block_info_add_child` hangs a strand on the end of another one. -/
theorem blockInfoAddChild_strung (fuel : Nat) {front back : Strand Hash} {top other : Option Ptr} {last : Ptr}
    {block : Ptr × SatoshiBlockHeader Hash}
    (above : Strung env nodes top front none) (isLast : Strand.last none front = some last)
    (below : Strung env nodes other (block :: back) none)
    (apart : (Strand.pointers (front ++ block :: back)).Nodup) :
    ∃ after, blockInfoAddChild fuel nodes last block.1 = .ok after ∧
      Strung env after top (front ++ block :: back) none ∧
      ∀ p, p ∉ Strand.pointers (front ++ block :: back) → after p = nodes p := by
  have split := List.nodup_append.1 (Strand.pointers_append front (block :: back) ▸ apart)
  cases front using List.reverseRecOn with
  | nil => cases isLast
  | append_singleton others owner _ =>
      rw [Strand.last_append] at isLast
      cases isLast
      obtain ⟨aboveOthers, ⟨difficulty, ownerLive⟩, -⟩ := strung_append.1 above
      obtain ⟨node, childLive, -, -⟩ := below.live List.mem_cons_self
      have ownerInside : owner.1 ∈ Strand.pointers (others ++ [owner]) := by
        rw [Strand.pointers_append]
        exact List.mem_append_right _ List.mem_cons_self
      have ownerOff : owner.1 ∉ Strand.pointers (block :: back) := fun inside =>
        split.2.2 _ ownerInside _ inside rfl
      have ownerBehind : owner.1 ∉ Strand.pointers others := by
        have front := split.1
        rw [Strand.pointers_append] at front
        exact fun inside => (List.nodup_append.1 front).2.2 _ inside _ List.mem_cons_self rfl
      have childOff : ∀ p ∈ Strand.pointers (others ++ [owner]), p ≠ block.1 := fun p inside =>
        split.2.2 p inside _ List.mem_cons_self
      refine ⟨_, blockInfoAddChild_childless ownerLive rfl childLive (childOff _ ownerInside).symm,
        ?_, fun p outside => ?_⟩
      · refine strung_append.2 ⟨strung_append.2 ⟨?_, ⟨difficulty, ?_⟩, trivial⟩, ?_⟩
        · refine (aboveOthers.write ownerBehind).write fun inside => childOff _ ?_ rfl
          rw [Strand.pointers_append]
          exact List.mem_append_left _ inside
        · rw [Heap.write_of_ne (childOff _ ownerInside), Heap.write_same]
          rfl
        · rw [Strand.last_append]
          apply (below.write ownerOff).hang
          rw [Heap.write_of_ne (childOff _ ownerInside).symm, childLive]
      · rw [Strand.pointers_append, List.mem_append, not_or] at outside
        have notChild : p ≠ block.1 := fun same => outside.2 (same ▸ List.mem_cons_self)
        have notOwner : p ≠ owner.1 := fun same => outside.1 (same ▸ ownerInside)
        rw [Heap.write_of_ne notChild, Heap.write_of_ne notOwner]

/-- The loop over the children that wait claims a strand, which has no sibling. -/
theorem claimChildren_strung {orphan block : Ptr × SatoshiBlockHeader Hash} {back : Strand Hash}
    {other : Option Ptr} (above : Strung env nodes none [orphan] none)
    (below : Strung env nodes other (block :: back) none)
    (apart : (Strand.pointers (orphan :: block :: back)).Nodup) (enough : 1 < fuel) :
    ∃ after, claimChildren fuel nodes orphan.1 (some block.1) = .ok after ∧
      Strung env after none (orphan :: block :: back) none ∧
      ∀ p, p ∉ Strand.pointers (orphan :: block :: back) → after p = nodes p := by
  obtain ⟨fuel, rfl⟩ : ∃ smaller, fuel = smaller + 2 := ⟨fuel - 2, by omega⟩
  obtain ⟨after, adds, strung, unchanged⟩ :=
    blockInfoAddChild_strung (fuel + 1) above rfl below apart
  refine ⟨after, ?_, strung, unchanged⟩
  obtain ⟨node, live, -, alone⟩ := strung.live (List.mem_cons_of_mem _ List.mem_cons_self)
  rw [claimChildren, adds, Exec.ok_bind, Heap.read_eq live, Exec.ok_bind, alone]
  rfl

end Joining

/-! ## Inheriting -/

section Inheriting

/-- Each header names the one before it; `hash` is the hash before the first. -/
def Follows (env : ChainEnv Hash) : Hash → List (SatoshiBlockHeader Hash) → Prop
  | _, [] => True
  | hash, hdr :: rest => hdr.prevHash = hash ∧ Follows env (env.hash256 hdr) rest

/-- The heirs that headers become above an heir with the cumulative difficulty `base`. -/
def heirsOf (env : ChainEnv Hash) :
    ℚ → List (SatoshiBlockHeader Hash) → List (BlockchainHeir Hash)
  | _, [] => []
  | base, hdr :: rest => heirOf env (env.hash256 hdr) hdr base ::
      heirsOf env (base + env.compactUint256ToBdiff hdr.bits) rest

theorem heirsOf_length (base : ℚ) (headers : List (SatoshiBlockHeader Hash)) :
    (heirsOf env base headers).length = headers.length := by
  induction headers generalizing base with
  | nil => rfl
  | cons hdr rest inductionHypothesis =>
      rw [heirsOf, List.length_cons, inductionHypothesis, List.length_cons]

theorem HeirsAlong.heirs_eq {base : ℚ} {path : List Ptr} {heirs : List (BlockchainHeir Hash)}
    (strung : Strung env nodes parent strand none)
    (along : HeirsAlong env nodes base (Strand.first strand none) path heirs) :
    heirs = heirsOf env base (strand.map Prod.snd) := by
  induction strand generalizing parent base path heirs with
  | nil =>
      cases along
      rfl
  | cons block rest inductionHypothesis =>
      obtain ⟨⟨cumulativeDifficulty, live⟩, below⟩ := strung
      cases along with
      | cons again header others =>
          rw [live] at again
          cases again
          cases header
          rw [inductionHypothesis below others]
          rfl

/-- The blocks of a path become the heirs of their headers. -/
theorem Strung.heirsAlong (strung : Strung env nodes parent strand none) (base : ℚ) :
    HeirsAlong env nodes base (Strand.first strand none) strand.pointers
      (heirsOf env base (strand.map Prod.snd)) := by
  induction strand generalizing parent base with
  | nil => exact .nil base
  | cons block rest inductionHypothesis =>
      obtain ⟨⟨cumulativeDifficulty, live⟩, below⟩ := strung
      exact .cons live rfl (inductionHypothesis below _)

theorem Follows.hashLinked {hash : Hash} {headers : List (SatoshiBlockHeader Hash)}
    (follows : Follows env hash headers) (base : ℚ) : HashLinked hash (heirsOf env base headers) := by
  induction headers generalizing hash base with
  | nil => trivial
  | cons hdr rest inductionHypothesis => exact ⟨follows.1, inductionHypothesis follows.2 _⟩

theorem heirsOf_hash (base : ℚ) (headers : List (SatoshiBlockHeader Hash)) :
    (heirsOf env base headers).map BlockchainHeir.hash = headers.map env.hash256 := by
  induction headers generalizing base with
  | nil => rfl
  | cons hdr rest inductionHypothesis =>
      rw [heirsOf, List.map_cons, inductionHypothesis, List.map_cons]
      rfl

variable [DecidableEq Hash] {chain : Blockchain Hash} {slot : Nat}
  {parentHeir : BlockchainHeir Hash}

/-- `blockchain_add_inheritances` behind the last heir appends the heirs of a path. -/
theorem blockchainAddInheritances_strung {block : Ptr × SatoshiBlockHeader Hash}
    {rest : Strand Hash} (indexed : HeirsIndexed chain)
    (length : chain.heirs.length = chain.height + 1)
    (parentStored : chain.heirs[chain.height]? = some parentHeir)
    (capacity : chain.maxSize = blockchainDefaultAllocSize)
    (room : chain.height + (block :: rest).length < blockchainDefaultAllocSize)
    (strung : Strung env chain.candidatesList.nodes parent (block :: rest) none)
    (linked : Follows env parentHeir.hash ((block :: rest).map Prod.snd))
    (fresh : (chain.heirs.map BlockchainHeir.hash ++
      (block :: rest).map fun block => env.hash256 block.2).Nodup)
    (enough : (block :: rest).length < fuel) :
    ∃ after, blockchainAddInheritances fuel env chain ⟨chain.arena, chain.height⟩
        (some block.1) = .ok (after, none) ∧
      ∃ searchRoot callbacks, after = { chain with
        heirs := chain.heirs ++
          heirsOf env parentHeir.cumulativeDifficulty ((block :: rest).map Prod.snd)
        height := chain.height + (block :: rest).length
        searchRoot
        callbacks } ∧
      HeirsIndexed after := by
  let heirs := heirsOf env parentHeir.cumulativeDifficulty ((block :: rest).map Prod.snd)
  have size : heirs.length = (block :: rest).length := by
    rw [heirsOf_length, List.length_map]
  have allFresh : ((chain.heirs ++ heirs).map BlockchainHeir.hash).Nodup := by
    rw [List.map_append, heirsOf_hash, List.map_map]
    exact fresh
  have unit : blockchainDefaultAllocSize ∣ chain.maxSize := ⟨1, by rw [capacity, Nat.mul_one]⟩
  rw [← capacity] at room
  obtain ⟨⟨extended, tip⟩, loops⟩ := addInheritancesLoop_returns chain.height indexed length
    parentStored unit (by rw [List.length_cons] at room; omega) (by rw [size]; exact room)
    (strung.heirsAlong _) (linked.hashLinked _) allFresh (by rw [size]; exact enough)
  have returns : blockchainAddInheritances fuel env chain ⟨chain.arena, chain.height⟩
      (some block.1) = .ok ({ extended with height := tip }, none) := by
    rw [Strand.first_cons] at loops
    rw [blockchainAddInheritances, Exec.assert_of Option.isSome_some, Exec.ok_bind,
      blockchainAbandonInheritances,
      Exec.assert_of (Nat.le_refl _), Exec.ok_bind, if_pos rfl, Exec.ok_bind]
    dsimp only
    rw [loops, Exec.ok_bind]
  obtain ⟨path, heirs, searchRoot, along, afterEq, afterIndexed⟩ :=
    blockchainAddInheritances_along indexed length parentStored returns
  have isHeirs := along.heirs_eq strung
  refine ⟨{ extended with height := tip }, returns, searchRoot,
    chain.callbacks ++ additions heirs (chain.height + 1), ?_, afterIndexed⟩
  rw [afterEq, isHeirs, heirsOf_length, List.length_map]

end Inheriting

end BitcoinClib.Chains
