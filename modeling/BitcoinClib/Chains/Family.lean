import BitcoinClib.Chains.BlockInfo
import BitcoinClib.Lib.Election
import Mathlib.Algebra.Order.Ring.Rat

/-!
Contract: the function that weighs a node, the siblings behind it and all their descendants.

Owns:
- `weigh`, a forest with its cumulative difficulties, and `weights`, the list of them in
  preorder;
- that a second visit of a weighed forest changes nothing;
- `blockInfoUpdateCumulativeDifficulty_family`, for every forest in memory.
-/

namespace BitcoinClib.Chains

open BitcoinClib.Lib

variable {Hash : Type} {env : ChainEnv Hash}

/-- The difficulty of a node by the bits of its header. -/
def ownDifficulty (env : ChainEnv Hash) (info : BlockInfo Hash) : ℚ :=
  match info.hdr with
  | some hdr => env.compactUint256ToBdiff hdr.bits
  | none => 0

/-- The forest with its difficulties added up from `base` on, along parents and children. -/
def weigh (env : ChainEnv Hash) : ℚ → Forest (BlockInfo Hash) → Forest (BlockInfo Hash)
  | _, .nil => .nil
  | base, .node id val parent children siblings =>
      .node id { val with cumulativeDifficulty := base + ownDifficulty env val } parent
        (weigh env (base + ownDifficulty env val) children) (weigh env base siblings)

/-- The nodes with their cumulative difficulties, in depth-first order. -/
def weights (f : Forest (BlockInfo Hash)) : List (Ptr × ℚ) :=
  f.members.map fun member => (member.1, member.2.cumulativeDifficulty)

/-- Every node has a header. -/
def Headed (f : Forest (BlockInfo Hash)) : Prop := ∀ member ∈ f.members, member.2.hdr ≠ none

/-- The pointer `p_longest_offspring` for a leader; the outer option is NULL. -/
def offspringPointer (best : Option (Option (Ptr × ℚ))) : Option (Option Ptr) :=
  best.map (Option.map Prod.fst)

/-- The leader is live and has the weight he is known with. -/
def Tracks (nodes : Heap (BlockInfo Hash)) (best : Option (Option (Ptr × ℚ))) : Prop :=
  ∀ leader, best = some (some leader) →
    ∃ member, nodes leader.1 = some member ∧ member.val.cumulativeDifficulty = leader.2

/-- No entry is heavier than the leader, and without a leader there is no entry. -/
def Leads (best : Option (Ptr × ℚ)) (entries : List (Ptr × ℚ)) : Prop :=
  ∀ entry ∈ entries, ∃ leader, best = some leader ∧ entry.2 ≤ leader.2

section Forests

variable {id : Ptr} {val : BlockInfo Hash} {parent : Option Ptr}
  {children siblings : Forest (BlockInfo Hash)}

@[simp] theorem weigh_ids (base : ℚ) (f : Forest (BlockInfo Hash)) :
    (weigh env base f).ids = f.ids := by
  induction f generalizing base with
  | nil => rfl
  | node id val parent children siblings childrenIds siblingsIds =>
      rw [weigh, Forest.ids_node, Forest.ids_node, childrenIds, siblingsIds]

@[simp] theorem weigh_first (base : ℚ) (f : Forest (BlockInfo Hash)) :
    (weigh env base f).first = f.first := by
  cases f <;> rfl

/-- Weighing a weighed forest changes nothing. -/
theorem weigh_weigh (base : ℚ) (f : Forest (BlockInfo Hash)) :
    weigh env base (weigh env base f) = weigh env base f := by
  induction f generalizing base with
  | nil => rfl
  | node id val parent children siblings childrenEq siblingsEq =>
      have own : ownDifficulty env { val with
          cumulativeDifficulty := base + ownDifficulty env val } = ownDifficulty env val := rfl
      rw [weigh, weigh, own, childrenEq, siblingsEq]

theorem weights_node : weights (.node id val parent children siblings) =
    (id, val.cumulativeDifficulty) :: (weights children ++ weights siblings) := by
  rw [weights, Forest.members, List.map_cons, List.map_append]
  rfl

theorem mem_ids_of_weights {f : Forest (BlockInfo Hash)} :
    ∀ entry ∈ weights f, entry.1 ∈ f.ids := by
  induction f with
  | nil => exact fun _ member => absurd member List.not_mem_nil
  | node id val parent children siblings childrenIds siblingsIds =>
      intro entry member
      rw [weights_node, List.mem_cons, List.mem_append] at member
      rw [Forest.ids_node, List.mem_cons, List.mem_append]
      rcases member with rfl | child | sibling
      · exact .inl rfl
      · exact .inr (.inl (childrenIds entry child))
      · exact .inr (.inr (siblingsIds entry sibling))

theorem Headed.weigh {f : Forest (BlockInfo Hash)} (headed : Headed f) (base : ℚ) :
    Headed (weigh env base f) := by
  induction f generalizing base with
  | nil => exact headed
  | node id val parent children siblings childrenHeaded siblingsHeaded =>
      intro member inside
      rw [Chains.weigh, Forest.members, List.mem_cons, List.mem_append] at inside
      rcases inside with rfl | child | sibling
      · exact headed (id, val) List.mem_cons_self
      · refine childrenHeaded (fun other below => headed other ?_) _ member child
        exact List.mem_cons_of_mem _ (List.mem_append_left _ below)
      · refine siblingsHeaded (fun other beside => headed other ?_) _ member sibling
        exact List.mem_cons_of_mem _ (List.mem_append_right _ beside)

theorem Headed.node (headed : Headed (.node id val parent children siblings)) :
    headerDifficulty env val = .ok (ownDifficulty env val) ∧ Headed children ∧ Headed siblings := by
  refine ⟨?_, fun other below => headed other ?_, fun other beside => headed other ?_⟩
  · have header := headed (id, val) List.mem_cons_self
    unfold headerDifficulty ownDifficulty
    cases found : val.hdr with
    | none => exact absurd found header
    | some hdr => rfl
  · exact List.mem_cons_of_mem _ (List.mem_append_left _ below)
  · exact List.mem_cons_of_mem _ (List.mem_append_right _ beside)

end Forests

/-! ## The leader -/

section Leader

variable {nodes after : Heap (BlockInfo Hash)} {best : Option (Option (Ptr × ℚ))}

/-- A node offers itself. -/
theorem offerLongest_eq {node : Ptr} {own : ℚ} {member : Member (BlockInfo Hash)}
    (tracks : Tracks nodes best) (live : nodes node = some member)
    (weight : member.val.cumulativeDifficulty = own) :
    offerLongest nodes node own (offspringPointer best) =
        .ok (offspringPointer (best.map (outweigh · (node, own)))) ∧
      Tracks nodes (best.map (outweigh · (node, own))) := by
  cases best with
  | none => exact ⟨rfl, fun leader same => nomatch same⟩
  | some old =>
      cases old with
      | none =>
          refine ⟨rfl, fun leader same => ?_⟩
          cases same
          exact ⟨member, live, weight⟩
      | some leader =>
          obtain ⟨heir, heirLive, heirWeight⟩ := tracks leader rfl
          have reads : offerLongest nodes node own (offspringPointer (some (some leader))) =
              .ok (some (some (if leader.2 < own then node else leader.1))) := by
            show offerLongest nodes node own (some (some leader.1)) = _
            rw [offerLongest, Heap.read_eq heirLive, Exec.ok_bind, heirWeight]
          rw [reads]
          by_cases heavier : leader.2 < own
          · rw [if_pos heavier, Option.map_some, outweigh, if_pos heavier]
            refine ⟨rfl, fun other same => ?_⟩
            cases same
            exact ⟨member, live, weight⟩
          · rw [if_neg heavier, Option.map_some, outweigh, if_neg heavier]
            exact ⟨rfl, tracks⟩

/-- A leader that was elected from a weighed forest is tracked in memory that holds it. -/
theorem Tracks.elect {f : Forest (BlockInfo Hash)} (tracks : Tracks nodes best)
    (held : f.Holds after) (outside : ∀ leader, best = some (some leader) → leader.1 ∉ f.ids)
    (frame : ∀ p, p ∉ f.ids → after p = nodes p) :
    Tracks after (best.map (elect · (weights f))) := by
  intro leader elected
  cases best with
  | none => cases elected
  | some old =>
      rw [Option.map_some] at elected
      rcases elect_first (Option.some.inj elected) with ⟨rfl, -⟩ | ⟨front, back, split, -⟩
      · obtain ⟨member, live, weight⟩ := tracks leader rfl
        exact ⟨member, (frame leader.1 (outside leader rfl)).trans live, weight⟩
      · have inside : leader ∈ weights f := by
          rw [split]
          exact List.mem_append_right _ List.mem_cons_self
        obtain ⟨entry, member, rfl⟩ := List.mem_map.1 inside
        obtain ⟨record, live, stored⟩ := held.live member
        exact ⟨record, live, by rw [stored]⟩

/-- The leader after an election is the old one or a node of the forest. -/
theorem elect_origin {f : Forest (BlockInfo Hash)} {leader : Ptr × ℚ}
    (elected : best.map (elect · (weights f)) = some (some leader)) :
    best = some (some leader) ∨ leader.1 ∈ f.ids := by
  cases best with
  | none => cases elected
  | some old =>
      rw [Option.map_some] at elected
      rcases elect_first (Option.some.inj elected) with ⟨rfl, -⟩ | ⟨front, back, split, -⟩
      · exact .inl rfl
      · refine .inr (mem_ids_of_weights leader ?_)
        rw [split]
        exact List.mem_append_right _ List.mem_cons_self

end Leader

/-! ## A second visit -/

/-- The steps at one node: it is weighed and offers itself, then its first child and its siblings
are visited. -/
theorem blockInfoUpdate_node {nodes middle after : Heap (BlockInfo Hash)} {id : Ptr}
    {cell next : Member (BlockInfo Hash)} {base own difficulty : ℚ}
    {longest offered below beside : Option (Option Ptr)} (live : nodes id = some cell)
    (computes : headerDifficulty env cell.val = .ok difficulty) (sum : own = base + difficulty)
    (offers : offerLongest
      (nodes.write id { cell with val := { cell.val with cumulativeDifficulty := own } }) id own
        longest = .ok offered)
    (children : Exec.Converges (fun fuel => blockInfoUpdateCumulativeDifficulty env fuel
      (nodes.write id { cell with val := { cell.val with cumulativeDifficulty := own } })
        cell.firstChild own offered) (middle, below))
    (still : middle id = some next)
    (siblings : Exec.Converges
      (fun fuel => updateSiblings env fuel middle next.nextSibling base below) (after, beside)) :
    Exec.Converges (fun fuel =>
      blockInfoUpdateCumulativeDifficulty env fuel nodes (some id) base longest)
      (after, beside) := by
  have rest : Exec.Converges (fun fuel => middle.read id >>= fun cell =>
      updateSiblings env fuel middle cell.nextSibling base below) (after, beside) := by
    simp only [Heap.read_eq still, Exec.ok_bind]
    exact siblings
  have both : Exec.Converges (fun fuel => blockInfoUpdateCumulativeDifficulty env fuel
      (nodes.write id { cell with val := { cell.val with cumulativeDifficulty := own } })
        cell.firstChild own offered >>= fun result => result.1.read id >>= fun cell =>
          updateSiblings env fuel result.1 cell.nextSibling base result.2) (after, beside) :=
    .bind children rest
  refine .of_succ (fun fuel => ?_) both
  rw [blockInfoUpdateCumulativeDifficulty, Heap.read_eq live, Exec.ok_bind, computes, Exec.ok_bind]
  dsimp only
  rw [← sum, offers, Exec.ok_bind]

/-- The loop over the siblings: the first one visits the others, and the loop goes on with them. -/
theorem updateSiblings_node {nodes middle after : Heap (BlockInfo Hash)} {id : Ptr}
    {next : Member (BlockInfo Hash)} {base : ℚ} {longest first rest : Option (Option Ptr)}
    (tree : Exec.Converges (fun fuel =>
      blockInfoUpdateCumulativeDifficulty env fuel nodes (some id) base longest) (middle, first))
    (still : middle id = some next)
    (siblings : Exec.Converges
      (fun fuel => updateSiblings env fuel middle next.nextSibling base first) (after, rest)) :
    Exec.Converges (fun fuel => updateSiblings env fuel nodes (some id) base longest)
      (after, rest) := by
  have loop : Exec.Converges (fun fuel => middle.read id >>= fun cell =>
      updateSiblings env fuel middle cell.nextSibling base first) (after, rest) := by
    simp only [Heap.read_eq still, Exec.ok_bind]
    exact siblings
  have both : Exec.Converges (fun fuel =>
      blockInfoUpdateCumulativeDifficulty env fuel nodes (some id) base longest >>= fun result =>
        result.1.read id >>= fun cell =>
          updateSiblings env fuel result.1 cell.nextSibling base result.2) (after, rest) :=
    .bind tree loop
  exact .of_succ (fun fuel => by rw [updateSiblings]) both

theorem update_none {nodes : Heap (BlockInfo Hash)} {base : ℚ} {longest : Option (Option Ptr)} :
    Exec.Converges (fun fuel =>
        blockInfoUpdateCumulativeDifficulty env fuel nodes none base longest) (nodes, longest) ∧
      Exec.Converges (fun fuel => updateSiblings env fuel nodes none base longest)
        (nodes, longest) := by
  constructor
  · refine ⟨1, fun fuel enough => ?_⟩
    cases fuel with
    | zero => exact absurd enough (Nat.not_succ_le_zero 0)
    | succ fuel => rfl
  · refine ⟨1, fun fuel enough => ?_⟩
    cases fuel with
    | zero => exact absurd enough (Nat.not_succ_le_zero 0)
    | succ fuel => rfl

/-- A forest that is weighed, with a leader who is not lighter, is left as it is. -/
theorem update_settled {f : Forest (BlockInfo Hash)} {nodes : Heap (BlockInfo Hash)} {base : ℚ}
    {best : Option (Option (Ptr × ℚ))} (held : f.Holds nodes) (weighed : weigh env base f = f)
    (headed : Headed f) (tracks : Tracks nodes best)
    (leads : ∀ old, best = some old → Leads old (weights f)) :
    Exec.Converges (fun fuel => blockInfoUpdateCumulativeDifficulty env fuel nodes f.first base
        (offspringPointer best)) (nodes, offspringPointer best) ∧
      Exec.Converges (fun fuel => updateSiblings env fuel nodes f.first base
        (offspringPointer best)) (nodes, offspringPointer best) := by
  induction f generalizing base with
  | nil => exact update_none
  | node id val parent children siblings childrenSettled siblingsSettled =>
      obtain ⟨here, below, beside⟩ := held
      obtain ⟨computes, headedBelow, headedBeside⟩ := headed.node
      rw [weigh] at weighed
      injection weighed with _ sameVal _ weighedBelow weighedBeside
      have own : val.cumulativeDifficulty = base + ownDifficulty env val :=
        (congrArg BlockInfo.cumulativeDifficulty sameVal).symm
      rw [← own] at weighedBelow
      have same : nodes.write id ⟨{ val with cumulativeDifficulty := val.cumulativeDifficulty },
          parent, children.first, siblings.first⟩ = nodes := Heap.write_self here
      have leadsAll : ∀ old, best = some old → Leads old (weights children) ∧
          Leads old (weights siblings) := by
        intro old isBest
        have all := leads old isBest
        rw [weights_node] at all
        exact ⟨fun entry member => all entry (List.mem_cons_of_mem _ (List.mem_append_left _ member)),
          fun entry member => all entry (List.mem_cons_of_mem _ (List.mem_append_right _ member))⟩
      have childrenRun := childrenSettled below weighedBelow headedBelow
        fun old isBest => (leadsAll old isBest).1
      have siblingsRun := siblingsSettled beside weighedBeside headedBeside
        fun old isBest => (leadsAll old isBest).2
      have unchanged : best.map (outweigh · (id, val.cumulativeDifficulty)) = best := by
        cases best with
        | none => rfl
        | some old =>
            obtain ⟨leader, rfl, lighter⟩ := leads old rfl (id, val.cumulativeDifficulty)
              (by rw [weights_node]; exact List.mem_cons_self)
            rw [Option.map_some, outweigh_of_le lighter]
      have offers : offerLongest (nodes.write id ⟨{ val with
          cumulativeDifficulty := val.cumulativeDifficulty }, parent, children.first,
            siblings.first⟩) id val.cumulativeDifficulty (offspringPointer best) =
          .ok (offspringPointer best) := by
        rw [same, (offerLongest_eq tracks here rfl).1, unchanged]
      have tree : Exec.Converges (fun fuel => blockInfoUpdateCumulativeDifficulty env fuel nodes
          (some id) base (offspringPointer best)) (nodes, offspringPointer best) := by
        refine blockInfoUpdate_node here computes own offers ?_ here siblingsRun.2
        rw [same]
        exact childrenRun.1
      exact ⟨tree, updateSiblings_node tree here siblingsRun.2⟩

/-! ## The first visit -/

/-- After an election the leader outweighs its entries. -/
theorem leads_of_elect {best : Option (Option (Ptr × ℚ))} {entries more : List (Ptr × ℚ)}
    (subset : ∀ entry ∈ more, entry ∈ entries) :
    ∀ old, best.map (elect · entries) = some old → Leads old more := by
  intro old elected entry member
  cases best with
  | none => cases elected
  | some start =>
      rw [Option.map_some] at elected
      have inside := subset entry member
      cases old with
      | none =>
          have nonempty : entries ≠ [] := List.ne_nil_of_mem inside
          exact absurd (Option.some.inj elected) (elect_ne_none (.inr nonempty))
      | some leader =>
          exact ⟨leader, rfl, elect_le (Option.some.inj elected) entry inside⟩

/-- A forest in memory is weighed, and the leader is elected from it. -/
theorem update_weighs {f : Forest (BlockInfo Hash)} {nodes : Heap (BlockInfo Hash)} (base : ℚ)
    {best : Option (Option (Ptr × ℚ))} (held : f.Holds nodes) (distinct : f.ids.Nodup)
    (headed : Headed f) (tracks : Tracks nodes best)
    (outside : ∀ leader, best = some (some leader) → leader.1 ∉ f.ids) :
    ∃ after,
      Exec.Converges (fun fuel => blockInfoUpdateCumulativeDifficulty env fuel nodes f.first base
        (offspringPointer best))
        (after, offspringPointer (best.map (elect · (weights (weigh env base f))))) ∧
      Exec.Converges (fun fuel => updateSiblings env fuel nodes f.first base
        (offspringPointer best))
        (after, offspringPointer (best.map (elect · (weights (weigh env base f))))) ∧
      (weigh env base f).Holds after ∧ ∀ p, p ∉ f.ids → after p = nodes p := by
  induction f generalizing nodes base best with
  | nil =>
      have same : best.map (elect · (weights (weigh env base .nil))) = best := by
        cases best <;> rfl
      rw [same]
      exact ⟨nodes, update_none.1, update_none.2, trivial, fun _ _ => rfl⟩
  | node id val parent children siblings childrenRun siblingsRun =>
      obtain ⟨here, below, beside⟩ := held
      obtain ⟨computes, headedBelow, headedBeside⟩ : headerDifficulty env val =
        .ok (ownDifficulty env val) ∧ Headed children ∧ Headed siblings := headed.node
      rw [Forest.ids_node, List.nodup_cons, List.mem_append, not_or, List.nodup_append] at distinct
      obtain ⟨⟨notBelow, notBeside⟩, distinctBelow, distinctBeside, apart⟩ := distinct
      obtain ⟨own, sum⟩ : ∃ own, own = base + ownDifficulty env val := ⟨_, rfl⟩
      obtain ⟨cell, cellEq⟩ : ∃ cell : Member (BlockInfo Hash),
          cell = ⟨{ val with cumulativeDifficulty := own }, parent, children.first,
            siblings.first⟩ := ⟨_, rfl⟩
      have weighed : weigh env base (.node id val parent children siblings) =
          .node id { val with cumulativeDifficulty := own } parent (weigh env own children)
            (weigh env base siblings) := by
        rw [sum]
        rfl
      -- the node itself
      have written : nodes.write id cell id = some cell := Heap.write_same
      have tracksWritten : Tracks (nodes.write id cell) best := by
        intro leader isBest
        obtain ⟨member, live, weight⟩ := tracks leader isBest
        have other : leader.1 ≠ id := fun same => outside leader isBest (same ▸ List.mem_cons_self)
        exact ⟨member, (Heap.write_of_ne other).trans live, weight⟩
      obtain ⟨offers, offered⟩ := offerLongest_eq tracksWritten written
        (congrArg (·.val.cumulativeDifficulty) cellEq)
      have offeredOrigin : ∀ leader, best.map (outweigh · (id, own)) = some (some leader) →
          leader.1 ∉ children.ids ∧ leader.1 ∉ siblings.ids := by
        intro leader isBest
        cases best with
        | none => cases isBest
        | some old =>
            rcases outweigh_origin (Option.some.inj isBest) with rfl | rfl
            · have off := outside leader rfl
              rw [Forest.ids_node, List.mem_cons, List.mem_append, not_or, not_or] at off
              exact off.2
            · exact ⟨notBelow, notBeside⟩
      -- the children
      obtain ⟨second, tree, -, heldBelow, frameBelow⟩ := childrenRun own (below.write notBelow)
        distinctBelow headedBelow offered fun leader isBest => (offeredOrigin leader isBest).1
      have still : second id = some cell := (frameBelow id notBelow).trans written
      have besideHeld : siblings.Holds second := by
        refine beside.congr fun p inside => ?_
        have notChild : p ∉ children.ids := fun child => apart p child p inside rfl
        have other : p ≠ id := fun same => notBeside (same ▸ inside)
        exact (frameBelow p notChild).trans (Heap.write_of_ne other)
      have afterBelow : Tracks second ((best.map (outweigh · (id, own))).map
          (elect · (weights (weigh env own children)))) := by
        refine offered.elect heldBelow (fun leader isBest => ?_) fun p off => ?_
        · rw [weigh_ids]
          exact (offeredOrigin leader isBest).1
        · rw [weigh_ids] at off
          exact frameBelow p off
      -- the siblings
      have belowOrigin : ∀ leader, (best.map (outweigh · (id, own))).map
          (elect · (weights (weigh env own children))) = some (some leader) →
          leader.1 ∉ siblings.ids := by
        intro leader isBest sibling
        rcases elect_origin isBest with old | child
        · exact (offeredOrigin leader old).2 sibling
        · rw [weigh_ids] at child
          exact apart leader.1 child leader.1 sibling rfl
      obtain ⟨third, -, loop, heldBeside, frameBeside⟩ := siblingsRun base besideHeld
        distinctBeside headedBeside afterBelow belowOrigin
      have afterBeside : Tracks third (((best.map (outweigh · (id, own))).map
          (elect · (weights (weigh env own children)))).map
            (elect · (weights (weigh env base siblings)))) := by
        refine afterBelow.elect heldBeside (fun leader isBest => ?_) fun p off => ?_
        · rw [weigh_ids]
          exact belowOrigin leader isBest
        · rw [weigh_ids] at off
          exact frameBeside p off
      have best_eq : ((best.map (outweigh · (id, own))).map
          (elect · (weights (weigh env own children)))).map
            (elect · (weights (weigh env base siblings))) =
          best.map (elect · (weights (.node id { val with cumulativeDifficulty := own } parent
            (weigh env own children) (weigh env base siblings)))) := by
        cases best with
        | none => rfl
        | some old =>
            simp only [Option.map_some, weights_node, elect_cons, elect_append]
      rw [weighed, ← best_eq]
      have live : third id = some cell := (frameBeside id notBeside).trans still
      have update := blockInfoUpdate_node here computes sum (cellEq ▸ offers) (cellEq ▸ tree) still
        (by rw [cellEq]; exact loop)
      have settled := update_settled heldBeside (weigh_weigh base siblings)
        (headedBeside.weigh base) afterBeside (leads_of_elect fun _ member => member)
      rw [weigh_first] at settled
      refine ⟨third, update, ?_, ⟨?_, ?_, heldBeside⟩, fun p off => ?_⟩
      · apply updateSiblings_node update live
        rw [cellEq]
        exact settled.2
      · rw [live, cellEq, weigh_first, weigh_first]
      · refine heldBelow.congr fun p inside => ?_
        rw [weigh_ids] at inside
        exact frameBeside p fun sibling => apart p inside p sibling rfl
      · rw [Forest.ids_node, List.mem_cons, List.mem_append, not_or, not_or] at off
        obtain ⟨other, notChild, notSibling⟩ := off
        rw [frameBeside p notSibling, frameBelow p notChild, Heap.write_of_ne other]

/-! ## Families -/

/-- The heir is the former one, where no entry is heavier, or else the first entry of maximal
weight. -/
def Chosen (former : Option (Ptr × ℚ)) (entries : List (Ptr × ℚ)) (heir : Ptr) : Prop :=
  (∃ weight, former = some (heir, weight) ∧ ∀ entry ∈ entries, entry.2 ≤ weight) ∨
    ∃ front weight back, entries = front ++ (heir, weight) :: back ∧
      (∀ entry ∈ front, entry.2 < weight) ∧ (∀ entry ∈ back, entry.2 ≤ weight) ∧
      ∀ old, former = some old → old.2 < weight

/-- A leader for what `p_longest_offspring` points to. -/
theorem exists_leader {nodes : Heap (BlockInfo Hash)} {longest : Option (Option Ptr)}
    (live : ∀ heir, longest = some (some heir) → ∃ member, nodes heir = some member) :
    ∃ best, longest = offspringPointer best ∧ Tracks nodes best := by
  cases longest with
  | none => exact ⟨none, rfl, fun leader same => nomatch same⟩
  | some old =>
      cases old with
      | none => exact ⟨some none, rfl, fun leader same => nomatch same⟩
      | some heir =>
          obtain ⟨member, heirLive⟩ := live heir rfl
          refine ⟨some (some (heir, member.val.cumulativeDifficulty)), rfl, fun leader same => ?_⟩
          cases same
          exact ⟨member, heirLive, rfl⟩

/-- On a node in memory, with the siblings behind it and all their descendants, the function
returns: the difficulties are added up from the base on, nothing else changes, and the heir, if
one is asked for, is the first node of maximal weight or the old heir where no node is
heavier. -/
theorem blockInfoUpdateCumulativeDifficulty_family {nodes : Heap (BlockInfo Hash)} {v : Ptr}
    {val : BlockInfo Hash} {parent : Option Ptr} {children siblings : Forest (BlockInfo Hash)}
    (base : ℚ) {longest : Option (Option Ptr)}
    (held : (Forest.node v val parent children siblings).Holds nodes)
    (distinct : (Forest.node v val parent children siblings).ids.Nodup)
    (headed : Headed (.node v val parent children siblings))
    (outside : ∀ heir, longest = some (some heir) →
      heir ∉ (Forest.node v val parent children siblings).ids ∧
        ∃ member, nodes heir = some member) :
    ∃ after heirs, Exec.Converges (fun fuel =>
        blockInfoUpdateCumulativeDifficulty env fuel nodes (some v) base longest) (after, heirs) ∧
      (weigh env base (.node v val parent children siblings)).Holds after ∧
      (∀ p, p ∉ (Forest.node v val parent children siblings).ids → after p = nodes p) ∧
      (longest = none → heirs = none) ∧
      ∀ old, longest = some old → ∃ heir former, heirs = some (some heir) ∧
        former.map Prod.fst = old ∧
        (∀ entry, former = some entry → ∃ member, nodes entry.1 = some member ∧
          member.val.cumulativeDifficulty = entry.2) ∧
        Chosen former (weights (weigh env base (.node v val parent children siblings))) heir := by
  obtain ⟨best, rfl, tracks⟩ := exists_leader fun heir isHeir => (outside heir isHeir).2
  have apart : ∀ leader, best = some (some leader) →
      leader.1 ∉ (Forest.node v val parent children siblings).ids := by
    intro leader isBest
    exact (outside leader.1 (by rw [isBest]; rfl)).1
  obtain ⟨after, runs, -, weighed, frame⟩ := update_weighs base held distinct headed tracks apart
  refine ⟨after, _, runs, weighed, frame, fun isNull => ?_, fun old asked => ?_⟩
  · cases best with
    | none => rfl
    | some former => cases isNull
  · cases best with
    | none => cases asked
    | some former =>
        cases elected : elect former
            (weights (weigh env base (.node v val parent children siblings))) with
        | none =>
            have nonempty :
                weights (weigh env base (.node v val parent children siblings)) ≠ [] := by
              rw [weigh, weights_node]
              exact List.cons_ne_nil _ _
            exact absurd elected (elect_ne_none (.inr nonempty))
        | some leader =>
            refine ⟨leader.1, former, ?_, Option.some.inj asked, fun entry isFormer => ?_, ?_⟩
            · show some ((elect former _).map Prod.fst) = _
              rw [elected]
              rfl
            · exact tracks entry (by rw [isFormer])
            · rcases elect_first elected with ⟨same, lighter⟩ | first
              · exact .inl ⟨leader.2, same, lighter⟩
              · obtain ⟨front, back, split, less, rest, heavier⟩ := first
                exact .inr ⟨front, leader.2, back, split, less, rest, heavier⟩

/-- A header with the bits `bits`. -/
def plainHdr (bits : UInt32) : SatoshiBlockHeader Nat := ⟨1, 0, 0, 0, bits, 0⟩

/-- The difficulty of a compact target is its value. -/
def plainEnv : ChainEnv Nat := ⟨0, fun _ => 0, fun bits => bits.toNat, 0, plainHdr 1⟩

/-- A node of difficulty 2 and a sibling of difficulty 3 behind it. -/
def plainNodes : Heap (BlockInfo Nat) := fun p =>
  if p = 1 then some ⟨⟨10, some (plainHdr 2), 0⟩, none, none, some 2⟩
  else if p = 2 then some ⟨⟨20, some (plainHdr 3), 0⟩, none, none, none⟩ else none

/-- The sibling is weighed from the same base. -/
theorem blockInfoUpdateCumulativeDifficulty_pair : ∃ after heirs,
    Exec.Converges (fun fuel => blockInfoUpdateCumulativeDifficulty plainEnv fuel plainNodes
      (some 1) 5 (some none)) (after, heirs) ∧
    ∃ sibling, after 2 = some sibling ∧ sibling.val.cumulativeDifficulty = 5 + 3 := by
  have held : (Forest.node 1 (⟨10, some (plainHdr 2), 0⟩ : BlockInfo Nat) none .nil
      (.node 2 ⟨20, some (plainHdr 3), 0⟩ none .nil .nil)).Holds plainNodes :=
    ⟨rfl, trivial, rfl, trivial, trivial⟩
  have headed : Headed (.node 1 (⟨10, some (plainHdr 2), 0⟩ : BlockInfo Nat) none .nil
      (.node 2 ⟨20, some (plainHdr 3), 0⟩ none .nil .nil)) := by
    intro member inside
    rcases List.mem_cons.1 inside with rfl | later
    · exact Option.some_ne_none _
    · rw [List.mem_singleton.1 later]
      exact Option.some_ne_none _
  have outside : ∀ heir, (some none : Option (Option Ptr)) = some (some heir) →
      heir ∉ (Forest.node 1 (⟨10, some (plainHdr 2), 0⟩ : BlockInfo Nat) none .nil
        (.node 2 ⟨20, some (plainHdr 3), 0⟩ none .nil .nil)).ids ∧
        ∃ member, plainNodes heir = some member := fun heir isHeir => nomatch isHeir
  obtain ⟨after, heirs, runs, weighed, -⟩ :=
    blockInfoUpdateCumulativeDifficulty_family 5 held (by decide) headed outside
  exact ⟨after, heirs, runs, _, weighed.2.2.1, rfl⟩

end BitcoinClib.Chains
