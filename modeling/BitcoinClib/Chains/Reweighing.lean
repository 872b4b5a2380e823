import BitcoinClib.Chains.Links
import BitcoinClib.Lib.Spanning

/-!
Contract: candidate nodes that are weighed anew.

Owns:
- `Reweighed`, the same nodes with other cumulative difficulties;
- `Weighed` and `blockInfoUpdate_weighed`, the tree that
  `block_info_update_cumulative_difficulty` visits and what it writes;
- `WeighedPath` and `updateFirstChild_weighed`, the same for
  `update_first_child_cumulative_difficulty`.

Does not own: which node is weighed from where. All rules speak about operations that returned.
-/

namespace BitcoinClib.Chains

open BitcoinClib.Lib

variable {Hash : Type}

/-! ## Trees -/

/-- The same nodes with other cumulative difficulties. -/
def Reweighed (before after : Heap (BlockInfo Hash)) : Prop :=
  ∀ p, Option.Rel (fun old new => ∃ cumulativeDifficulty,
    new = { old with val := { old.val with cumulativeDifficulty } }) (before p) (after p)

namespace Reweighed

variable {before middle after nodes : Heap (BlockInfo Hash)} {p : Ptr}
  {old new : Member (BlockInfo Hash)}

theorem refl (nodes : Heap (BlockInfo Hash)) : Reweighed nodes nodes := by
  intro p
  cases nodes p with
  | none => exact .none
  | some member => exact .some ⟨_, rfl⟩

theorem trans (left : Reweighed before middle) (right : Reweighed middle after) :
    Reweighed before after := by
  intro p
  have first := left p
  have second := right p
  generalize before p = start, middle p = shared, after p = last at first second
  cases first with
  | none =>
      cases second with
      | none => exact .none
  | some same =>
      cases second with
      | some next =>
          obtain ⟨_, rfl⟩ := same
          obtain ⟨weight, rfl⟩ := next
          exact .some ⟨weight, rfl⟩

theorem write (live : nodes p = some old) (cumulativeDifficulty : ℚ) :
    Reweighed nodes
      (nodes.write p { old with val := { old.val with cumulativeDifficulty } }) := by
  intro q
  by_cases here : q = p
  · rw [here, Heap.write_same, live]
    exact .some ⟨_, rfl⟩
  · rw [Heap.write_of_ne here]
    exact refl nodes q

theorem live (reweighed : Reweighed before after) (lives : before p = some old) :
    ∃ cumulativeDifficulty,
      after p = some { old with val := { old.val with cumulativeDifficulty } } := by
  have same := reweighed p
  rw [lives] at same
  generalize after p = now at same
  cases same with
  | some same =>
      obtain ⟨weight, rfl⟩ := same
      exact ⟨weight, rfl⟩

theorem origin (reweighed : Reweighed before after) (lives : after p = some new) :
    ∃ old cumulativeDifficulty, before p = some old ∧
      new = { old with val := { old.val with cumulativeDifficulty } } := by
  have same := reweighed p
  rw [lives] at same
  generalize before p = earlier at same
  cases same with
  | some same =>
      obtain ⟨weight, rfl⟩ := same
      exact ⟨_, weight, rfl, rfl⟩

theorem target (reweighed : Reweighed before after) (slot : Slot) :
    after.target slot = before.target slot := by
  cases slot with
  | child owner =>
      change (after owner).bind Member.firstChild = (before owner).bind Member.firstChild
      have same := reweighed owner
      generalize before owner = start, after owner = last at same ⊢
      cases same with
      | none => rfl
      | some same =>
          obtain ⟨weight, rfl⟩ := same
          rfl
  | sibling owner =>
      change (after owner).bind Member.nextSibling = (before owner).bind Member.nextSibling
      have same := reweighed owner
      generalize before owner = start, after owner = last at same ⊢
      cases same with
      | none => rfl
      | some same =>
          obtain ⟨weight, rfl⟩ := same
          rfl

theorem spans {start : Option Ptr} {ids : List Ptr} (reweighed : Reweighed before after)
    (spans : Spans after start ids) : Spans before start ids := by
  refine spans.congr fun p _ new lives => ?_
  obtain ⟨old, weight, oldLive, rfl⟩ := reweighed.origin lives
  exact ⟨old, oldLive, rfl, rfl⟩

theorem spans_after {start : Option Ptr} {ids : List Ptr} (reweighed : Reweighed before after)
    (spans : Spans before start ids) : Spans after start ids := by
  refine spans.congr fun p _ old lives => ?_
  obtain ⟨weight, newLive⟩ := reweighed.live lives
  exact ⟨_, newLive, rfl, rfl⟩
end Reweighed

/-- Every node weighs its own difficulty more than the one above it; the first ones hang
below a weight of `base`. -/
inductive Weighed (env : ChainEnv Hash) (nodes : Heap (BlockInfo Hash)) :
    ℚ → Option Ptr → Prop
  | nil (base : ℚ) : Weighed env nodes base none
  | node {base : ℚ} {p : Ptr} {member : Member (BlockInfo Hash)}
      {hdr : SatoshiBlockHeader Hash} (live : nodes p = some member)
      (header : member.val.hdr = some hdr)
      (own : member.val.cumulativeDifficulty = base + env.compactUint256ToBdiff hdr.bits)
      (children : Weighed env nodes member.val.cumulativeDifficulty member.firstChild)
      (siblings : Weighed env nodes base member.nextSibling) : Weighed env nodes base (some p)

namespace Weighed

variable {env : ChainEnv Hash} {nodes after : Heap (BlockInfo Hash)} {base other : ℚ}
  {start : Option Ptr} {ids : List Ptr} {p : Ptr}

/-- The weights depend on the nodes of the tree only. -/
theorem congr (weighed : Weighed env nodes base start) (spans : Spans nodes start ids)
    (same : ∀ p ∈ ids, after p = nodes p) : Weighed env after base start := by
  induction weighed generalizing ids with
  | nil base => exact .nil base
  | node live header own _ _ childrenWeighed siblingsWeighed =>
      cases spans with
      | node again below beside =>
          rw [live] at again
          cases again
          refine .node ((same _ List.mem_cons_self).trans live) header own ?_ ?_
          · exact childrenWeighed below fun p inside =>
              same p (List.mem_cons_of_mem _ (List.mem_append_left _ inside))
          · exact siblingsWeighed beside fun p inside =>
              same p (List.mem_cons_of_mem _ (List.mem_append_right _ inside))

end Weighed

/-- The tree that `block_info_update_cumulative_difficulty` visits is weighed anew. -/
structure UpdatedTree (env : ChainEnv Hash) (before after : Heap (BlockInfo Hash)) (base : ℚ)
    (start : Option Ptr) (ids : List Ptr) : Prop where
  spans : Spans before start ids
  reweighed : Reweighed before after
  off : ∀ p, p ∉ ids → after p = before p
  heads : ∀ p member, before p = some member → member.val.hdr = none → after p = some member
  weighed : ids.Nodup → Weighed env after base start

variable {fuel : Nat} {env : ChainEnv Hash} {nodes after : Heap (BlockInfo Hash)}

theorem headerDifficulty_eq_ok {info : BlockInfo Hash} {difficulty : ℚ} :
    headerDifficulty env info = .ok difficulty ↔
      ∃ hdr, info.hdr = some hdr ∧ difficulty = env.compactUint256ToBdiff hdr.bits := by
  rw [headerDifficulty, Exec.bind_eq_ok]
  constructor
  · intro reads
    obtain ⟨hdr, header, same⟩ := reads
    cases same
    exact ⟨hdr, Exec.deref_eq_ok.1 header, rfl⟩
  · intro reads
    obtain ⟨hdr, header, rfl⟩ := reads
    exact ⟨hdr, Exec.deref_eq_ok.2 header, rfl⟩

/-- The recursion over a tree and the loop over its siblings, which visits them again. -/
theorem blockInfoUpdate_weighed :
    (∀ {nodes : Heap (BlockInfo Hash)} {start : Option Ptr} {base : ℚ}
        {longest : Option (Option Ptr)} {result},
      blockInfoUpdateCumulativeDifficulty env fuel nodes start base longest = .ok result →
        ∃ ids, UpdatedTree env nodes result.1 base start ids) ∧
      ∀ {nodes : Heap (BlockInfo Hash)} {start : Option Ptr} {base : ℚ}
        {longest : Option (Option Ptr)} {result},
      updateSiblings env fuel nodes start base longest = .ok result →
        ∃ ids, UpdatedTree env nodes result.1 base start ids := by
  have empty : ∀ (nodes : Heap (BlockInfo Hash)) (base : ℚ),
      UpdatedTree env nodes nodes base none [] := fun nodes base =>
    ⟨.nil, .refl nodes, fun _ _ => rfl, fun _ _ live _ => live, fun _ => .nil base⟩
  induction fuel with
  | zero =>
      constructor
      · intro nodes start base longest result returns
        cases start <;> cases returns
      · intro nodes start base longest result returns
        cases start <;> cases returns
  | succ fuel inductionHypothesis =>
      obtain ⟨tree, siblings⟩ := inductionHypothesis
      constructor
      · intro nodes start base longest result returns
        cases start with
        | none =>
            cases returns
            exact ⟨[], empty nodes base⟩
        | some node =>
            rw [blockInfoUpdateCumulativeDifficulty, Exec.bind_eq_ok] at returns
            obtain ⟨cell, reads, returns⟩ := returns
            rw [Exec.bind_eq_ok] at returns
            obtain ⟨difficulty, computes, returns⟩ := returns
            simp only [Exec.bind_eq_ok] at returns
            obtain ⟨offered, -, ⟨middle, best⟩, children, next, readsNext, rest⟩ := returns
            obtain ⟨hdr, header, rfl⟩ := headerDifficulty_eq_ok.1 computes
            have live := Heap.read_eq_ok.1 reads
            have nextLive := Heap.read_eq_ok.1 readsNext
            have written := Reweighed.write live
              (base + env.compactUint256ToBdiff hdr.bits)
            obtain ⟨below, belowUpdated⟩ := tree children
            obtain ⟨beside, besideUpdated⟩ := siblings rest
            have untilNext := written.trans belowUpdated.reweighed
            obtain ⟨weight, stillLive⟩ := untilNext.live live
            rw [nextLive] at stillLive
            cases stillLive
            have belowSpans := written.spans belowUpdated.spans
            have besideSpans := untilNext.spans besideUpdated.spans
            refine ⟨node :: (below ++ beside), .node live belowSpans besideSpans,
              untilNext.trans besideUpdated.reweighed, fun p outside => ?_,
              fun p member memberLive isHead => ?_, fun distinct => ?_⟩
            · simp only [List.mem_cons, List.mem_append, not_or] at outside
              obtain ⟨other, offBelow, offBeside⟩ := outside
              rw [besideUpdated.off p offBeside, belowUpdated.off p offBelow,
                Heap.write_of_ne other]
            · have other : p ≠ node := by
                rintro rfl
                rw [live] at memberLive
                cases memberLive
                rw [isHead] at header
                cases header
              exact besideUpdated.heads p member (belowUpdated.heads p member
                ((Heap.write_of_ne other).trans memberLive) isHead) isHead
            · rw [List.nodup_cons, List.mem_append, not_or, List.nodup_append] at distinct
              obtain ⟨⟨offBelow, offBeside⟩, belowDistinct, besideDistinct, apart⟩ := distinct
              have final : result.1 node = some { cell with
                  val := { cell.val with
                    cumulativeDifficulty := base + env.compactUint256ToBdiff hdr.bits } } := by
                rw [besideUpdated.off node offBeside, belowUpdated.off node offBelow,
                  Heap.write_same]
              refine .node final header rfl ?_ (besideUpdated.weighed besideDistinct)
              refine (belowUpdated.weighed belowDistinct).congr
                (belowUpdated.reweighed.spans_after belowUpdated.spans) fun p inside => ?_
              exact besideUpdated.off p fun also => apart p inside p also rfl
      · intro nodes start base longest result returns
        cases start with
        | none =>
            cases returns
            exact ⟨[], empty nodes base⟩
        | some sibling =>
            simp only [updateSiblings, Exec.bind_eq_ok] at returns
            obtain ⟨⟨middle, best⟩, first, cell, reads, rest⟩ := returns
            obtain ⟨ids, updated⟩ := tree first
            obtain ⟨again, restUpdated⟩ := siblings rest
            have live := Heap.read_eq_ok.1 reads
            have middleSpans := updated.reweighed.spans_after updated.spans
            cases middleSpans with
            | @node _ _ below beside cellLive children others =>
                rw [live] at cellLive
                cases cellLive
                have sameIds := restUpdated.spans.unique others
                subst sameIds
                refine ⟨sibling :: (below ++ again), updated.spans,
                  updated.reweighed.trans restUpdated.reweighed, fun p outside => ?_,
                  fun p member memberLive isHead => ?_, fun distinct => ?_⟩
                · have offAgain : p ∉ again := fun inside =>
                    outside (List.mem_cons_of_mem _ (List.mem_append_right _ inside))
                  rw [restUpdated.off p offAgain, updated.off p outside]
                · exact restUpdated.heads p member (updated.heads p member memberLive isHead) isHead
                · have weighed := updated.weighed distinct
                  rw [List.nodup_cons, List.mem_append, not_or, List.nodup_append] at distinct
                  obtain ⟨⟨-, offAgain⟩, -, againDistinct, apart⟩ := distinct
                  cases weighed with
                  | node cellLive header own childrenWeighed _ =>
                      rw [live] at cellLive
                      cases cellLive
                      refine .node ((restUpdated.off sibling offAgain).trans live) header own
                        (childrenWeighed.congr children fun p inside => ?_)
                        (restUpdated.weighed againDistinct)
                      exact restUpdated.off p fun also => apart p inside p also rfl

/-! ## Paths that are weighed anew -/

/-- Along first children every node weighs its own difficulty more than the one before it. -/
inductive WeighedPath (env : ChainEnv Hash) (nodes : Heap (BlockInfo Hash)) :
    ℚ → Option Ptr → Prop
  | nil (base : ℚ) : WeighedPath env nodes base none
  | node {base : ℚ} {p : Ptr} {member : Member (BlockInfo Hash)}
      {hdr : SatoshiBlockHeader Hash} (live : nodes p = some member)
      (header : member.val.hdr = some hdr)
      (own : member.val.cumulativeDifficulty = base + env.compactUint256ToBdiff hdr.bits)
      (rest : WeighedPath env nodes member.val.cumulativeDifficulty member.firstChild) :
      WeighedPath env nodes base (some p)

theorem WeighedPath.congr {base : ℚ} {start : Option Ptr} {path : List Ptr}
    {other : Heap (BlockInfo Hash)} (weighed : WeighedPath env nodes base start)
    (onPath : FirstChildPath nodes start path) (same : ∀ p ∈ path, other p = nodes p) :
    WeighedPath env other base start := by
  induction weighed generalizing path with
  | nil base => exact .nil base
  | node live header own _ restWeighed =>
      cases onPath with
      | cons again below =>
          rw [live] at again
          cases again
          refine .node ((same _ List.mem_cons_self).trans live) header own ?_
          exact restWeighed below fun p inside => same p (List.mem_cons_of_mem _ inside)

/-- The path that `update_first_child_cumulative_difficulty` visits is weighed anew. -/
structure UpdatedPath (env : ChainEnv Hash) (before after : Heap (BlockInfo Hash)) (base : ℚ)
    (start : Option Ptr) (path : List Ptr) : Prop where
  onPath : FirstChildPath before start path
  reweighed : Reweighed before after
  off : ∀ p, p ∉ path → after p = before p
  heads : ∀ p member, before p = some member → member.val.hdr = none → after p = some member
  weighed : WeighedPath env after base start

theorem Reweighed.firstChildPath {before : Heap (BlockInfo Hash)} {start : Option Ptr}
    {path : List Ptr} (reweighed : Reweighed before after)
    (onPath : FirstChildPath before start path) : FirstChildPath after start path := by
  refine onPath.congr fun p _ old lives => ?_
  obtain ⟨weight, newLive⟩ := reweighed.live lives
  exact ⟨_, newLive, rfl⟩

theorem Reweighed.firstChildPath_before {before : Heap (BlockInfo Hash)} {start : Option Ptr}
    {path : List Ptr} (reweighed : Reweighed before after)
    (onPath : FirstChildPath after start path) : FirstChildPath before start path := by
  refine onPath.congr fun p _ new lives => ?_
  obtain ⟨old, weight, oldLive, rfl⟩ := reweighed.origin lives
  exact ⟨old, oldLive, rfl⟩

theorem updateFirstChild_weighed {start : Option Ptr} {base : ℚ}
    (returns : updateFirstChildCumulativeDifficulty env fuel nodes start base = .ok after) :
    ∃ path, UpdatedPath env nodes after base start path := by
  induction fuel generalizing nodes start base with
  | zero => cases returns
  | succ fuel inductionHypothesis =>
      cases start with
      | none =>
          cases returns
          exact ⟨[], .nil, .refl _, fun _ _ => rfl, fun _ _ live _ => live, .nil base⟩
      | some child =>
          simp only [updateFirstChildCumulativeDifficulty, Exec.bind_eq_ok] at returns
          obtain ⟨node, reads, difficulty, computes, rest⟩ := returns
          obtain ⟨hdr, header, rfl⟩ := headerDifficulty_eq_ok.1 computes
          have live := Heap.read_eq_ok.1 reads
          have written := Reweighed.write live (base + env.compactUint256ToBdiff hdr.bits)
          obtain ⟨path, updated⟩ := inductionHypothesis rest
          have below := written.firstChildPath_before updated.onPath
          have offPath : child ∉ path := below.not_mem_of_above live rfl
          refine ⟨child :: path, .cons live below, written.trans updated.reweighed,
            fun p outside => ?_, fun p member memberLive isHead => ?_, ?_⟩
          · rw [List.mem_cons, not_or] at outside
            rw [updated.off p outside.2, Heap.write_of_ne outside.1]
          · have other : p ≠ child := by
              rintro rfl
              rw [live] at memberLive
              cases memberLive
              rw [isHead] at header
              cases header
            exact updated.heads p member ((Heap.write_of_ne other).trans memberLive) isHead
          · refine .node ((updated.off child offPath).trans Heap.write_same) header rfl ?_
            exact updated.weighed

namespace UpdatedPath

variable {before : Heap (BlockInfo Hash)} {base : ℚ} {start : Option Ptr} {path : List Ptr}
  {p q : Ptr}

/-- The first child of a node of the path is on it. -/
theorem closed {member : Member (BlockInfo Hash)} (onPath : FirstChildPath before start path)
    (inside : p ∈ path) (live : before p = some member) (child : member.firstChild = some q) :
    q ∈ path := by
  induction onPath with
  | nil => cases inside
  | @cons head cell path headLive below inductionHypothesis =>
      rcases List.mem_cons.1 inside with rfl | later
      · rw [headLive] at live
        cases live
        rw [child] at below
        cases below with
        | cons _ _ => exact List.mem_cons_of_mem _ List.mem_cons_self
      · exact List.mem_cons_of_mem _ (inductionHypothesis later)

/-- A node of the path is the first, or the first child of another. -/
theorem entry (onPath : FirstChildPath before start path) (inside : q ∈ path) :
    start = some q ∨ ∃ p ∈ path, before.target (.child p) = some q := by
  induction onPath with
  | nil => cases inside
  | @cons head member path live below inductionHypothesis =>
      rcases List.mem_cons.1 inside with rfl | later
      · exact .inl rfl
      · right
        rcases inductionHypothesis later with first | ⟨p, member, points⟩
        · exact ⟨head, List.mem_cons_self, (Heap.target_child live).trans first⟩
        · exact ⟨p, List.mem_cons_of_mem _ member, points⟩

end UpdatedPath

end BitcoinClib.Chains
