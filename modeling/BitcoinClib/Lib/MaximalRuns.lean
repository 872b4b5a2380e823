import Mathlib.Data.List.Basic
import Mathlib.Data.List.TakeWhile

/-!
Contract: the maximal runs of present elements in a list.

Owns:
- `segments`, the leading present elements and the later runs, each with the absent element
  in front of it;
- `IsRun`, the runs without the recursion, and `mem_segments`;
- `segments_insert`, what becomes of the segments when one element arrives.

Does not own: what makes an element present.
-/

namespace BitcoinClib.Lib.MaximalRuns

variable {α γ : Type}

/-- A run behind the absent element `gap`, if it has an element. -/
def behind (gap : γ) : List α → List (γ × List α) → List (γ × List α)
  | [], runs => runs
  | first :: rest, runs => (gap, first :: rest) :: runs

/-- The elements of the runs, with the absent ones in front of them. -/
def spread (runs : List (α × List α)) : List α := runs.flatMap fun run => run.1 :: run.2

theorem spread_append (front runs : List (α × List α)) :
    spread (front ++ runs) = spread front ++ spread runs := List.flatMap_append

theorem map_behind {δ : Type} (f : γ → δ) (gap : γ) (run : List α) (runs : List (γ × List α)) :
    (behind gap run runs).map (Prod.map f id) =
      behind (f gap) run (runs.map (Prod.map f id)) := by
  cases run with
  | nil => rfl
  | cons => rfl

/-- The order of runs, up to a permutation. -/
theorem behind_perm (gap other : γ) (run another : List α) (front runs : List (γ × List α)) :
    (front ++ behind gap run (behind other another runs)).Perm
      (behind other another (behind gap run (front ++ runs))) := by
  cases run with
  | nil =>
      cases another with
      | nil => exact List.Perm.refl _
      | cons => exact List.perm_middle
  | cons =>
      cases another with
      | nil => exact List.perm_middle
      | cons =>
          refine List.perm_middle.trans ((List.perm_middle.cons _).trans ?_)
          exact List.Perm.swap _ _ _

theorem spread_behind (gap : α) (run : List α) (runs : List (α × List α)) :
    (spread (behind gap run runs)).Sublist (gap :: run ++ spread runs) := by
  cases run with
  | nil => exact List.sublist_cons_self _ _
  | cons first rest => exact List.Sublist.refl _

section Segments

variable (present : α → Prop) [DecidablePred present]

/-- The leading present elements, and the runs behind absent elements. -/
def segments : List α → List α × List (α × List α)
  | [] => ([], [])
  | element :: rest =>
      if present element then (element :: (segments rest).1, (segments rest).2)
      else ([], behind element (segments rest).1 (segments rest).2)

variable {present}

theorem segments_cons_of {element : α} {rest : List α} (isPresent : present element) :
    segments present (element :: rest) =
      (element :: (segments present rest).1, (segments present rest).2) := if_pos isPresent

theorem segments_cons_of_not {element : α} {rest : List α} (absent : ¬ present element) :
    segments present (element :: rest) =
      ([], behind element (segments present rest).1 (segments present rest).2) := if_neg absent

variable (present)

theorem segments_leading (elements : List α) :
    (segments present elements).1 = elements.takeWhile fun element => present element := by
  induction elements with
  | nil => rfl
  | cons element rest inductionHypothesis =>
      by_cases isPresent : present element
      · rw [segments_cons_of isPresent, List.takeWhile_cons_of_pos (by simpa using isPresent),
          inductionHypothesis]
      · rw [segments_cons_of_not isPresent, List.takeWhile_cons_of_neg (by simpa using isPresent)]

/-- The segments are parts of the list, in its order. -/
theorem segments_sublist (elements : List α) :
    ((segments present elements).1 ++ spread (segments present elements).2).Sublist elements := by
  induction elements with
  | nil => exact List.Sublist.refl _
  | cons element rest inductionHypothesis =>
      by_cases isPresent : present element
      · rw [segments_cons_of isPresent]
        exact inductionHypothesis.cons_cons element
      · rw [segments_cons_of_not isPresent]
        apply (spread_behind element _ _).trans
        exact inductionHypothesis.cons_cons element

/-- `run` is a run of present elements between the absent element `gap` and another absent one, or
the end of the list. -/
def IsRun (elements : List α) (gap : α) (run : List α) : Prop :=
  run ≠ [] ∧ ¬ present gap ∧ (∀ element ∈ run, present element) ∧
    ∃ before after, elements = before ++ gap :: (run ++ after) ∧
      ∀ element ∈ after.head?, ¬ present element

variable {present}

theorem segments_of_present {leading rest : List α}
    (arePresent : ∀ element ∈ leading, present element) :
    segments present (leading ++ rest) =
      (leading ++ (segments present rest).1, (segments present rest).2) := by
  induction leading with
  | nil => rfl
  | cons element leading inductionHypothesis =>
      rw [List.cons_append, segments_cons_of (arePresent element List.mem_cons_self),
        inductionHypothesis fun other inside => arePresent other (List.mem_cons_of_mem _ inside)]
      rfl

theorem segments_of_all {elements : List α} (arePresent : ∀ element ∈ elements, present element) :
    segments present elements = (elements, []) := by
  have whole : segments present (elements ++ []) = (elements ++ [], []) :=
    segments_of_present arePresent
  rwa [List.append_nil] at whole

theorem segments_of_absent {elements : List α} (areAbsent : ∀ element ∈ elements, ¬ present element) :
    segments present elements = ([], []) := by
  induction elements with
  | nil => rfl
  | cons element rest inductionHypothesis =>
      rw [segments_cons_of_not (areAbsent element List.mem_cons_self),
        inductionHypothesis fun other inside => areAbsent other (List.mem_cons_of_mem _ inside)]
      rfl

theorem behind_append (gap : α) (run : List α) (front runs : List (α × List α)) :
    behind gap run (front ++ runs) = behind gap run front ++ runs := by
  cases run with
  | nil => rfl
  | cons => rfl

/-- Behind an absent element the segments start anew. -/
theorem segments_append_cons {gap : α} (absent : ¬ present gap) (before rest : List α) :
    segments present (before ++ gap :: rest) =
      ((segments present (before ++ [gap])).1,
        (segments present (before ++ [gap])).2 ++ (segments present (gap :: rest)).2) := by
  induction before with
  | nil =>
      rw [List.nil_append, List.nil_append, segments_cons_of_not absent,
        segments_cons_of_not absent]
      rfl
  | cons element before inductionHypothesis =>
      rw [List.cons_append, List.cons_append]
      by_cases isPresent : present element
      · rw [segments_cons_of isPresent, segments_cons_of isPresent, inductionHypothesis]
      · rw [segments_cons_of_not isPresent, segments_cons_of_not isPresent, inductionHypothesis,
          behind_append]

/-- Every element is present, or there is a last absent one. -/
theorem all_or_last_absent (present : α → Prop) [DecidablePred present] (elements : List α) :
    (∀ element ∈ elements, present element) ∨
      ∃ before gap middle, elements = before ++ gap :: middle ∧ ¬ present gap ∧
        ∀ element ∈ middle, present element := by
  induction elements with
  | nil => exact .inl fun _ impossible => absurd impossible List.not_mem_nil
  | cons element rest inductionHypothesis =>
      rcases inductionHypothesis with arePresent | ⟨before, gap, middle, rfl, absent, inMiddle⟩
      · by_cases isPresent : present element
        · exact .inl (List.forall_mem_cons.2 ⟨isPresent, arePresent⟩)
        · exact .inr ⟨[], element, rest, rfl, isPresent, arePresent⟩
      · exact .inr ⟨element :: before, gap, middle, rfl, absent, inMiddle⟩

theorem leading_of_head_absent {after : List α} (stops : ∀ element ∈ after.head?, ¬ present element) :
    (segments present after).1 = [] := by
  cases after with
  | nil => rfl
  | cons element rest => rw [segments_cons_of_not (stops element rfl)]

/-- The recursion finds the runs behind absent elements and no others. -/
theorem mem_segments {elements : List α} {gap : α} {run : List α} :
    (gap, run) ∈ (segments present elements).2 ↔ IsRun present elements gap run := by
  constructor
  · intro inside
    induction elements with
    | nil => cases inside
    | cons element rest inductionHypothesis =>
        have later : (gap, run) ∈ (segments present rest).2 →
            IsRun present (element :: rest) gap run := by
          intro inRest
          obtain ⟨notEmpty, absent, arePresent, before, after, rfl, stops⟩ :=
            inductionHypothesis inRest
          exact ⟨notEmpty, absent, arePresent, element :: before, after, rfl, stops⟩
        by_cases isPresent : present element
        · rw [segments_cons_of isPresent] at inside
          exact later inside
        · rw [segments_cons_of_not isPresent] at inside
          have isLeading := segments_leading present rest
          cases leading : (segments present rest).1 with
          | nil =>
              rw [leading] at inside
              exact later inside
          | cons first others =>
              rw [leading] at inside isLeading
              rcases List.mem_cons.1 inside with here | inRest
              · obtain ⟨rfl, rfl⟩ := Prod.mk.inj here
                refine ⟨List.cons_ne_nil _ _, isPresent, fun other member => ?_, [],
                  rest.dropWhile fun element => present element, ?_, fun other isHead => ?_⟩
                · rw [isLeading] at member
                  simpa using List.mem_takeWhile_imp member
                · rw [isLeading, List.takeWhile_append_dropWhile]
                  rfl
                · have stops := List.head?_dropWhile_not (fun element => decide (present element))
                    rest
                  rw [Option.mem_def.1 isHead] at stops
                  simpa using stops
              · exact later inRest
  · rintro ⟨notEmpty, absent, arePresent, before, after, rfl, stops⟩
    rw [segments_append_cons absent, segments_cons_of_not absent, segments_of_present arePresent,
      leading_of_head_absent stops, List.append_nil]
    cases run with
    | nil => exact absurd rfl notEmpty
    | cons first others => exact List.mem_append_right _ List.mem_cons_self

variable {later : α → Prop} [DecidablePred later]

theorem segments_congr {elements : List α}
    (same : ∀ element ∈ elements, later element ↔ present element) :
    segments later elements = segments present elements := by
  induction elements with
  | nil => rfl
  | cons element rest inductionHypothesis =>
      have below := inductionHypothesis fun other inside => same other (List.mem_cons_of_mem _ inside)
      have here := same element List.mem_cons_self
      by_cases isPresent : present element
      · rw [segments_cons_of isPresent, segments_cons_of (here.2 isPresent), below]
      · rw [segments_cons_of_not isPresent, segments_cons_of_not fun also => isPresent (here.1 also),
          below]

/-- One element arrives: he continues the leading elements or a run in front of him, or starts a
run, and takes over the run behind him. -/
theorem segments_insert {left right : List α} {element : α} (absent : ¬ present element)
    (arrives : later element)
    (same : ∀ other ∈ left ++ right, later other ↔ present other) :
    ∃ run runs,
      segments present (left ++ element :: right) = (left, behind element run runs) ∧
          segments later (left ++ element :: right) = (left ++ element :: run, runs) ∨
        ∃ leading front gap middle,
          segments present (left ++ element :: right) =
            (leading, front ++ behind gap middle (behind element run runs)) ∧
          segments later (left ++ element :: right) =
            (leading, front ++ (gap, middle ++ element :: run) :: runs) := by
  have sameLeft : ∀ other ∈ left, later other ↔ present other :=
    fun other inside => same other (List.mem_append_left _ inside)
  have sameRight : segments later right = segments present right :=
    segments_congr fun other inside => same other (List.mem_append_right _ inside)
  refine ⟨(segments present right).1, (segments present right).2, ?_⟩
  rcases all_or_last_absent present left with
    arePresent | ⟨before, gap, middle, rfl, gapAbsent, inMiddle⟩
  · left
    have areLater : ∀ other ∈ left, later other :=
      fun other inside => (sameLeft other inside).2 (arePresent other inside)
    rw [segments_of_present arePresent, segments_of_present areLater, segments_cons_of_not absent,
      segments_cons_of arrives, sameRight, List.append_nil]
    exact ⟨rfl, rfl⟩
  · right
    have gapLater : ¬ later gap := fun isLater =>
      gapAbsent ((sameLeft gap (List.mem_append_right _ List.mem_cons_self)).1 isLater)
    have middleLater : ∀ other ∈ middle, later other := fun other inside =>
      (sameLeft other (List.mem_append_right _ (List.mem_cons_of_mem _ inside))).2
        (inMiddle other inside)
    have sameFront : segments later (before ++ [gap]) = segments present (before ++ [gap]) := by
      refine segments_congr fun other inside => sameLeft other ?_
      rcases List.mem_append.1 inside with inBefore | isGap
      · exact List.mem_append_left _ inBefore
      · rw [List.mem_singleton.1 isGap]
        exact List.mem_append_right _ List.mem_cons_self
    refine ⟨(segments present (before ++ [gap])).1, (segments present (before ++ [gap])).2, gap,
      middle, ?_, ?_⟩
    · rw [List.append_assoc, List.cons_append, segments_append_cons gapAbsent,
        segments_cons_of_not gapAbsent, segments_of_present inMiddle, segments_cons_of_not absent,
        List.append_nil]
    · rw [List.append_assoc, List.cons_append, segments_append_cons gapLater,
        segments_cons_of_not gapLater, segments_of_present middleLater, segments_cons_of arrives,
        sameFront, sameRight]
      cases middle with
      | nil => rfl
      | cons => rfl

end Segments

end BitcoinClib.Lib.MaximalRuns
