import BitcoinClib.Lib.Forest

/-!
Contract: heaps of first-child / next-sibling records in which nothing is pointed to twice.

Owns:
- `Slot` and `Heap.target`, the pointers that live records hold, and `OneLink`;
- `Thinned`, a heap that lost records or pointers;
- `Spans`, the addresses below and beside a pointer, which are distinct under `OneLink`;
- `Inherits`, an attribute that every record has from the record it is a child of, with the
  rules for a new base of a list of siblings and for a new pointer;
- `Tagged`, a heap whose records fit what they have from above.

Does not own: what the records store.
-/

namespace BitcoinClib.Lib

universe u v

variable {α : Type u}

/-- A field of a record that holds a pointer. -/
inductive Slot where
  | child (owner : Ptr)
  | sibling (owner : Ptr)
deriving DecidableEq

def Slot.owner : Slot → Ptr
  | .child owner => owner
  | .sibling owner => owner

/-- The pointer in a field of a live record. -/
def Heap.target (heap : Heap α) : Slot → Option Ptr
  | .child owner => (heap owner).bind Member.firstChild
  | .sibling owner => (heap owner).bind Member.nextSibling

variable {heap before after : Heap α} {slot other : Slot} {p q : Ptr} {member : Member α}

theorem Heap.target_child (live : heap p = some member) :
    heap.target (.child p) = member.firstChild := by
  rw [target, live, Option.bind_some]

theorem Heap.target_sibling (live : heap p = some member) :
    heap.target (.sibling p) = member.nextSibling := by
  rw [target, live, Option.bind_some]

/-- Only a live record holds a pointer. -/
theorem Heap.live_of_target (points : heap.target slot = some q) :
    ∃ member, heap slot.owner = some member := by
  cases slot with
  | child owner =>
      obtain ⟨member, live, -⟩ := Option.bind_eq_some_iff.1 points
      exact ⟨member, live⟩
  | sibling owner =>
      obtain ⟨member, live, -⟩ := Option.bind_eq_some_iff.1 points
      exact ⟨member, live⟩

/-- The fields of a record depend on the record only. -/
theorem Heap.target_congr (same : after slot.owner = before slot.owner) :
    after.target slot = before.target slot := by
  cases slot with
  | child owner => exact congrArg (·.bind Member.firstChild) same
  | sibling owner => exact congrArg (·.bind Member.nextSibling) same

theorem Heap.target_write_of_ne (different : slot.owner ≠ p) :
    (heap.write p member).target slot = heap.target slot :=
  target_congr (Heap.write_of_ne different)

theorem Heap.target_release_of_ne (different : slot.owner ≠ p) :
    (heap.release p).target slot = heap.target slot :=
  target_congr (Heap.release_of_ne different)

/-- A released record holds no pointer. -/
theorem Heap.target_release :
    (heap.release p).target slot = if slot.owner = p then none else heap.target slot := by
  split
  next here =>
    cases slot with
    | child owner =>
        change ((heap.release p) owner).bind Member.firstChild = none
        rw [show owner = p from here, Heap.release_same, Option.bind_none]
    | sibling owner =>
        change ((heap.release p) owner).bind Member.nextSibling = none
        rw [show owner = p from here, Heap.release_same, Option.bind_none]
  next other => exact Heap.target_release_of_ne other

theorem Heap.release_write_of_ne (different : p ≠ q) :
    (heap.write p member).release q = (heap.release q).write p member := by
  funext r
  by_cases released : r = q
  · have notWritten : r ≠ p := fun same => different (same.symm.trans released)
    rw [Heap.write_of_ne notWritten, released, Heap.release_same, Heap.release_same]
  · rw [Heap.release_of_ne released]
    by_cases written : r = p
    · rw [written, Heap.write_same, Heap.write_same]
    · rw [Heap.write_of_ne written, Heap.write_of_ne written, Heap.release_of_ne released]

/-! ## One link -/

/-- No two fields hold the same pointer. -/
def OneLink (heap : Heap α) : Prop :=
  ∀ slot other q, heap.target slot = some q → heap.target other = some q → slot = other

/-- No field holds the pointer. -/
def Unlinked (heap : Heap α) (q : Ptr) : Prop := ∀ slot, heap.target slot ≠ some q

/-- Pointers change their places. -/
theorem OneLink.moved (one : OneLink before) (place : Slot → Slot)
    (injective : ∀ slot other, place slot = place other → slot = other)
    (from_place : ∀ slot q, after.target slot = some q → before.target (place slot) = some q) :
    OneLink after := by
  intro slot other q first second
  apply injective
  exact one _ _ q (from_place slot q first) (from_place other q second)

/-- One field holds a pointer that no field held. -/
theorem OneLink.attach (one : OneLink before) (unlinked : Unlinked before p)
    (targets : ∀ other q, after.target other = some q →
      before.target other = some q ∨ other = slot ∧ q = p) : OneLink after := by
  intro left right q first second
  rcases targets left q first with old | ⟨rfl, rfl⟩
  · rcases targets right q second with also | ⟨rfl, rfl⟩
    · exact one left right q old also
    · exact absurd old (unlinked left)
  · rcases targets right q second with also | ⟨rfl, -⟩
    · exact absurd also (unlinked right)
    · rfl

/-- A record is written that stores what was stored. -/
theorem stored_write {old new : Member α} (live : heap p = some old) (val : new.val = old.val)
    (r : Ptr) (now : Member α) (nowLive : heap.write p new r = some now) :
    ∃ earlier, heap r = some earlier ∧ now.val = earlier.val := by
  by_cases here : r = p
  · rw [here, Heap.write_same] at nowLive
    cases nowLive
    exact ⟨old, here ▸ live, val⟩
  · rw [Heap.write_of_ne here] at nowLive
    exact ⟨now, nowLive, rfl⟩

/-- Records or pointers are lost; what is left stores what it stored. -/
structure Thinned (before after : Heap α) : Prop where
  stored : ∀ p new, after p = some new → ∃ old, before p = some old ∧ new.val = old.val
  targets : ∀ slot q, after.target slot = some q → before.target slot = some q

namespace Thinned

theorem refl (heap : Heap α) : Thinned heap heap :=
  ⟨fun _ new live => ⟨new, live, rfl⟩, fun _ _ points => points⟩

theorem trans {middle : Heap α} (left : Thinned before middle) (right : Thinned middle after) :
    Thinned before after := by
  constructor
  · intro p new live
    obtain ⟨between, betweenLive, second⟩ := right.stored p new live
    obtain ⟨old, oldLive, first⟩ := left.stored p between betweenLive
    exact ⟨old, oldLive, second.trans first⟩
  · intro slot q points
    exact left.targets slot q (right.targets slot q points)

/-- What is left is unchanged. -/
theorem of_subset (subset : ∀ p member, after p = some member → before p = some member) :
    Thinned before after := by
  have same : ∀ p member, after p = some member → after p = before p := fun p member live =>
    live.trans (subset p member live).symm
  constructor
  · intro p new live
    exact ⟨new, subset p new live, rfl⟩
  · intro slot q points
    obtain ⟨member, live⟩ := Heap.live_of_target points
    rw [← Heap.target_congr (same _ member live)]
    exact points

/-- A record is written with some of its pointers. -/
theorem write {old new : Member α} (live : before p = some old) (val : new.val = old.val)
    (child : ∀ q, new.firstChild = some q → old.firstChild = some q)
    (sibling : ∀ q, new.nextSibling = some q → old.nextSibling = some q) :
    Thinned before (before.write p new) := by
  constructor
  · exact stored_write live val
  · intro slot q points
    by_cases here : slot.owner = p
    · cases slot with
      | child owner =>
          change owner = p at here
          rw [here, Heap.target_child Heap.write_same] at points
          rw [here, Heap.target_child live]
          exact child q points
      | sibling owner =>
          change owner = p at here
          rw [here, Heap.target_sibling Heap.write_same] at points
          rw [here, Heap.target_sibling live]
          exact sibling q points
    · rwa [Heap.target_write_of_ne here] at points

theorem release (heap : Heap α) (p : Ptr) : Thinned heap (heap.release p) :=
  of_subset fun q member live => by
    by_cases released : q = p
    · rw [released, Heap.release_same] at live
      cases live
    · rwa [Heap.release_of_ne released] at live

theorem oneLink (thinned : Thinned before after) (one : OneLink before) : OneLink after :=
  one.moved id (fun _ _ same => same) thinned.targets

theorem unlinked (thinned : Thinned before after) (unlinked : Unlinked before q) :
    Unlinked after q :=
  fun slot points => unlinked slot (thinned.targets slot q points)

end Thinned

/-- The pointer to a first child is written. -/
theorem target_setFirstChild (live : heap p = some member) (firstChild : Option Ptr) :
    (heap.write p { member with firstChild }).target slot =
      if slot = .child p then firstChild else heap.target slot := by
  by_cases here : slot.owner = p
  · cases slot with
    | child owner =>
        change owner = p at here
        rw [here, Heap.target_child Heap.write_same, if_pos rfl]
    | sibling owner =>
        change owner = p at here
        rw [here, Heap.target_sibling Heap.write_same, Heap.target_sibling live,
          if_neg (by rintro ⟨⟩)]
  · rw [Heap.target_write_of_ne here, if_neg]
    rintro rfl
    exact here rfl

/-- The pointer to a next sibling is written. -/
theorem target_setNextSibling (live : heap p = some member) (nextSibling : Option Ptr) :
    (heap.write p { member with nextSibling }).target slot =
      if slot = .sibling p then nextSibling else heap.target slot := by
  by_cases here : slot.owner = p
  · cases slot with
    | child owner =>
        change owner = p at here
        rw [here, Heap.target_child Heap.write_same, Heap.target_child live,
          if_neg (by rintro ⟨⟩)]
    | sibling owner =>
        change owner = p at here
        rw [here, Heap.target_sibling Heap.write_same, if_pos rfl]
  · rw [Heap.target_write_of_ne here, if_neg]
    rintro rfl
    exact here rfl

/-- Another parent changes no pointer. -/
theorem target_setParent (live : heap p = some member) (parent : Option Ptr) :
    (heap.write p { member with parent }).target slot = heap.target slot := by
  by_cases here : slot.owner = p
  · cases slot with
    | child owner =>
        change owner = p at here
        rw [here, Heap.target_child Heap.write_same, Heap.target_child live]
    | sibling owner =>
        change owner = p at here
        rw [here, Heap.target_sibling Heap.write_same, Heap.target_sibling live]
  · exact Heap.target_write_of_ne here

/-- A record without pointers at a new address adds no link. -/
theorem target_writeNew {val : α} {parent : Option Ptr} (free : heap p = none) :
    (heap.write p ⟨val, parent, none, none⟩).target slot = heap.target slot := by
  by_cases here : slot.owner = p
  · cases slot with
    | child owner =>
        change owner = p at here
        rw [here, Heap.target_child Heap.write_same, Heap.target, free, Option.bind_none]
    | sibling owner =>
        change owner = p at here
        rw [here, Heap.target_sibling Heap.write_same, Heap.target, free, Option.bind_none]
  · exact Heap.target_write_of_ne here

/-- A record with a first child at a new address adds one link. -/
theorem target_writeAbove {val : α} {parent : Option Ptr} (free : heap p = none) :
    (heap.write p ⟨val, parent, some q, none⟩).target slot =
      if slot = .child p then some q else heap.target slot := by
  have live : heap.write p ⟨val, parent, none, none⟩ p = some ⟨val, parent, none, none⟩ :=
    Heap.write_same
  have linked : Heap.target ((heap.write p ⟨val, parent, none, none⟩).write p
      ⟨val, parent, some q, none⟩) slot = if slot = .child p then some q
        else Heap.target (heap.write p ⟨val, parent, none, none⟩) slot :=
    target_setFirstChild live (some q)
  rw [Heap.write_write, target_writeNew free] at linked
  exact linked

/-! ## Trees -/

/-- The addresses of a tree and of the trees beside it, as a walk over them ends. -/
inductive Spans (heap : Heap α) : Option Ptr → List Ptr → Prop
  | nil : Spans heap none []
  | node {p : Ptr} {member : Member α} {below beside : List Ptr} (live : heap p = some member)
      (children : Spans heap member.firstChild below)
      (siblings : Spans heap member.nextSibling beside) :
      Spans heap (some p) (p :: (below ++ beside))

namespace Spans

variable {start : Option Ptr} {ids others : List Ptr}

theorem unique (spans : Spans heap start ids) (again : Spans heap start others) :
    ids = others := by
  induction spans generalizing others with
  | nil =>
      cases again
      rfl
  | node live _ _ children siblings =>
      cases again with
      | node live' below' beside' =>
          rw [live] at live'
          cases live'
          rw [children below', siblings beside']

/-- Every address of a tree spans a part of it. -/
theorem part (spans : Spans heap start ids) (inside : p ∈ ids) :
    ∃ rest, Spans heap (some p) rest ∧ rest.length ≤ ids.length := by
  induction spans with
  | nil => cases inside
  | @node head member below beside live children siblings childrenPart siblingsPart =>
      simp only [List.mem_cons, List.mem_append] at inside
      rcases inside with rfl | child | sibling
      · exact ⟨_, .node live children siblings, Nat.le_refl _⟩
      · obtain ⟨rest, spans, shorter⟩ := childrenPart child
        refine ⟨rest, spans, ?_⟩
        rw [List.length_cons, List.length_append]
        omega
      · obtain ⟨rest, spans, shorter⟩ := siblingsPart sibling
        refine ⟨rest, spans, ?_⟩
        rw [List.length_cons, List.length_append]
        omega

theorem live (spans : Spans heap start ids) (inside : p ∈ ids) :
    ∃ member, heap p = some member := by
  obtain ⟨rest, fromHere, -⟩ := spans.part inside
  cases fromHere with
  | node live _ _ => exact ⟨_, live⟩

/-- A record that points to a tree is not in it. -/
theorem not_mem_of_points (spans : Spans heap start ids) (points : heap.target slot = start)
    (live : heap slot.owner = some member) : slot.owner ∉ ids := by
  intro inside
  obtain ⟨rest, fromHere, shorter⟩ := spans.part inside
  cases fromHere with
  | node again children siblings =>
      rw [live] at again
      cases again
      cases slot with
      | child owner =>
          rw [(Heap.target_child live).symm.trans points] at children
          rw [children.unique spans, List.length_cons, List.length_append] at shorter
          omega
      | sibling owner =>
          rw [(Heap.target_sibling live).symm.trans points] at siblings
          rw [siblings.unique spans, List.length_cons, List.length_append] at shorter
          omega

/-- The records of a tree point into it. -/
theorem closed (spans : Spans heap start ids) (inside : slot.owner ∈ ids)
    (points : heap.target slot = some q) : q ∈ ids := by
  have top : ∀ {start : Option Ptr} {ids : List Ptr}, Spans heap start ids → start = some q →
      q ∈ ids := by
    intro start ids spans isFirst
    cases spans with
    | nil => cases isFirst
    | node _ _ _ =>
        cases isFirst
        exact List.mem_cons_self
  induction spans with
  | nil => cases inside
  | @node head member below beside live children siblings childrenClosed siblingsClosed =>
      simp only [List.mem_cons, List.mem_append] at inside ⊢
      rcases inside with here | child | sibling
      · rw [← here] at live
        cases slot with
        | child owner =>
            exact .inr (.inl (top children ((Heap.target_child live).symm.trans points)))
        | sibling owner =>
            exact .inr (.inr (top siblings ((Heap.target_sibling live).symm.trans points)))
      · exact .inr (.inl (childrenClosed child))
      · exact .inr (.inr (siblingsClosed sibling))

/-- A record of a tree is its first or is pointed to from it. -/
theorem entry (spans : Spans heap start ids) (inside : q ∈ ids) :
    start = some q ∨ ∃ slot : Slot, slot.owner ∈ ids ∧ heap.target slot = some q := by
  induction spans with
  | nil => cases inside
  | @node head member below beside live children siblings childrenEntry siblingsEntry =>
      simp only [List.mem_cons, List.mem_append] at inside
      rcases inside with rfl | child | sibling
      · exact .inl rfl
      · right
        rcases childrenEntry child with first | ⟨slot, owner, points⟩
        · exact ⟨.child head, List.mem_cons_self, (Heap.target_child live).trans first⟩
        · exact ⟨slot, List.mem_cons_of_mem _ (List.mem_append_left _ owner), points⟩
      · right
        rcases siblingsEntry sibling with first | ⟨slot, owner, points⟩
        · exact ⟨.sibling head, List.mem_cons_self, (Heap.target_sibling live).trans first⟩
        · exact ⟨slot, List.mem_cons_of_mem _ (List.mem_append_right _ owner), points⟩

/-- From outside, only the first record of a tree is pointed to. -/
theorem entered (spans : Spans heap start ids) (one : OneLink heap) (inside : q ∈ ids)
    (outside : slot.owner ∉ ids) (points : heap.target slot = some q) : start = some q := by
  rcases spans.entry inside with first | ⟨also, owner, alsoPoints⟩
  · exact first
  · rw [one slot also q points alsoPoints] at outside
    exact absurd owner outside

/-- A set that contains the targets of its records contains a tree it contains the first
record of. -/
theorem subset_of_closed {inSet : Ptr → Prop} (spans : Spans heap start ids)
    (first : ∀ q, start = some q → inSet q)
    (closed : ∀ slot : Slot, slot.owner ∈ ids → ∀ q, inSet slot.owner →
      heap.target slot = some q → inSet q) : ∀ q ∈ ids, inSet q := by
  induction spans with
  | nil => exact fun _ inside => absurd inside List.not_mem_nil
  | @node head member below beside live _ _ childrenIn siblingsIn =>
      have headIn : inSet head := first head rfl
      intro q inside
      simp only [List.mem_cons, List.mem_append] at inside
      rcases inside with rfl | child | sibling
      · exact headIn
      · refine childrenIn (fun q isFirst => ?_) (fun slot owner => ?_) q child
        · exact closed (.child head) List.mem_cons_self q headIn
            ((Heap.target_child live).trans isFirst)
        · exact closed slot (List.mem_cons_of_mem _ (List.mem_append_left _ owner))
      · refine siblingsIn (fun q isFirst => ?_) (fun slot owner => ?_) q sibling
        · exact closed (.sibling head) List.mem_cons_self q headIn
            ((Heap.target_sibling live).trans isFirst)
        · exact closed slot (List.mem_cons_of_mem _ (List.mem_append_right _ owner))

/-- Where nothing is pointed to twice, a walk meets no record twice. -/
theorem nodup (spans : Spans heap start ids) (one : OneLink heap) : ids.Nodup := by
  induction spans with
  | nil => exact List.nodup_nil
  | @node head member below beside live children siblings childrenNodup siblingsNodup =>
      have notBelow : (Slot.child head).owner ∉ below :=
        children.not_mem_of_points (Heap.target_child live) live
      have notBeside : (Slot.sibling head).owner ∉ beside :=
        siblings.not_mem_of_points (Heap.target_sibling live) live
      -- a pointer from below to beside would be a second one
      have apart : ∀ q ∈ below, q ∉ beside := by
        refine children.subset_of_closed (fun q isFirst inside => ?_)
          (fun slot owner q off points inside => ?_)
        · have points : heap.target (.child head) = some q :=
            (Heap.target_child live).trans isFirst
          have offBeside : (Slot.child head).owner ∉ beside := notBeside
          have first := siblings.entered one inside offBeside points
          have same := one (.child head) (.sibling head) q points
            ((Heap.target_sibling live).trans first)
          cases same
        · have first := siblings.entered one inside off points
          have same := one slot (.sibling head) q points
            ((Heap.target_sibling live).trans first)
          rw [same] at owner
          exact notBelow owner
      rw [List.nodup_cons, List.mem_append, List.nodup_append]
      refine ⟨fun inside => inside.elim notBelow notBeside, childrenNodup, siblingsNodup, ?_⟩
      intro q child r sibling same
      exact apart q child (same ▸ sibling)

/-- A tree depends on the pointers of its records only. -/
theorem congr (spans : Spans before start ids)
    (same : ∀ p ∈ ids, ∀ old, before p = some old → ∃ new, after p = some new ∧
      new.firstChild = old.firstChild ∧ new.nextSibling = old.nextSibling) :
    Spans after start ids := by
  induction spans with
  | nil => exact .nil
  | @node head member below beside live _ _ childrenSpan siblingsSpan =>
      obtain ⟨now, nowLive, child, sibling⟩ := same head List.mem_cons_self member live
      refine .node nowLive ?_ ?_
      · rw [child]
        exact childrenSpan fun p inside =>
          same p (List.mem_cons_of_mem _ (List.mem_append_left _ inside))
      · rw [sibling]
        exact siblingsSpan fun p inside =>
          same p (List.mem_cons_of_mem _ (List.mem_append_right _ inside))

end Spans

/-! ## Inherited attributes -/

/-- The children of a record: its first child and those beside it. -/
inductive ChildOf (heap : Heap α) (parent : Ptr) : Ptr → Prop
  | first {q : Ptr} (points : heap.target (.child parent) = some q) : ChildOf heap parent q
  | next {p q : Ptr} (child : ChildOf heap parent p)
      (points : heap.target (.sibling p) = some q) : ChildOf heap parent q

/-- A record and those beside it. -/
inductive SiblingsFrom (heap : Heap α) (start : Ptr) : Ptr → Prop
  | self : SiblingsFrom heap start start
  | next {p q : Ptr} (sibling : SiblingsFrom heap start p)
      (points : heap.target (.sibling p) = some q) : SiblingsFrom heap start q

/-- There may be nothing beside a record. -/
theorem SiblingsFrom.alone (none : heap.target (.sibling p) = none)
    (sibling : SiblingsFrom heap p q) : q = p := by
  induction sibling with
  | self => rfl
  | next _ points same =>
      rw [same, none] at points
      cases points

/-- Those beside a record are the record and those beside the next one. -/
theorem SiblingsFrom.next_step {r : Ptr} (points : heap.target (.sibling p) = some q)
    (sibling : SiblingsFrom heap p r) : r = p ∨ SiblingsFrom heap q r := by
  induction sibling with
  | self => exact .inl rfl
  | next _ onward before =>
      rcases before with rfl | later
      · rw [points] at onward
        cases onward
        exact .inr .self
      · exact .inr (.next later onward)

variable {W : Type v} {attr : α → W} {above : Ptr → W}

/-- What a field passes on: the attribute of its record to a child, and what the record has
from above to a sibling. -/
def Heap.bequest (attr : α → W) (heap : Heap α) (above : Ptr → W) : Slot → Option W
  | .child owner => (heap owner).map fun member => attr member.val
  | .sibling owner => some (above owner)

/-- `above` is the attribute of the record that a record is a child of. -/
def Inherits (attr : α → W) (heap : Heap α) (above : Ptr → W) : Prop :=
  ∀ slot q, heap.target slot = some q → heap.bequest attr above slot = some (above q)

theorem Heap.bequest_child (live : heap p = some member) :
    heap.bequest attr above (.child p) = some (attr member.val) := by
  rw [bequest, live, Option.map_some]

namespace Inherits

theorem of_childOf (inherits : Inherits attr heap above) (child : ChildOf heap p q)
    (live : heap p = some member) : above q = attr member.val := by
  induction child with
  | first points =>
      have passed := inherits _ _ points
      rw [Heap.bequest_child live] at passed
      exact (Option.some.inj passed).symm
  | next _ points inductionHypothesis =>
      exact (Option.some.inj (inherits _ _ points)).symm.trans inductionHypothesis

/-- All siblings have the same from above. -/
theorem of_siblingsFrom (inherits : Inherits attr heap above) (sibling : SiblingsFrom heap p q) :
    above q = above p := by
  induction sibling with
  | self => rfl
  | next _ points inductionHypothesis =>
      have passed : some (above _) = some (above _) := inherits _ _ points
      exact (Option.some.inj passed).symm.trans inductionHypothesis

/-- What is stored stays, so children keep what they have from above. -/
theorem bequest_stored
    (stored : ∀ p new, after p = some new → ∃ old, before p = some old ∧ new.val = old.val)
    (points : after.target slot = some q) :
    after.bequest attr above slot = before.bequest attr above slot := by
  cases slot with
  | child owner =>
      obtain ⟨new, live⟩ := Heap.live_of_target points
      obtain ⟨old, oldLive, val⟩ := stored owner new live
      change after owner = some new at live
      rw [Heap.bequest_child live, Heap.bequest_child oldLive, val]
  | sibling owner => rfl

theorem thinned (inherits : Inherits attr before above) (thinned : Thinned before after) :
    Inherits attr after above := by
  intro slot q points
  rw [bequest_stored thinned.stored points]
  exact inherits slot q (thinned.targets slot q points)

/-- A record that nothing points to, and those beside it, may have anything from above. -/
theorem rebase (inherits : Inherits attr heap above) (one : OneLink heap)
    (unlinked : Unlinked heap q) (base : W) :
    ∃ rebased, Inherits attr heap rebased ∧
      (∀ p, SiblingsFrom heap q p → rebased p = base) ∧
      ∀ p, ¬ SiblingsFrom heap q p → rebased p = above p := by
  classical
  let rebased : Ptr → W := fun p => if SiblingsFrom heap q p then base else above p
  have inside : ∀ p, SiblingsFrom heap q p → rebased p = base := fun p sibling => if_pos sibling
  have outside : ∀ p, ¬ SiblingsFrom heap q p → rebased p = above p :=
    fun p other => if_neg other
  refine ⟨rebased, ?_, inside, outside⟩
  intro slot r points
  -- only a sibling of the list points into it
  have enters : SiblingsFrom heap q r → ∃ p, slot = .sibling p ∧ SiblingsFrom heap q p := by
    intro entered
    cases entered with
    | self => exact absurd points (unlinked slot)
    | @next p _ sibling again => exact ⟨p, one slot _ r points again, sibling⟩
  have passed := inherits slot r points
  cases slot with
  | child owner =>
      have off : ¬ SiblingsFrom heap q r := by
        intro entered
        obtain ⟨p, same, -⟩ := enters entered
        cases same
      rw [outside r off]
      exact passed
  | sibling owner =>
      change some (rebased owner) = some (rebased r)
      by_cases sibling : SiblingsFrom heap q owner
      · rw [inside owner sibling, inside r (.next sibling points)]
      · have off : ¬ SiblingsFrom heap q r := by
          intro entered
          obtain ⟨p, same, on⟩ := enters entered
          cases same
          exact sibling on
        rw [outside owner sibling, outside r off]
        exact passed

/-- A field gets a pointer to a record that has the right attribute from above. -/
theorem attach (inherits : Inherits attr before above)
    (stored : ∀ p new, after p = some new → ∃ old, before p = some old ∧ new.val = old.val)
    (targets : ∀ other q, after.target other = some q →
      before.target other = some q ∨ other = slot ∧ q = p)
    (passes : before.bequest attr above slot = some (above p)) : Inherits attr after above := by
  intro other q points
  rw [bequest_stored stored points]
  rcases targets other q points with old | ⟨rfl, rfl⟩
  · exact inherits other q old
  · exact passes

end Inherits

/-! ## Tagged records -/

/-- Every record but the loose ones fits what it has from above. -/
structure Tagged (attr : α → W) (fits : W → α → Prop) (heap : Heap α) (above : Ptr → W)
    (loose : Ptr → Prop) : Prop where
  oneLink : OneLink heap
  inherits : Inherits attr heap above
  fits : ∀ p member, heap p = some member → ¬ loose p → fits (above p) member.val

namespace Tagged

variable {fits : W → α → Prop} {loose more : Ptr → Prop}

/-- What is stored stays. -/
theorem of_stored (tagged : Tagged attr fits before above loose) (one : OneLink after)
    (inherits : Inherits attr after above)
    (stored : ∀ p new, after p = some new → ∃ old, before p = some old ∧ new.val = old.val) :
    Tagged attr fits after above loose where
  oneLink := one
  inherits := inherits
  fits := by
    intro p new live fixed
    obtain ⟨old, oldLive, val⟩ := stored p new live
    rw [val]
    exact tagged.fits p old oldLive fixed

theorem thinned (tagged : Tagged attr fits before above loose) (thinned : Thinned before after) :
    Tagged attr fits after above loose :=
  tagged.of_stored (thinned.oneLink tagged.oneLink) (tagged.inherits.thinned thinned)
    thinned.stored

/-- A field gets a pointer to a record that nothing points to. -/
theorem attach (tagged : Tagged attr fits before above loose) (unlinked : Unlinked before p)
    (stored : ∀ p new, after p = some new → ∃ old, before p = some old ∧ new.val = old.val)
    (targets : ∀ other q, after.target other = some q →
      before.target other = some q ∨ other = slot ∧ q = p)
    (passes : before.bequest attr above slot = some (above p)) :
    Tagged attr fits after above loose :=
  tagged.of_stored (tagged.oneLink.attach unlinked targets)
    (tagged.inherits.attach stored targets passes) stored

/-- A field gets another pointer or none. -/
theorem redirect (tagged : Tagged attr fits before above loose) (field : Slot) (next : Option Ptr)
    (unlinked : ∀ q, next = some q → Unlinked before q)
    (stored : ∀ p new, after p = some new → ∃ old, before p = some old ∧ new.val = old.val)
    (targets : ∀ slot, after.target slot = if slot = field then next else before.target slot)
    (passes : ∀ q, next = some q → before.bequest attr above field = some (above q)) :
    Tagged attr fits after above loose := by
  cases next with
  | none =>
      refine tagged.thinned ⟨stored, fun other q points => ?_⟩
      rw [targets] at points
      split at points
      next => cases points
      next => exact points
  | some p =>
      refine tagged.attach (unlinked p rfl) stored (fun other q points => ?_) (passes p rfl)
      rw [targets] at points
      split at points
      next here => exact .inr ⟨here, (Option.some.inj points).symm⟩
      next => exact .inl points

/-- Fewer records need to fit. -/
theorem loosen (tagged : Tagged attr fits heap above loose) (also : ∀ p, loose p → more p) :
    Tagged attr fits heap above more :=
  ⟨tagged.oneLink, tagged.inherits, fun p member live fixed =>
    tagged.fits p member live fun isLoose => fixed (also p isLoose)⟩

/-- A record that nothing points to, and those beside it, are given another base. -/
theorem rebase (tagged : Tagged attr fits heap above loose) (unlinked : Unlinked heap q) (base : W)
    (fit : ∀ p member, SiblingsFrom heap q p → heap p = some member → ¬ more p →
      fits base member.val) (also : ∀ p, loose p → more p) :
    ∃ rebased, Tagged attr fits heap rebased more ∧
      (∀ p, SiblingsFrom heap q p → rebased p = base) ∧
      ∀ p, ¬ SiblingsFrom heap q p → rebased p = above p := by
  obtain ⟨rebased, inherits, inside, outside⟩ :=
    tagged.inherits.rebase tagged.oneLink unlinked base
  refine ⟨rebased, ⟨tagged.oneLink, inherits, ?_⟩, inside, outside⟩
  intro p member live fixed
  by_cases sibling : SiblingsFrom heap q p
  · rw [inside p sibling]
    exact fit p member sibling live fixed
  · rw [outside p sibling]
    exact tagged.fits p member live fun isLoose => fixed (also p isLoose)

/-- A record without links enters below a base. -/
theorem enter (tagged : Tagged attr fits before above loose) (free : before p = none)
    (unlinked : Unlinked before p) (val : α) (parent : Option Ptr) (base : W)
    (fit : ¬ more p → fits base val) (also : ∀ q, loose q → more q) :
    ∃ entered, Tagged attr fits (before.write p ⟨val, parent, none, none⟩) entered more ∧
      entered p = base ∧ ∀ q, q ≠ p → entered q = above q := by
  let entered : Ptr → W := fun q => if q = p then base else above q
  have here : entered p = base := if_pos rfl
  have others : ∀ q, q ≠ p → entered q = above q := fun q other => if_neg other
  have targets : ∀ slot : Slot,
      (before.write p ⟨val, parent, none, none⟩).target slot = before.target slot :=
    fun slot => target_writeNew free
  refine ⟨entered, ⟨?_, ?_, ?_⟩, here, others⟩
  case refine_1 =>
    exact tagged.oneLink.moved id (fun _ _ same => same) fun slot q points =>
      (targets slot).symm.trans points
  case refine_2 =>
    intro slot q points
    rw [targets] at points
    have notNew : q ≠ p := fun same => unlinked slot (same ▸ points)
    obtain ⟨owner, ownerLive⟩ := Heap.live_of_target points
    have ownerOld : slot.owner ≠ p := by
      intro same
      rw [same, free] at ownerLive
      cases ownerLive
    have passed := tagged.inherits slot q points
    rw [others q notNew]
    cases slot with
    | child owner =>
        change owner ≠ p at ownerOld
        rw [Heap.bequest, Heap.write_of_ne ownerOld]
        exact passed
    | sibling owner =>
        change some (entered owner) = _
        rw [others owner ownerOld]
        exact passed
  case refine_3 =>
    intro q member live fixed
    by_cases new : q = p
    · rw [new, Heap.write_same] at live
      cases live
      rw [new, here]
      exact fit (new ▸ fixed)
    · rw [Heap.write_of_ne new] at live
      rw [others q new]
      exact tagged.fits q member live fun isLoose => fixed (also q isLoose)

end Tagged

end BitcoinClib.Lib
