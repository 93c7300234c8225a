import SyntaxChart.Chart.Mermaid
import SyntaxChart.Proofs.Growth
import Mathlib.Logic.Relation

/-!
# When wiring is refused

A group may stand in a category that is none. Wiring an outline with such a group is refused, and
whether it is, and for which category, depends on the outline only: wiring comes to what checking
the categories of its groups in the order of the visits comes to (`Outline.outcome_wire`). A visit
takes all fields of a node, and only then its children, from left to right (`Outline.groups`). So
the first category that is no group's is the one that is named (`Outline.wire_eq_error_iff`). The
outline of a script has none, so its chart is never refused (`Outline.wire_refused_iff`).
-/

namespace SyntaxChart

/-! ## The groups of an outline -/

/-- The category of a field's group, if the field is one. -/
def Field.groupCategory? : Field → Option Category
  | group _ c _ => some c
  | _ => none

namespace Outline

/-- The second outline is the first, or lies below it. -/
def Contains : Outline → Outline → Prop :=
  Relation.ReflTransGen fun o child => child ∈ o.children

mutual

/-- The categories of the groups in the order of the visits: those of a node's fields before those
below its children. -/
def groups : Outline → List Category
  | .node _ _ fields => fields.filterMap Field.groupCategory? ++ groupsBelow fields

def groupsBelow : List Field → List Category
  | [] => []
  | .one _ child :: fields => groups child ++ groupsBelow fields
  | .group _ _ members :: fields => groupsEach members ++ groupsBelow fields
  | .leaf _ _ _ :: fields => groupsBelow fields

def groupsEach : List Outline → List Category
  | [] => []
  | o :: os => groups o ++ groupsEach os

end

theorem groupsEach_eq (os : List Outline) : groupsEach os = os.flatMap groups := by
  induction os with
  | nil => rfl
  | cons o os ih => rw [groupsEach, ih, List.flatMap_cons]

theorem groupsBelow_eq (fields : List Field) :
    groupsBelow fields = (fields.flatMap Field.children).flatMap groups := by
  induction fields with
  | nil => rfl
  | cons f fields ih => cases f <;> simp [groupsBelow, Field.children, groupsEach_eq, ih]

theorem groups_eq (o : Outline) :
    o.groups = o.fields.filterMap Field.groupCategory? ++ o.children.flatMap groups := by
  cases o with
  | node c label fields => rw [groups, groupsBelow_eq]; rfl

theorem groupCategory?_eq_some_iff {f : Field} {c : Category} :
    f.groupCategory? = some c ↔ ∃ role members, f = .group role c members := by
  cases f <;> simp [Field.groupCategory?]

theorem mem_groups_iff {o : Outline} {c : Category} :
    c ∈ o.groups ↔ ∃ p, o.Contains p ∧ ∃ role members, .group role c members ∈ p.fields := by
  induction o using Outline.induction with
  | step o ih =>
    have hown : c ∈ o.fields.filterMap Field.groupCategory?
        ↔ ∃ role members, .group role c members ∈ o.fields := by
      simp only [List.mem_filterMap, groupCategory?_eq_some_iff]
      constructor
      · rintro ⟨f, hf, role, members, rfl⟩
        exact ⟨role, members, hf⟩
      · rintro ⟨role, members, hf⟩
        exact ⟨_, hf, role, members, rfl⟩
    rw [groups_eq, List.mem_append, hown, List.mem_flatMap]
    constructor
    · rintro (h | ⟨child, hchild, h⟩)
      · exact ⟨o, .refl, h⟩
      · obtain ⟨p, hp, h⟩ := (ih child hchild).1 h
        exact ⟨p, .head hchild hp, h⟩
    · rintro ⟨p, hp, h⟩
      rcases hp.cases_head with rfl | ⟨child, hchild, hp⟩
      · exact .inl h
      · exact .inr ⟨child, hchild, (ih child hchild).2 ⟨p, hp, h⟩⟩

end Outline

/-! ## Checking categories in turn -/

/-- Refuses a category that is no group's. -/
def Category.checkGroup (c : Category) : Except NotGroup Unit :=
  if c.isGroup then .ok () else .error ⟨c⟩

section Outcome

variable {α β : Type}

/-- Whether there is a result, and otherwise what was refused. -/
def outcome (x : Except NotGroup α) : Except NotGroup Unit :=
  x.map fun _ => ()

theorem outcome_eq_error_iff {x : Except NotGroup α} {e : NotGroup} :
    outcome x = .error e ↔ x = .error e := by
  cases x <;> simp [outcome, Except.map]

theorem outcome_map (x : Except NotGroup α) (f : α → β) : outcome (x.map f) = outcome x := by
  cases x <;> rfl

/-- Where the second outcome is the same for every first result, the outcomes come in turn. -/
theorem outcome_bind {x : Except NotGroup α} {f : α → Except NotGroup β} {y : Except NotGroup Unit}
    (h : ∀ a, x = .ok a → outcome (f a) = y) : outcome (x.bind f) = outcome x >>= fun _ => y := by
  cases x with
  | error e => rfl
  | ok a => exact h a rfl

end Outcome

theorem forM_checkGroup_eq_error_iff {cs : List Category} {e : NotGroup} :
    forM cs Category.checkGroup = .error e ↔ cs.find? (fun c => !c.isGroup) = some e.category := by
  induction cs with
  | nil => simp [pure, Except.pure]
  | cons c cs ih =>
    rw [List.forM_cons, Category.checkGroup]
    rcases hc : c.isGroup with _ | _
    · cases e
      simp [hc, bind, Except.bind]
    · simpa [hc, bind, Except.bind] using ih

namespace Outline

theorem outcome_plant (parent : NodeId) (fields : List Field) (r : Registry) :
    outcome (plant parent fields r)
      = forM (fields.filterMap Field.groupCategory?) Category.checkGroup := by
  induction fields generalizing r with
  | nil => rfl
  | cons f fields ih =>
    cases f with
    | one role child =>
      rw [plant_one, outcome_map, ih]
      rfl
    | group role c members =>
      rcases hc : c.isGroup with _ | _
      · rw [plant_group_of_not_isGroup parent role hc]
        simp [Field.groupCategory?, Category.checkGroup, hc, outcome, Except.map, bind, Except.bind]
      · rw [plant_group parent role hc]
        simp only [outcome_map, ih]
        simp [Field.groupCategory?, Category.checkGroup, hc, bind, Except.bind]
    | leaf role c label =>
      rw [plant_leaf, outcome_map, ih]
      rfl

theorem length_children_of_plant {parent : NodeId} {fields : List Field} {r r' : Registry}
    {b : Branches} (h : plant parent fields r = .ok (b, r')) :
    b.children.length = (fields.flatMap Field.children).length := by
  obtain ⟨_, hplanted, -⟩ := planted_of_plant h
  exact hplanted.length_children

theorem outcome_wireEach {os : List Outline} {ids : List NodeId}
    (hos : ∀ o ∈ os, ∀ parent r, outcome (o.wire parent r) = forM o.groups Category.checkGroup)
    (hlen : ids.length = os.length) (r : Registry) :
    outcome (wireEach (ids.zip (os.map wire)) r)
      = forM (os.flatMap groups) Category.checkGroup := by
  induction os generalizing ids r with
  | nil => simp [wireEach, outcome, Except.map, pure, Except.pure]
  | cons o os ih =>
    obtain ⟨id, ids, rfl⟩ := List.exists_cons_of_length_eq_add_one hlen
    rw [List.map_cons, List.zip_cons_cons, wireEach_cons, List.flatMap_cons, List.forM_append,
      ← hos o List.mem_cons_self]
    refine outcome_bind fun p _ => ?_
    rw [outcome_map]
    exact ih (fun o ho => hos o (List.mem_cons_of_mem _ ho)) (by simpa using hlen) p.2

/-- Whatever was declared before and whatever node an outline is wired below, wiring comes to
checking the categories of its groups in the order of the visits. -/
theorem outcome_wire (o : Outline) (parent : NodeId) (r : Registry) :
    outcome (o.wire parent r) = forM o.groups Category.checkGroup := by
  induction o using Outline.induction generalizing parent r with
  | step o ih =>
    rw [wire_eq, groups_eq, List.forM_append, ← outcome_plant]
    refine outcome_bind fun p hp => ?_
    rw [outcome_map]
    exact outcome_wireEach ih (length_children_of_plant hp) p.2

theorem wire_eq_error_iff {o : Outline} {parent : NodeId} {r : Registry} {e : NotGroup} :
    o.wire parent r = .error e ↔ o.groups.find? (fun c => !c.isGroup) = some e.category := by
  rw [← outcome_eq_error_iff, outcome_wire, forM_checkGroup_eq_error_iff]

theorem exists_wire_eq_error_iff {o : Outline} {parent : NodeId} {r : Registry} :
    (∃ e, o.wire parent r = .error e) ↔ ∃ c ∈ o.groups, c.isGroup = false := by
  simp only [wire_eq_error_iff]
  constructor
  · rintro ⟨e, he⟩
    exact ⟨e.category, List.mem_of_find?_eq_some he, by simpa using List.find?_some he⟩
  · rintro ⟨c, hc, hgroup⟩
    have hsome : (o.groups.find? fun c => !c.isGroup).isSome :=
      List.find?_isSome.2 ⟨c, hc, by simp [hgroup]⟩
    obtain ⟨first, hfirst⟩ := Option.isSome_iff_exists.1 hsome
    exact ⟨⟨first⟩, hfirst⟩

/-- The chart of an outline, if drawing it is not refused. -/
def chart (o : Outline) (direction : Direction) : Except NotGroup Chart := do
  let d ← o.draw .empty
  let content :=
    match d.wiring.edges with
    | [] => .atomic ⟨d.root, o.label⟩
    | edge :: edges => .compound d.registry.nodes.toList (edge :: edges)
  return ⟨direction, content⟩

end Outline

theorem Script.chart_outline (s : Script) (direction : Direction) :
    s.outline.chart direction = .ok (s.chart direction) := by
  rw [Outline.chart, s.draw_outline_eq]
  rfl

/-- Wiring an outline is refused exactly where a group of the outline, or of one below it, stands in
a category that is no group's, and the message names the first such category in the order of the
visits. It does not matter what was declared before. A script's chart is never refused, nor is its
text. -/
theorem Outline.wire_refused_iff :
    (∀ (o : Outline) (parent : NodeId) (r : Registry),
      ((∃ e, o.wire parent r = .error e) ↔
        ∃ p, o.Contains p ∧
          ∃ role c members, .group role c members ∈ p.fields ∧ c.isGroup = false)
      ∧ ∀ message, (∃ e, o.wire parent r = .error e ∧ e.message = message) ↔
        ∃ before c behind, o.groups = before ++ c :: behind ∧ (∀ b ∈ before, b.isGroup)
          ∧ c.isGroup = false ∧ message = c.name ++ " is not a pseudo-node category")
    ∧ ∀ (s : Script) (direction : Direction),
      s.outline.chart direction = .ok (s.chart direction)
      ∧ (s.outline.chart direction).map Chart.text = .ok (s.chart direction).text := by
  refine ⟨fun o parent r => ⟨?_, fun message => ?_⟩, fun s direction => ?_⟩
  · rw [exists_wire_eq_error_iff]
    constructor
    · rintro ⟨c, hc, hgroup⟩
      obtain ⟨p, hp, role, members, hf⟩ := mem_groups_iff.1 hc
      exact ⟨p, hp, role, c, members, hf, hgroup⟩
    · rintro ⟨p, hp, role, c, members, hf, hgroup⟩
      exact ⟨c, mem_groups_iff.2 ⟨p, hp, role, members, hf⟩, hgroup⟩
  · simp only [wire_eq_error_iff, List.find?_eq_some_iff_append]
    constructor
    · rintro ⟨⟨c⟩, ⟨hc, before, behind, hsplit, hbefore⟩, rfl⟩
      exact ⟨before, c, behind, hsplit, by simpa using hbefore, by simpa using hc, rfl⟩
    · rintro ⟨before, c, behind, hsplit, hbefore, hc, rfl⟩
      exact ⟨⟨c⟩, ⟨by simp [hc], before, behind, hsplit, by simpa using hbefore⟩, rfl⟩
  · rw [s.chart_outline direction]
    exact ⟨rfl, rfl⟩

/-- The second field of the root is visited before what lies below the first. -/
example :
    (Outline.named .application
      [.one "rator" (.named .procedure [.group "args" .reference []]),
        .group "rands" .binding []]).groups = [.binding, .reference] := by
  decide

end SyntaxChart
