import SyntaxChart.Outline

/-!
# Wiring an outline

An outline becomes nodes in a registry and edges between them. A node's fields are declared first,
in order, each group followed by its members; then each child is wired in the same way. The edges
come as the node's own edges, then those from its groups to their members, then those below each
child. Wiring a well-grouped outline succeeds (`Outline.exists_wire_eq_ok`).
-/

namespace SyntaxChart

/-- An edge, with the role of its target if it has one. -/
structure Edge where
  source : NodeId
  role : Option String
  target : NodeId
deriving DecidableEq

/-- What declaring the fields of a node gives: the node's own edges, the edges from its groups, and
the identifiers of its children. -/
structure Branches where
  own : List Edge
  fanOut : List Edge
  children : List NodeId

/-- What wiring gives: the edges, and the nodes whose fields were declared, in order. -/
structure Wiring where
  edges : List Edge
  visits : List NodeId

/-- An outline that was declared and wired: its root, the wiring, and the registry afterwards. -/
structure Drawing where
  root : NodeId
  wiring : Wiring
  registry : Registry

namespace Outline

def declare (o : Outline) (r : Registry) : NodeId × Registry :=
  r.declare o.category o.label

def declareAll : List Outline → Registry → List NodeId × Registry
  | [], r => ([], r)
  | o :: os, r =>
    let (id, r) := o.declare r
    let (ids, r) := declareAll os r
    (id :: ids, r)

/-- Declares the fields of a node, in order. -/
def plant (parent : NodeId) : List Field → Registry → Except NotGroup (Branches × Registry)
  | [], r => .ok (⟨[], [], []⟩, r)
  | .one role child :: fields, r => do
    let (id, r) := child.declare r
    let (b, r) ← plant parent fields r
    return (⟨⟨parent, some role, id⟩ :: b.own, b.fanOut, id :: b.children⟩, r)
  | .group role c members :: fields, r => do
    let (group, r) ← r.declareGroup c
    let (ids, r) := declareAll members r
    let (b, r) ← plant parent fields r
    return (⟨⟨parent, some role, group⟩ :: b.own, ids.map (⟨group, none, ·⟩) ++ b.fanOut,
      ids ++ b.children⟩, r)
  | .leaf role c label :: fields, r => do
    let (id, r) := r.declare c label
    let (b, r) ← plant parent fields r
    return (⟨⟨parent, some role, id⟩ :: b.own, b.fanOut, b.children⟩, r)

/-- How an outline is wired below a node that is already declared. -/
abbrev Wirer := NodeId → Registry → Except NotGroup (Wiring × Registry)

/-- Wires below each node in order. The last wiring is not copied, so a long chain of pairs takes
time linear in its length. -/
def wireEach : List (NodeId × Wirer) → Registry → Except NotGroup (Wiring × Registry)
  | [], r => .ok (⟨[], []⟩, r)
  | [(id, wirer)], r => wirer id r
  | (id, wirer) :: rest, r => do
    let (first, r) ← wirer id r
    let (others, r) ← wireEach rest r
    return (⟨first.edges ++ others.edges, first.visits ++ others.visits⟩, r)

mutual

/-- Wires an outline below its node. -/
def wire : Outline → Wirer
  | .node _ _ fields, parent, r => do
    let (b, r) ← plant parent fields r
    let (below, r) ← wireEach (b.children.zip (fieldWirers fields)) r
    return (⟨b.own ++ b.fanOut ++ below.edges, parent :: below.visits⟩, r)

/-- How the children in fields are wired, in order. -/
def fieldWirers : List Field → List Wirer
  | [] => []
  | .one _ child :: fields => wire child :: fieldWirers fields
  | .group _ _ members :: fields => wirers members ++ fieldWirers fields
  | .leaf _ _ _ :: fields => fieldWirers fields

/-- How outlines are wired, in order. -/
def wirers : List Outline → List Wirer
  | [] => []
  | o :: os => wire o :: wirers os

end

theorem wirers_eq (os : List Outline) : wirers os = os.map wire := by
  induction os with
  | nil => rfl
  | cons o os ih => simp [wirers, ih]

theorem fieldWirers_eq (fields : List Field) :
    fieldWirers fields = (fields.flatMap Field.children).map wire := by
  induction fields with
  | nil => rfl
  | cons f fields ih => cases f <;> simp [fieldWirers, Field.children, wirers_eq, ih]

/-- Declares an outline's node and wires the outline below it. -/
def draw (o : Outline) (r : Registry) : Except NotGroup Drawing := do
  let (root, r) := o.declare r
  let (w, r) ← o.wire root r
  return ⟨root, w, r⟩

theorem plant_one (parent : NodeId) (role : String) (child : Outline) (fields : List Field)
    (r : Registry) :
    plant parent (.one role child :: fields) r =
      (plant parent fields (child.declare r).2).map fun p =>
        (⟨⟨parent, some role, (child.declare r).1⟩ :: p.1.own, p.1.fanOut,
          (child.declare r).1 :: p.1.children⟩, p.2) := by
  rw [plant]
  cases h : plant parent fields (child.declare r).2 <;> simp [h, bind, Except.bind, Except.map, pure,
    Except.pure]

theorem plant_leaf (parent : NodeId) (role : String) (c : Category) (label : String)
    (fields : List Field) (r : Registry) :
    plant parent (.leaf role c label :: fields) r =
      (plant parent fields (r.declare c label).2).map fun p =>
        (⟨⟨parent, some role, (r.declare c label).1⟩ :: p.1.own, p.1.fanOut, p.1.children⟩, p.2) := by
  rw [plant]
  cases h : plant parent fields (r.declare c label).2 <;> simp [h, bind, Except.bind, Except.map,
    pure, Except.pure]

/-- A group in a category that is none ends the wiring. -/
theorem plant_group_of_not_isGroup (parent : NodeId) (role : String) {c : Category}
    (hc : c.isGroup = false) (members : List Outline) (fields : List Field) (r : Registry) :
    plant parent (.group role c members :: fields) r = .error ⟨c⟩ := by
  rw [plant, Registry.declareGroup, hc]
  rfl

theorem plant_group (parent : NodeId) (role : String) {c : Category} (hc : c.isGroup = true)
    (members : List Outline) (fields : List Field) (r : Registry) :
    plant parent (.group role c members :: fields) r =
      let group := r.declare c Registry.groupLabel
      let ids := declareAll members group.2
      (plant parent fields ids.2).map fun p =>
        (⟨⟨parent, some role, group.1⟩ :: p.1.own, ids.1.map (⟨group.1, none, ·⟩) ++ p.1.fanOut,
          ids.1 ++ p.1.children⟩, p.2) := by
  rw [plant, Registry.declareGroup, if_pos hc]
  simp only [bind, Except.bind]
  cases plant parent fields (declareAll members (r.declare c Registry.groupLabel).2).2 <;> rfl

theorem wireEach_cons (job : NodeId × Wirer) (jobs : List (NodeId × Wirer)) (r : Registry) :
    wireEach (job :: jobs) r =
      (job.2 job.1 r).bind fun p => (wireEach jobs p.2).map fun q =>
        (⟨p.1.edges ++ q.1.edges, p.1.visits ++ q.1.visits⟩, q.2) := by
  cases jobs with
  | nil =>
    rw [wireEach]
    cases job.2 job.1 r <;> simp [wireEach, Except.bind, Except.map]
  | cons next jobs =>
    rw [wireEach]
    · cases job.2 job.1 r with
      | error e => rfl
      | ok p => simp only [bind, Except.bind]; cases wireEach (next :: jobs) p.2 <;> rfl
    · exact List.cons_ne_nil _ _

theorem wire_eq (o : Outline) (parent : NodeId) (r : Registry) :
    o.wire parent r =
      (plant parent o.fields r).bind fun p =>
        (wireEach (p.1.children.zip (o.children.map wire)) p.2).map fun q =>
          (⟨p.1.own ++ p.1.fanOut ++ q.1.edges, parent :: q.1.visits⟩, q.2) := by
  cases o with
  | node c label fields =>
    rw [wire, fieldWirers_eq]
    simp only [Outline.fields, Outline.children]
    cases plant parent fields r with
    | error e => rfl
    | ok p => simp only [bind, Except.bind]; cases wireEach _ p.2 <;> rfl

theorem draw_eq (o : Outline) (r : Registry) :
    o.draw r =
      (o.wire (o.declare r).1 (o.declare r).2).map fun p => ⟨(o.declare r).1, p.1, p.2⟩ := by
  rw [draw]
  cases h : o.wire (o.declare r).1 (o.declare r).2 <;> simp [h, bind, Except.bind, Except.map,
    pure, Except.pure]

theorem exists_plant_eq_ok (parent : NodeId) {fields : List Field} (h : ∀ f ∈ fields, f.IsGrouped)
    (r : Registry) : ∃ p, plant parent fields r = .ok p := by
  induction fields generalizing r with
  | nil => exact ⟨_, rfl⟩
  | cons f fields ih =>
    have ih := ih fun f hf => h f (List.mem_cons_of_mem _ hf)
    cases f with
    | one role child =>
      obtain ⟨p, hp⟩ := ih (child.declare r).2
      exact ⟨_, by rw [plant_one, hp, Except.map]⟩
    | group role c members =>
      have hc : c.isGroup = true := h _ List.mem_cons_self
      obtain ⟨p, hp⟩ := ih (declareAll members (r.declare c Registry.groupLabel).2).2
      exact ⟨_, by simp only [plant_group parent role hc, hp, Except.map]; rfl⟩
    | leaf role c label =>
      obtain ⟨p, hp⟩ := ih (r.declare c label).2
      exact ⟨_, by rw [plant_leaf, hp, Except.map]⟩

theorem exists_wireEach_eq_ok {jobs : List (NodeId × Wirer)}
    (h : ∀ job ∈ jobs, ∀ parent r, ∃ p, job.2 parent r = .ok p) (r : Registry) :
    ∃ p, wireEach jobs r = .ok p := by
  induction jobs generalizing r with
  | nil => exact ⟨_, rfl⟩
  | cons job jobs ih =>
    obtain ⟨p, hp⟩ := h job List.mem_cons_self job.1 r
    obtain ⟨q, hq⟩ := ih (fun job hj => h job (List.mem_cons_of_mem _ hj)) p.2
    exact ⟨_, by rw [wireEach_cons, hp, Except.bind, hq, Except.map]⟩

theorem exists_wire_eq_ok {o : Outline} (h : o.WellGrouped) (parent : NodeId) (r : Registry) :
    ∃ p, o.wire parent r = .ok p := by
  induction h generalizing parent r with
  | intro o hf _ ih =>
    obtain ⟨p, hp⟩ := exists_plant_eq_ok parent hf r
    have hjobs : ∀ job ∈ p.1.children.zip (o.children.map wire),
        ∀ parent r, ∃ q, job.2 parent r = .ok q := by
      intro job hj
      obtain ⟨child, hc, he⟩ := List.mem_map.1 (List.of_mem_zip hj).2
      exact he ▸ ih child hc
    obtain ⟨q, hq⟩ := exists_wireEach_eq_ok hjobs p.2
    exact ⟨_, by rw [wire_eq, hp, Except.bind, hq, Except.map]⟩

theorem exists_draw_eq_ok {o : Outline} (h : o.WellGrouped) (r : Registry) :
    ∃ d, o.draw r = .ok d := by
  obtain ⟨p, hp⟩ := exists_wire_eq_ok h (o.declare r).1 (o.declare r).2
  exact ⟨_, by rw [draw_eq, hp, Except.map]⟩

end Outline

end SyntaxChart
