import SyntaxChart.Proofs.Recording

/-!
# Drawing behind other drawings

An outline drawn into a registry that is not empty is drawn as into an empty one, but for the
numbers: each is greater by how many identifiers of its category were there before. So the same
outline drawn twice gives two trees apart from each other, one the other under new identifiers
(`Outline.draw_shift`).

The two runs go in step. At each point the one registry is ahead of the other by the same counts
(`Registry.Ahead`), so what is declared next differs by just these.
-/

namespace SyntaxChart

/-- The identifier with a number greater by what `n` says of its category. -/
def NodeId.shift (n : Category → Nat) (id : NodeId) : NodeId :=
  ⟨id.category, id.index + n id.category⟩

theorem NodeId.shift_shift (m n : Category → Nat) (id : NodeId) :
    (id.shift n).shift m = id.shift fun c => m c + n c := by
  simp only [shift, Nat.add_assoc, Nat.add_comm (m _)]

theorem NodeId.shift_injective (n : Category → Nat) : (shift n).Injective := by
  rintro ⟨c, i⟩ ⟨d, j⟩ h
  simp only [shift, mk.injEq] at h
  obtain ⟨rfl, h⟩ := h
  rw [Nat.add_right_cancel h]

section Rename

variable (f g : NodeId → NodeId)

def Node.rename (n : Node) : Node := ⟨f n.id, n.label⟩

def Edge.rename (e : Edge) : Edge := ⟨f e.source, e.role, f e.target⟩

def Branches.rename (b : Branches) : Branches :=
  ⟨b.own.map (Edge.rename f), b.fanOut.map (Edge.rename f), b.children.map f⟩

def Wiring.rename (w : Wiring) : Wiring :=
  ⟨w.edges.map (Edge.rename f), w.visits.map f⟩

theorem map_rename_rename (nodes : List Node) :
    (nodes.map (Node.rename f)).map (Node.rename g) = nodes.map (Node.rename (g ∘ f)) := by
  rw [List.map_map]
  rfl

theorem Wiring.rename_rename (w : Wiring) : (w.rename f).rename g = w.rename (g ∘ f) := by
  simp only [rename, List.map_map]
  rfl

end Rename

namespace Registry

/-- The registry `r'` holds the nodes `before` and then those of `r`, shifted by `n`, and is as far
ahead with its counts. -/
structure Ahead (n : Category → Nat) (before : List Node) (r r' : Registry) : Prop where
  count : ∀ c, r'.numbering.count c = r.numbering.count c + n c
  nodes : r'.nodes.toList = before ++ r.nodes.toList.map (Node.rename (NodeId.shift n))

theorem ahead_empty (r : Registry) : Ahead r.numbering.count r.nodes.toList empty r where
  count c := by rw [empty, Numbering.count_empty, Nat.zero_add]
  nodes := by simp [empty]

namespace Ahead

variable {n : Category → Nat} {before : List Node} {r r' : Registry}

theorem declare_fst (h : Ahead n before r r') (c : Category) (label : String) :
    (r'.declare c label).1 = (r.declare c label).1.shift n := by
  simp only [Registry.declare, Numbering.next, NodeId.shift, h.count c, Nat.add_right_comm]

theorem declare (h : Ahead n before r r') (c : Category) (label : String) :
    Ahead n before (r.declare c label).2 (r'.declare c label).2 where
  count d := by
    have hcount (s : Registry) : (s.declare c label).2.numbering.count d
        = s.numbering.count d + if d = c then 1 else 0 := Numbering.count_next _ c d
    rw [hcount, hcount, h.count d, Nat.add_right_comm]
  nodes := by
    rw [declare_nodes, declare_nodes, h.nodes, h.declare_fst, List.map_append, List.append_assoc]
    rfl

end Ahead

end Registry

/-! ## Wiring in step -/

namespace Outline

variable {n : Category → Nat} {before : List Node}

theorem declareAll_shift : ∀ (os : List Outline) {r r' : Registry}, Registry.Ahead n before r r' →
    (declareAll os r').1 = (declareAll os r).1.map (NodeId.shift n)
      ∧ Registry.Ahead n before (declareAll os r).2 (declareAll os r').2
  | [], _, _, h => ⟨rfl, h⟩
  | o :: os, r, r', h => by
    obtain ⟨hids, hahead⟩ := declareAll_shift os (h.declare o.category o.label)
    refine ⟨?_, hahead⟩
    simp only [declareAll, declare, List.map_cons] at hids ⊢
    rw [hids, h.declare_fst]

theorem plant_shift {parent : NodeId} : ∀ {fields : List Field} {r r' s : Registry} {b : Branches},
    Registry.Ahead n before r r' → plant parent fields r = .ok (b, s) →
      ∃ s', plant (parent.shift n) fields r' = .ok (b.rename (NodeId.shift n), s')
        ∧ Registry.Ahead n before s s'
  | [], r, r', s, b, h, hp => by
    cases hp
    exact ⟨r', rfl, h⟩
  | .one role child :: fields, r, r', s, b, h, hp => by
    rw [plant_one] at hp
    obtain ⟨⟨b', s⟩, hrest, he⟩ := exists_of_map_eq_ok hp
    cases he
    obtain ⟨s', hs, hahead⟩ := plant_shift (h.declare child.category child.label) hrest
    refine ⟨s', ?_, hahead⟩
    rw [plant_one, declare, hs, h.declare_fst]
    rfl
  | .group role c members :: fields, r, r', s, b, h, hp => by
    rcases hc : c.isGroup with _ | _
    · rw [plant_group_of_not_isGroup _ _ hc] at hp
      cases hp
    rw [plant_group _ _ hc] at hp
    obtain ⟨⟨b', s⟩, hrest, he⟩ := exists_of_map_eq_ok hp
    cases he
    obtain ⟨hids, hmembers⟩ := declareAll_shift members (h.declare c Registry.groupLabel)
    obtain ⟨s', hs, hahead⟩ := plant_shift hmembers hrest
    refine ⟨s', ?_, hahead⟩
    rw [plant_group _ _ hc]
    simp only [hs, hids, h.declare_fst, Except.map, Branches.rename, List.map_append, List.map_cons,
      List.map_map]
    rfl
  | .leaf role c label :: fields, r, r', s, b, h, hp => by
    rw [plant_leaf] at hp
    obtain ⟨⟨b', s⟩, hrest, he⟩ := exists_of_map_eq_ok hp
    cases he
    obtain ⟨s', hs, hahead⟩ := plant_shift (h.declare c label) hrest
    refine ⟨s', ?_, hahead⟩
    rw [plant_leaf, hs, h.declare_fst]
    rfl

/-- Where the outline is wired, it is wired ahead in the same way. -/
def WiresShifted (n : Category → Nat) (before : List Node) (o : Outline) : Prop :=
  ∀ {parent : NodeId} {r r' s : Registry} {w : Wiring}, Registry.Ahead n before r r' →
    o.wire parent r = .ok (w, s) →
      ∃ s', o.wire (parent.shift n) r' = .ok (w.rename (NodeId.shift n), s')
        ∧ Registry.Ahead n before s s'

theorem wireEach_shift : ∀ {os : List Outline} {ids : List NodeId} {r r' s : Registry} {w : Wiring},
    (∀ o ∈ os, WiresShifted n before o) → Registry.Ahead n before r r' →
      wireEach (ids.zip (os.map wire)) r = .ok (w, s) →
        ∃ s', wireEach ((ids.map (NodeId.shift n)).zip (os.map wire)) r'
            = .ok (w.rename (NodeId.shift n), s')
          ∧ Registry.Ahead n before s s'
  | [], ids, r, r', s, w, _, h, hw => by
    rw [List.map_nil, List.zip_nil_right] at hw ⊢
    cases hw
    exact ⟨r', rfl, h⟩
  | _ :: _, [], r, r', s, w, _, h, hw => by
    cases hw
    exact ⟨r', rfl, h⟩
  | o :: os, id :: ids, r, r', s, w, hos, h, hw => by
    rw [List.map_cons, List.zip_cons_cons, wireEach_cons] at hw
    obtain ⟨⟨w₁, s₁⟩, ho, hw⟩ := exists_of_bind_eq_ok hw
    obtain ⟨⟨w₂, s₂⟩, hr, hw⟩ := exists_of_map_eq_ok hw
    cases hw
    obtain ⟨s₁', hs₁, hahead⟩ := hos o List.mem_cons_self h ho
    obtain ⟨s₂', hs₂, hahead⟩ :=
      wireEach_shift (fun o ho => hos o (List.mem_cons_of_mem _ ho)) hahead hr
    refine ⟨s₂', ?_, hahead⟩
    simp only [List.map_cons, List.zip_cons_cons, wireEach_cons, hs₁, hs₂, Except.bind, Except.map,
      Wiring.rename, List.map_append]

theorem wire_shift (o : Outline) : WiresShifted n before o := by
  induction o using Outline.induction with
  | step o ih =>
    intro parent r r' s w h hw
    rw [wire_eq] at hw
    obtain ⟨⟨b, s₁⟩, hp, hw⟩ := exists_of_bind_eq_ok hw
    obtain ⟨⟨w', s₂⟩, he, hw⟩ := exists_of_map_eq_ok hw
    cases hw
    obtain ⟨s₁', hs₁, hahead⟩ := plant_shift h hp
    obtain ⟨s₂', hs₂, hahead⟩ := wireEach_shift ih hahead he
    refine ⟨s₂', ?_, hahead⟩
    rw [wire_eq]
    simp only [hs₁, Except.bind, Branches.rename, hs₂, Except.map, Wiring.rename, List.map_append,
      List.map_cons]

theorem exists_draw_of_ahead {o : Outline} {r r' : Registry} {d : Drawing}
    (h : Registry.Ahead n before r r') (hd : o.draw r = .ok d) :
    ∃ d', o.draw r' = .ok d' ∧ d'.root = d.root.shift n
      ∧ d'.wiring = d.wiring.rename (NodeId.shift n)
      ∧ Registry.Ahead n before d.registry d'.registry := by
  rw [draw_eq] at hd
  obtain ⟨⟨w, s⟩, hw, hd⟩ := exists_of_map_eq_ok hd
  cases hd
  have hroot : (o.declare r').1 = (o.declare r).1.shift n := h.declare_fst o.category o.label
  obtain ⟨s', hs, hahead⟩ := o.wire_shift (h.declare o.category o.label) hw
  refine ⟨⟨(o.declare r).1.shift n, w.rename (NodeId.shift n), s'⟩, ?_, rfl, rfl, hahead⟩
  rw [draw_eq, hroot]
  exact congrArg (Except.map _) hs

end Outline

/-! ## Two drawings of one outline -/

/-- A drawing adds its root and the nodes `below` to those of a registry, as a tree. -/
structure Drawing.AddsTree (d : Drawing) (r : Registry) (label : String) (below : List Node) :
    Prop where
  nodes : d.registry.nodes.toList = r.nodes.toList ++ ⟨d.root, label⟩ :: below
  tree : HangsTree d.root (below.map Node.id) d.wiring.edges

theorem Outline.exists_addsTree {o : Outline} {r : Registry} {d : Drawing} (hr : r.Reached)
    (hd : o.draw r = .ok d) : d.registry.Reached ∧ ∃ below, d.AddsTree r o.label below := by
  rw [draw_eq] at hd
  obtain ⟨⟨w, s⟩, hw, hd⟩ := exists_of_map_eq_ok hd
  cases hd
  obtain ⟨below, hg, hdecl⟩ := grown_of_wire o hw
  have hdecl : r.Declares (⟨(o.declare r).1, o.label⟩ :: below) s := .cons hdecl
  obtain ⟨-, hnd, -⟩ := List.nodup_append.1 (hdecl.nodup hr.sound)
  exact ⟨.wire (.declare _ _ hr) hw, below, hdecl.toList_nodes, hg.hangsTree hnd⟩

theorem Script.reached (s : Script) : s.drawing.registry.Reached :=
  (Outline.exists_addsTree .empty s.draw_outline_eq).1

/-- The drawing `d'` comes behind `d` in a registry and is the same tree under other identifiers,
apart from the first. -/
structure Drawing.Repeats (d : Drawing) (r : Registry) (label : String) (below : List Node)
    (f : NodeId → NodeId) (d' : Drawing) : Prop where
  first : d.AddsTree r label below
  second : d'.AddsTree d.registry label (below.map (Node.rename f))
  injective : f.Injective
  root : d'.root = f d.root
  edges : d'.wiring.edges = d.wiring.edges.map (Edge.rename f)
  disjoint : List.Disjoint (d.root :: below.map Node.id) (d'.root :: below.map fun n => f n.id)

/-- What a registry hands out later is none of what a drawing has got. -/
theorem Drawing.AddsTree.disjoint {r : Registry} {d d' : Drawing} {label : String}
    {below below' : List Node} (h : d.AddsTree r label below)
    (h' : d'.AddsTree d.registry label below') (hr : d'.registry.Sound) :
    List.Disjoint (d.root :: below.map Node.id) (d'.root :: below'.map Node.id) := by
  have hnd := hr.nodup
  rw [Registry.ids, h'.nodes, h.nodes, List.map_append, List.map_append, List.nodup_append] at hnd
  intro id hid hid'
  exact hnd.2.2 id (List.mem_append_right _ hid) id hid' rfl

/-- An outline drawn into a registry, after whatever was done with it before, gives what it gives in
an empty one, shifted in each category by what was handed out before. What was there stays in front,
and drawn once more the outline gives the same tree again under other identifiers. -/
theorem Outline.draw_shift {r : Registry} (hr : r.Reached) {o : Outline} (ho : o.WellGrouped) :
    ∃ fresh d d' : Drawing, o.draw .empty = .ok fresh ∧ o.draw r = .ok d
      ∧ o.draw d.registry = .ok d'
      ∧ d.root = fresh.root.shift r.minted
      ∧ d.wiring.edges = fresh.wiring.edges.map (Edge.rename (NodeId.shift r.minted))
      ∧ d.registry.nodes.toList
        = r.nodes.toList ++ fresh.registry.nodes.toList.map (Node.rename (NodeId.shift r.minted))
      ∧ ∃ below, d.Repeats r o.label below (NodeId.shift fresh.registry.minted) d' := by
  obtain ⟨fresh, hfresh⟩ := exists_draw_eq_ok ho .empty
  obtain ⟨hfreshReached, -⟩ := exists_addsTree .empty hfresh
  obtain ⟨d, hd, hroot, hwiring, hahead⟩ := exists_draw_of_ahead r.ahead_empty hfresh
  obtain ⟨hreached, below, hfirst⟩ := exists_addsTree hr hd
  obtain ⟨d', hd', hroot', hwiring', hahead'⟩ := exists_draw_of_ahead d.registry.ahead_empty hfresh
  obtain ⟨hreached', below', hsecond⟩ := exists_addsTree hreached hd'
  refine ⟨fresh, d, d', hfresh, hd, hd', ?_⟩
  rw [hr.counted.minted_eq, hfreshReached.counted.minted_eq]
  -- the second drawing is shifted by the registry before the first, and then by the first
  have hshift : NodeId.shift d.registry.numbering.count
      = NodeId.shift fresh.registry.numbering.count ∘ NodeId.shift r.numbering.count := by
    funext id
    rw [Function.comp_apply, NodeId.shift_shift, funext hahead.count]
  have hadded : fresh.registry.nodes.toList.map (Node.rename (NodeId.shift r.numbering.count))
      = ⟨d.root, o.label⟩ :: below :=
    List.append_cancel_left (hahead.nodes.symm.trans hfirst.nodes)
  have hroots : d'.root = d.root.shift fresh.registry.numbering.count := by
    rw [hroot', hshift, hroot, Function.comp_apply]
  have hbelow : below' = below.map (Node.rename (NodeId.shift fresh.registry.numbering.count)) := by
    have h := hahead'.nodes
    rw [hshift, ← map_rename_rename, hadded, hsecond.nodes] at h
    exact (List.cons.inj (List.append_cancel_left h)).2
  subst hbelow
  refine ⟨hroot, ?_, hahead.nodes, below, ?_⟩
  · rw [hwiring]
    rfl
  · refine ⟨hfirst, hsecond, NodeId.shift_injective _, hroots, ?_, ?_⟩
    · rw [hwiring', hshift, ← Wiring.rename_rename, ← hwiring]
      rfl
    · have := hfirst.disjoint hsecond hreached'.sound
      rwa [List.map_map] at this

/-- Behind a binding and a group, a binding with a group, a child and a leaf, drawn twice. -/
theorem Outline.draw_shift_binding :
    let r := ((Registry.empty.declare .binding "a").2.declare .bindings Registry.groupLabel).2
    let o := node .binding "b" [.group "in" .bindings [showing .binding "c"],
      .one "to" (showing .declaration "d"), .leaf "of" .binding "e"]
    r.Reached ∧ o.WellGrouped
      ∧ ∃ fresh d d' below, o.draw .empty = .ok fresh ∧ o.draw r = .ok d
        ∧ o.draw d.registry = .ok d'
        ∧ d.Repeats r o.label below (NodeId.shift fresh.registry.minted) d'
        ∧ d'.registry.ids = [⟨.binding, 1⟩, ⟨.bindings, 1⟩,
          ⟨.binding, 2⟩, ⟨.bindings, 2⟩, ⟨.binding, 3⟩, ⟨.declaration, 1⟩, ⟨.binding, 4⟩,
          ⟨.binding, 5⟩, ⟨.bindings, 3⟩, ⟨.binding, 6⟩, ⟨.declaration, 2⟩, ⟨.binding, 7⟩] := by
  intro r o
  have hr : r.Reached := .declare _ _ (.declare _ _ .empty)
  have ho : o.WellGrouped := by
    simp [o, wellGrouped_node_iff, Field.IsGrouped, Field.children, Category.isGroup, showing]
  obtain ⟨fresh, d, d', hfresh, hd, hd', -, -, -, below, hrepeats⟩ := draw_shift hr ho
  have hids : ((o.draw r).bind fun d => o.draw d.registry).toOption.map (·.registry.ids) =
      some [⟨.binding, 1⟩, ⟨.bindings, 1⟩,
        ⟨.binding, 2⟩, ⟨.bindings, 2⟩, ⟨.binding, 3⟩, ⟨.declaration, 1⟩, ⟨.binding, 4⟩,
        ⟨.binding, 5⟩, ⟨.bindings, 3⟩, ⟨.binding, 6⟩, ⟨.declaration, 2⟩, ⟨.binding, 7⟩] := by
    decide +kernel
  rw [hd, Except.bind, hd'] at hids
  exact ⟨hr, ho, fresh, d, d', below, hfresh, hd, hd', hrepeats, Option.some.inj hids⟩

end SyntaxChart
