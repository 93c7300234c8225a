import SyntaxChart.Proofs.Declarations
import SyntaxChart.Proofs.Shifting

/-!
# The order of the nodes and the order of the edges

The nodes below a node are declared field by field, the members of a group right behind it. The edges
to them come field by field too, but those to the members of groups come last. So where a group with
members stands in front of another field, the edge to that field's node overtakes those to the
members (`Field.Overtakes`), and the two orders are the same where this happens nowhere
(`Growth.Grown.picked_targets_eq_iff`).

In a script it happens only where names are bound locally: a body overtakes the parameters of a
procedure or the bindings of a let. So without local names the nodes stand in the order of the edges
to them, and with one they do not (`Script.chart_nodes_eq_iff`). But a body is no parameter and no
binding. Within each category the orders agree, and the numbers of a category go up from line to line
(`Script.chart_numbered`).
-/

namespace SyntaxChart

namespace Field

/-- Behind `f`, the field `g` overtakes members of `f`: the edge to its node comes before those to
them. Only categories that `p` picks count. -/
def Overtakes (p : Category → Bool) (g f : Field) : Prop :=
  p g.entry.category = true ∧ ∃ m ∈ f.memberEntries, p m.category = true

end Field

namespace Outline

/-- No node overtakes members of a group, as far as `p` picks their categories. -/
inductive InStep (p : Category → Bool) : Outline → Prop
  | intro (o : Outline) (fields : o.fields.Pairwise fun f g => ¬g.Overtakes p f)
      (children : ∀ child ∈ o.children, InStep p child) : InStep p o

variable {p : Category → Bool}

theorem inStep_iff {o : Outline} :
    o.InStep p ↔ (o.fields.Pairwise fun f g => ¬g.Overtakes p f)
      ∧ ∀ child ∈ o.children, child.InStep p := by
  constructor
  · rintro ⟨_, hfields, hchildren⟩
    exact ⟨hfields, hchildren⟩
  · rintro ⟨hfields, hchildren⟩
    exact ⟨o, hfields, hchildren⟩

end Outline

/-! ## In a growth -/

section Lists

variable {α β : Type*}

/-- Lists without a common element change places only if one of them is empty. -/
theorem append_append_eq_iff {as ms bs cs : List α} (h : as.Disjoint ms) :
    as ++ (ms ++ bs) = ms ++ cs ↔ (as = [] ∨ ms = []) ∧ as ++ bs = cs := by
  rcases as with _ | ⟨a, as⟩
  · simp
  rcases ms with _ | ⟨m, ms⟩
  · simp
  have hne : a ≠ m := fun he => h List.mem_cons_self (he ▸ List.mem_cons_self)
  simp [hne]

theorem flatMap_eq_flatMap_iff {f g : α → List β} : ∀ {as : List α},
    (∀ a ∈ as, (f a).length = (g a).length) →
      (as.flatMap f = as.flatMap g ↔ ∀ a ∈ as, f a = g a)
  | [], _ => by simp
  | a :: as, h => by
    have ih : as.flatMap f = as.flatMap g ↔ ∀ b ∈ as, f b = g b :=
      flatMap_eq_flatMap_iff fun b hb => h b (List.mem_cons_of_mem _ hb)
    rw [List.flatMap_cons, List.flatMap_cons, List.forall_mem_cons, ← ih]
    constructor
    · exact fun heq => List.append_inj heq (h a List.mem_cons_self)
    · rintro ⟨ha, has⟩
      rw [ha, has]

end Lists

section Picked

variable (p : Category → Bool)

/-- The identifiers of the categories that `p` picks. -/
def picked (ids : List NodeId) : List NodeId :=
  ids.filter fun id => p id.category

@[simp]
theorem picked_append (as bs : List NodeId) :
    picked p (as ++ bs) = picked p as ++ picked p bs :=
  List.filter_append as bs

theorem picked_cons_inj {id : NodeId} {as bs : List NodeId} :
    picked p (id :: as) = picked p (id :: bs) ↔ picked p as = picked p bs := by
  simp only [picked, List.filter_cons]
  split <;> simp

theorem picked_map_flatMap {α β : Type*} (f : β → NodeId) (g : α → List β) (as : List α) :
    picked p ((as.flatMap g).map f) = as.flatMap fun a => picked p ((g a).map f) := by
  simp only [picked, List.map_flatMap, List.filter_flatMap]

theorem picked_map_id_eq_nil_iff {ns : List Node} {es : List Entry} (h : ns.map Node.entry = es) :
    picked p (ns.map Node.id) = [] ↔ ∀ e ∈ es, ¬p e.category = true := by
  subst h
  simp [picked, Node.entry]

theorem picked_disjoint {as bs : List NodeId} (h : as.Disjoint bs) :
    (picked p as).Disjoint (picked p bs) := fun _ ha hb =>
  h (List.mem_of_mem_filter ha) (List.mem_of_mem_filter hb)

end Picked

theorem Field.not_overtakes_of_memberEntries_eq_nil {p : Category → Bool} {f : Field}
    (h : f.memberEntries = []) (g : Field) : ¬g.Overtakes p f := by
  rintro ⟨-, m, hm, -⟩
  rw [h] at hm
  cases hm

namespace Planted

variable {parent : NodeId} {fields : List Field} {b : Branches} {nodes : List Node}

theorem disjoint_own (h : Planted parent fields b nodes) {ids : List NodeId}
    (hd : ids.Disjoint (nodes.map Node.id)) : (b.own.map Edge.target).Disjoint ids :=
  fun id hown hid => by
    have hmem : id ∈ (b.own ++ b.fanOut).map Edge.target := by
      rw [List.map_append]
      exact List.mem_append_left _ hown
    exact hd hid (h.targets_perm.mem_iff.1 hmem)

/-- Declaring fields keeps to the order of the edges where no field overtakes members of another. -/
theorem picked_targets_eq_iff (h : Planted parent fields b nodes)
    (hnd : (nodes.map Node.id).Nodup) (p : Category → Bool) :
    picked p ((b.own ++ b.fanOut).map Edge.target) = picked p (nodes.map Node.id)
      ↔ fields.Pairwise fun f g => ¬g.Overtakes p f := by
  induction h with
  | nil => simp
  | one _ _ ih | leaf _ ih =>
    rw [List.map_cons, List.nodup_cons] at hnd
    rw [List.pairwise_cons, ← ih hnd.2]
    refine (picked_cons_inj p).trans (iff_and_self.2 fun _ g _ => ?_)
    exact Field.not_overtakes_of_memberEntries_eq_nil rfl g
  | @group role g members ns fields b nodes hs hrest ih =>
    rw [List.map_cons, List.map_append, List.nodup_cons, List.nodup_append'] at hnd
    obtain ⟨-, -, hnodes, hdisjoint⟩ := hnd
    have hown := picked_disjoint p (hrest.disjoint_own hdisjoint)
    obtain ⟨own, -, -, ho, -, heo, -⟩ := hrest.exists_targets
    -- a field overtakes the members where both are picked
    have hovertakes : (picked p (b.own.map Edge.target) = [] ∨ picked p (ns.map Node.id) = [])
        ↔ ∀ f ∈ fields, ¬f.Overtakes p (.group role g.category members) := by
      rw [ho, picked_map_id_eq_nil_iff p heo, picked_map_id_eq_nil_iff p (map_entry_of_stand hs)]
      constructor
      · rintro (h | h) f hf ⟨hp, m, hm, hpm⟩
        · exact h _ (List.mem_map_of_mem hf) hp
        · exact h m hm hpm
      · intro h
        by_cases hmembers : ∃ m ∈ members.map Outline.entry, p m.category = true
        · refine .inl fun e he hp => ?_
          obtain ⟨f, hf, rfl⟩ := List.mem_map.1 he
          exact h f hf ⟨hp, hmembers⟩
        · exact .inr fun m hm hp => hmembers ⟨m, hm, hp⟩
    rw [List.pairwise_cons, ← hovertakes, ← ih hnodes]
    rw [List.cons_append, List.map_cons, List.map_cons, picked_cons_inj]
    simp only [List.map_append, picked_append, List.map_map]
    exact append_append_eq_iff hown

end Planted

/-- The targets of a growth's edges, in order, are its nodes in the order in which they were
declared, as far as `p` picks their categories, if and only if the outline is in step. -/
theorem Growth.Grown.picked_targets_eq_iff {g : Growth} (h : g.Grown)
    (hnd : (g.nodes.map Node.id).Nodup) (p : Category → Bool) :
    picked p (g.edges.map Edge.target) = picked p (g.nodes.map Node.id) ↔ g.outline.InStep p := by
  induction h with
  | @intro o root b nodes parts hpl houtlines _ hgrown ih =>
    rw [List.map_append, List.nodup_append, List.map_flatMap, List.nodup_flatMap] at hnd
    obtain ⟨hnodes, ⟨hbelow, -⟩, -⟩ := hnd
    have hlength {as bs : List NodeId} (h : as.Perm bs) :
        (picked p as).length = (picked p bs).length := (h.filter _).length_eq
    have hparts : (∀ child ∈ o.children, child.InStep p)
        ↔ ∀ g ∈ parts, picked p (g.edges.map Edge.target) = picked p (g.nodes.map Node.id) := by
      rw [← houtlines, List.forall_mem_map]
      exact forall₂_congr fun g hg => (ih g hg (hbelow g hg)).symm
    rw [Outline.inStep_iff, hparts, ← hpl.picked_targets_eq_iff hnodes p,
      ← flatMap_eq_flatMap_iff fun g hg => hlength (hgrown g hg).targets_perm]
    simp only [List.map_append, picked_append, picked_map_flatMap]
    constructor
    · intro heq
      exact List.append_inj heq (by simpa using hlength hpl.targets_perm)
    · rintro ⟨hown, hchildren⟩
      rw [hown, hchildren]

/-! ## In a script -/

namespace Expr

mutual

/-- Whether a name is bound locally somewhere: by a parameter of a procedure, or by a let. -/
def hasLocals : Expr → Bool
  | lambda params body => !params.isEmpty || anyHasLocals body
  | conditional test consequent alternative =>
    test.hasLocals || consequent.hasLocals || alternative.hasLocals
  | application operator operands => operator.hasLocals || anyHasLocals operands
  | letIn _ bindings body => !bindings.isEmpty || anyHasLocals body
  | assignment _ value => value.hasLocals
  | _ => false

def anyHasLocals : List Expr → Bool
  | [] => false
  | e :: es => e.hasLocals || anyHasLocals es

end

end Expr

def Form.hasLocals : Form → Bool
  | definition _ value => value.hasLocals
  | expression e => e.hasLocals

def Script.hasLocals : Script → Bool
  | program forms => forms.any Form.hasLocals
  | form f => f.hasLocals

section InStep

open Outline

variable {p : Category → Bool}

theorem Outline.inStep_node_iff {c : Category} {label : String} {fields : List Field} :
    (node c label fields).InStep p ↔ (fields.Pairwise fun f g => ¬g.Overtakes p f)
      ∧ ∀ f ∈ fields, ∀ child ∈ f.children, child.InStep p := by
  rw [inStep_iff]
  refine and_congr_right fun _ => ⟨fun h f hf child hc => ?_, fun h child hc => ?_⟩
  · exact h child (List.mem_flatMap.2 ⟨f, hf, hc⟩)
  · obtain ⟨f, hf, hc⟩ := List.mem_flatMap.1 hc
    exact h f hf child hc

/-- Where no field but the last has members, nothing is overtaken. -/
theorem Outline.inStep_node_iff_of_memberEntries {c : Category} {label : String}
    (fields : List Field) {last : Field} (h : ∀ f ∈ fields, f.memberEntries = []) :
    (node c label (fields ++ [last])).InStep p
      ↔ ∀ f ∈ fields ++ [last], ∀ child ∈ f.children, child.InStep p := by
  rw [inStep_node_iff, and_iff_right_iff_imp]
  intro _
  rw [List.pairwise_append]
  refine ⟨List.pairwise_of_forall_mem_list fun f hf g _ => ?_, List.pairwise_singleton _ _,
    fun f hf g _ => ?_⟩ <;> exact Field.not_overtakes_of_memberEntries_eq_nil (h f hf) g

theorem Outline.inStep_showing (c : Category) (text : String) : (showing c text).InStep p := by
  simp [showing, inStep_node_iff]

theorem Datum.inStep_outline (d : Datum) : d.outline.InStep p := by
  induction d with
  | empty => simp [outline, named, inStep_node_iff]
  | symbol name => simp [outline, named, inStep_node_iff, Field.children]
  | pair first rest hfirst hrest =>
    refine (inStep_node_iff_of_memberEntries [_] (by simp [Field.memberEntries])).2 ?_
    simpa [Field.children] using ⟨hfirst, hrest⟩
  | number | boolean | string => exact inStep_showing _ _

/-- Of two groups, the second may overtake the members of the first. -/
theorem Outline.inStep_groups_iff {c d d' : Category} {label role role' : String}
    {ms ms' : List Outline} :
    (node c label [.group role d ms, .group role' d' ms']).InStep p
      ↔ (p d' = true → ∀ m ∈ ms, ¬p m.category = true)
        ∧ (∀ m ∈ ms, m.InStep p) ∧ ∀ m ∈ ms', m.InStep p := by
  simp [inStep_node_iff, Field.Overtakes, Field.memberEntries, Field.entry, Field.children,
    Outline.entry]

theorem Outline.inStep_groups_iff_eq_nil {c d d' : Category} {label role role' : String}
    {ms ms' : List Outline} :
    (node c label [.group role d ms, .group role' d' ms']).InStep (fun _ => true)
      ↔ ms = [] ∧ ∀ m ∈ ms', m.InStep fun _ => true := by
  rw [inStep_groups_iff]
  rcases ms with _ | ⟨m, ms⟩
  · simp
  · exact iff_of_false (fun h => h.1 rfl m List.mem_cons_self rfl) (by simp)

namespace Expr

theorem category_of_mem_bindingOutlines {o : Outline} : ∀ {bindings : List (Binding Expr)},
    o ∈ bindingOutlines bindings → o.category = .binding
  | [], h => by simp [bindingOutlines] at h
  | ⟨name, value⟩ :: bindings, h => by
    rw [bindingOutlines, List.mem_cons] at h
    rcases h with rfl | h
    · rfl
    · exact category_of_mem_bindingOutlines h

theorem inStep_conditional_iff {test consequent alternative : Expr} :
    (conditional test consequent alternative).outline.InStep p
      ↔ test.outline.InStep p ∧ consequent.outline.InStep p ∧ alternative.outline.InStep p := by
  rw [outline]
  refine (inStep_node_iff_of_memberEntries [_, _] (by simp [Field.memberEntries])).trans ?_
  simp [Field.children]

theorem inStep_application_iff {operator : Expr} {operands : List Expr} :
    (application operator operands).outline.InStep p
      ↔ operator.outline.InStep p ∧ ∀ o ∈ outlines operands, o.InStep p := by
  rw [outline]
  refine (inStep_node_iff_of_memberEntries [_] (by simp [Field.memberEntries])).trans ?_
  simp [Field.children]

theorem inStep_assignment_iff {target : String} {value : Expr} :
    (assignment target value).outline.InStep p ↔ value.outline.InStep p := by
  rw [outline]
  refine (inStep_node_iff_of_memberEntries [_] (by simp [Field.memberEntries])).trans ?_
  simp [Field.children]

theorem inStep_quotation (datum : Datum) : (quotation datum).outline.InStep p := by
  rw [outline]
  refine (inStep_node_iff_of_memberEntries [] (by simp)).2 ?_
  simpa [Field.children] using datum.inStep_outline

theorem inStep_binding_iff {name : String} {value : Expr} :
    (named .binding [.one "var" (declarationOutline name), .one "val" value.outline]).InStep p
      ↔ value.outline.InStep p := by
  refine (inStep_node_iff_of_memberEntries [_] (by simp [Field.memberEntries])).trans ?_
  simp [Field.children, declarationOutline, inStep_showing]

mutual

/-- Where `p` does not pick bodies along with parameters or bindings, nothing is overtaken. -/
theorem inStep_outline (h : p .body = true → ¬p .declaration = true ∧ ¬p .binding = true) :
    ∀ e : Expr, e.outline.InStep p
  | lambda params body => by
    rw [outline, named, inStep_groups_iff]
    refine ⟨fun hp m hm => ?_, fun m hm => ?_, inStep_outlines h body⟩
    · obtain ⟨name, -, rfl⟩ := List.mem_map.1 hm
      exact (h hp).1
    · obtain ⟨name, -, rfl⟩ := List.mem_map.1 hm
      exact inStep_showing _ _
  | letIn kind bindings body => by
    rw [outline, named, inStep_groups_iff]
    refine ⟨fun hp m hm => ?_, inStep_bindingOutlines h bindings, inStep_outlines h body⟩
    rw [category_of_mem_bindingOutlines hm]
    exact (h hp).2
  | conditional test consequent alternative =>
    inStep_conditional_iff.2 ⟨inStep_outline h test, inStep_outline h consequent,
      inStep_outline h alternative⟩
  | application operator operands =>
    inStep_application_iff.2 ⟨inStep_outline h operator, inStep_outlines h operands⟩
  | assignment target value => inStep_assignment_iff.2 (inStep_outline h value)
  | quotation datum => inStep_quotation datum
  | number _ | boolean _ | string _ | primitive _ | reference _ => inStep_showing _ _

theorem inStep_outlines (h : p .body = true → ¬p .declaration = true ∧ ¬p .binding = true) :
    ∀ es : List Expr, ∀ o ∈ outlines es, o.InStep p
  | [] => by simp [outlines]
  | e :: es => by
    rw [outlines, List.forall_mem_cons]
    exact ⟨inStep_outline h e, inStep_outlines h es⟩

theorem inStep_bindingOutlines
    (h : p .body = true → ¬p .declaration = true ∧ ¬p .binding = true) :
    ∀ bindings : List (Binding Expr), ∀ o ∈ bindingOutlines bindings, o.InStep p
  | [] => by simp [bindingOutlines]
  | ⟨name, value⟩ :: bindings => by
    rw [bindingOutlines, List.forall_mem_cons, inStep_binding_iff]
    exact ⟨inStep_outline h value, inStep_bindingOutlines h bindings⟩

end

mutual

/-- When all categories count, a body overtakes whatever is bound in front of it. -/
theorem inStep_outline_iff_hasLocals :
    ∀ e : Expr, e.outline.InStep (fun _ => true) ↔ e.hasLocals = false
  | lambda params body => by
    rw [outline, named, inStep_groups_iff_eq_nil, inStep_outlines_iff_hasLocals body, hasLocals,
      Bool.or_eq_false_iff]
    cases params <;> simp
  | letIn kind bindings body => by
    rw [outline, named, inStep_groups_iff_eq_nil, inStep_outlines_iff_hasLocals body, hasLocals,
      Bool.or_eq_false_iff]
    cases bindings <;> simp [bindingOutlines]
  | conditional test consequent alternative => by
    rw [inStep_conditional_iff, inStep_outline_iff_hasLocals test,
      inStep_outline_iff_hasLocals consequent, inStep_outline_iff_hasLocals alternative, hasLocals,
      Bool.or_eq_false_iff, Bool.or_eq_false_iff, and_assoc]
  | application operator operands => by
    rw [inStep_application_iff, inStep_outline_iff_hasLocals operator,
      inStep_outlines_iff_hasLocals operands, hasLocals, Bool.or_eq_false_iff]
  | assignment target value => by
    rw [inStep_assignment_iff, inStep_outline_iff_hasLocals value, hasLocals]
  | quotation datum => iff_of_true (inStep_quotation datum) rfl
  | number _ | boolean _ | string _ | primitive _ | reference _ =>
    iff_of_true (inStep_showing _ _) rfl

theorem inStep_outlines_iff_hasLocals :
    ∀ es : List Expr, (∀ o ∈ outlines es, o.InStep fun _ => true) ↔ anyHasLocals es = false
  | [] => by simp [outlines, anyHasLocals]
  | e :: es => by
    rw [outlines, List.forall_mem_cons, inStep_outline_iff_hasLocals e,
      inStep_outlines_iff_hasLocals es, anyHasLocals, Bool.or_eq_false_iff]

end

end Expr

namespace Form

theorem inStep_definition_iff {name : String} {value : Expr} :
    (definition name value).outline.InStep p ↔ value.outline.InStep p := by
  rw [outline]
  refine (inStep_node_iff_of_memberEntries [_] (by simp [Field.memberEntries])).trans ?_
  simp [Field.children, declarationOutline, inStep_showing]

theorem inStep_outline (h : p .body = true → ¬p .declaration = true ∧ ¬p .binding = true) :
    ∀ f : Form, f.outline.InStep p
  | definition _ value => inStep_definition_iff.2 (value.inStep_outline h)
  | expression e => e.inStep_outline h

theorem inStep_outline_iff_hasLocals :
    ∀ f : Form, f.outline.InStep (fun _ => true) ↔ f.hasLocals = false
  | definition _ value => inStep_definition_iff.trans value.inStep_outline_iff_hasLocals
  | expression e => e.inStep_outline_iff_hasLocals

end Form

namespace Script

theorem inStep_program_iff {forms : List Form} :
    (program forms).outline.InStep p ↔ ∀ f ∈ forms, f.outline.InStep p := by
  rw [outline]
  refine (inStep_node_iff_of_memberEntries [] (by simp)).trans ?_
  simp [Field.children]

theorem inStep_outline (h : p .body = true → ¬p .declaration = true ∧ ¬p .binding = true) :
    ∀ s : Script, s.outline.InStep p
  | program _ => inStep_program_iff.2 fun f _ => f.inStep_outline h
  | form f => f.inStep_outline h

theorem inStep_outline_iff_hasLocals :
    ∀ s : Script, s.outline.InStep (fun _ => true) ↔ s.hasLocals = false
  | program forms => by
    rw [inStep_program_iff, hasLocals, List.any_eq_false]
    exact forall₂_congr fun f _ => f.inStep_outline_iff_hasLocals.trans (by simp)
  | form f => f.inStep_outline_iff_hasLocals

end Script

end InStep

/-! ## In a chart -/

namespace Script

theorem counted (s : Script) : s.drawing.registry.Counted :=
  s.reached.counted

namespace Draws

variable {s : Script} {nodes : List Node} (h : s.Draws nodes)

include h

theorem picked_targets_eq_iff (p : Category → Bool) :
    picked p (s.drawing.wiring.edges.map Edge.target) = picked p (nodes.map Node.id)
      ↔ s.outline.InStep p :=
  h.grown.picked_targets_eq_iff (List.nodup_cons.1 h.nodup).2 p

/-- The identifiers of a category, in the order of the edges, are those from one on. -/
theorem picked_targets (c : Category) :
    picked (fun d => d = c) (s.rootNode.id :: s.drawing.wiring.edges.map Edge.target)
      = (List.range ((s.rootNode :: nodes).countP fun n => n.id.category = c)).map
        fun k => ⟨c, k + 1⟩ := by
  -- a category is not that of a body and of what is bound in front of one
  have hapart : decide (Category.body = c) = true →
      ¬decide (Category.declaration = c) = true ∧ ¬decide (Category.binding = c) = true := by
    rw [decide_eq_true_iff]
    rintro rfl
    decide
  have hbelow := (h.picked_targets_eq_iff fun d => d = c).2 (s.inStep_outline hapart)
  have hids : s.drawing.registry.ids = s.rootNode.id :: nodes.map Node.id := by
    rw [Registry.ids, h.recorded, List.map_cons]
  have hcount : (s.rootNode :: nodes).countP (fun n => n.id.category = c)
      = s.drawing.registry.numbering.count c := by
    rw [← s.counted.minted_eq, Registry.minted, hids, ← List.map_cons, List.countP_map]
    rfl
  calc picked (fun d => d = c) (s.rootNode.id :: s.drawing.wiring.edges.map Edge.target)
      = picked (fun d => d = c) (s.rootNode.id :: nodes.map Node.id) :=
        (picked_cons_inj _).2 hbelow
    _ = s.drawing.registry.ids.filter fun id => id.category = c := by rw [hids, picked]
    _ = _ := by rw [s.counted c, hcount]

end Draws

/-- The text of a chart with edges declares each category's nodes in the order of their numbers. The
first line declares the root and its target and every later line declares its target, and the
identifiers of a category among these are numbered from one to as many as there are, in this order. -/
theorem chart_numbered (s : Script) (d : Direction) {nodes : List Node} {edges : List Edge}
    (h : (s.chart d).content = .compound nodes edges) :
    ∃ (root : Node) (first : Edge × Node) (rest : List (Edge × Node)),
      root.id = s.drawing.root ∧ edges = (first :: rest).map Prod.fst
        ∧ (∀ step ∈ first :: rest, step.1.target = step.2.id)
        ∧ (s.chart d).text = Mermaid.header d ++ "\n".intercalate
          (Mermaid.edgeText (.declaration root) first.1.role (.declaration first.2)
            :: rest.map fun step =>
              Mermaid.edgeText (.reference step.1.source) step.1.role (.declaration step.2))
        ∧ ∀ c, ((root.id :: edges.map Edge.target).filter fun id => id.category = c).map NodeId.text
          = (List.range (nodes.countP fun n => n.id.category = c)).map
            fun k => c.name ++ "_" ++ toString (k + 1) := by
  obtain ⟨below, hd, rfl, rfl, hne⟩ := exists_draws_of_compound h
  obtain ⟨first, rest, he, htargets, -, htext⟩ := hd.chart_text d hne
  refine ⟨s.rootNode, first, rest, hd.root.symm, he, htargets, htext, fun c => ?_⟩
  have hpicked := congrArg (List.map NodeId.text) (hd.picked_targets c)
  rw [List.map_map] at hpicked
  exact hpicked

/-- A procedure of two parameters: its text declares the nodes in an order that is not theirs. -/
theorem chart_numbered_lambda :
    let s := form (.expression (.lambda ["x", "y"] [.reference "x", .reference "y"]))
    ∃ nodes edges, (s.chart .topDown).content = .compound nodes edges
      ∧ nodes.map Node.id = [⟨.procedure, 1⟩, ⟨.params, 1⟩, ⟨.declaration, 1⟩, ⟨.declaration, 2⟩,
        ⟨.body, 1⟩, ⟨.reference, 1⟩, ⟨.reference, 2⟩]
      ∧ ∃ (root : Node) (first : Edge × Node) (rest : List (Edge × Node)),
        root.id = s.drawing.root
        ∧ (first :: rest).map (fun step => step.2.id) = [⟨.params, 1⟩, ⟨.body, 1⟩, ⟨.declaration, 1⟩,
          ⟨.declaration, 2⟩, ⟨.reference, 1⟩, ⟨.reference, 2⟩]
        ∧ (s.chart .topDown).text = Mermaid.header .topDown ++ "\n".intercalate
          (Mermaid.edgeText (.declaration root) first.1.role (.declaration first.2)
            :: rest.map fun step =>
              Mermaid.edgeText (.reference step.1.source) step.1.role (.declaration step.2)) := by
  intro s
  obtain ⟨nodes, edges, hc, hnodes, hedges⟩ : ∃ nodes edges,
      (s.chart .topDown).content = .compound nodes edges
        ∧ nodes.map Node.id = [⟨.procedure, 1⟩, ⟨.params, 1⟩, ⟨.declaration, 1⟩, ⟨.declaration, 2⟩,
          ⟨.body, 1⟩, ⟨.reference, 1⟩, ⟨.reference, 2⟩]
        ∧ edges.map Edge.target = [⟨.params, 1⟩, ⟨.body, 1⟩, ⟨.declaration, 1⟩, ⟨.declaration, 2⟩,
          ⟨.reference, 1⟩, ⟨.reference, 2⟩] := ⟨_, _, rfl, rfl, rfl⟩
  obtain ⟨root, first, rest, hroot, he, htargets, htext, -⟩ := chart_numbered s .topDown hc
  refine ⟨nodes, edges, hc, hnodes, root, first, rest, hroot, ?_, htext⟩
  have hids : (first :: rest).map (fun step => step.2.id)
      = ((first :: rest).map Prod.fst).map Edge.target := by
    rw [List.map_map]
    exact List.map_congr_left fun step hstep => (htargets step hstep).symm
  rw [hids, ← he, hedges]

/-- The nodes of a chart with edges stand in the order of the edges to them, behind the root, if and
only if no name is bound locally. In any case they are the same. -/
theorem chart_nodes_eq_iff (s : Script) (d : Direction) {nodes : List Node} {edges : List Edge}
    (h : (s.chart d).content = .compound nodes edges) :
    (nodes.map Node.id = s.drawing.root :: edges.map Edge.target ↔ s.hasLocals = false)
      ∧ (nodes.map Node.id).Perm (s.drawing.root :: edges.map Edge.target) := by
  obtain ⟨below, hd, rfl, rfl, -⟩ := exists_draws_of_compound h
  have hinStep := hd.picked_targets_eq_iff fun _ => true
  rw [s.inStep_outline_iff_hasLocals, picked, picked, List.filter_true, List.filter_true] at hinStep
  rw [hd.root, List.map_cons]
  refine ⟨?_, hd.targets_perm.symm.cons _⟩
  rw [List.cons.injEq, eq_self, true_and, eq_comm, hinStep]

/-- A call with two groups below it, one of them of operands and one a body without parameters. -/
theorem chart_nodes_eq_application :
    let s := form (.expression (.application (.reference "f")
      [.quotation .empty, .lambda [] [.reference "x"]]))
    s.hasLocals = false
      ∧ ∃ nodes edges, (s.chart .topDown).content = .compound nodes edges
        ∧ nodes.map Node.id = s.drawing.root :: edges.map Edge.target := by
  intro s
  obtain ⟨nodes, edges, hc⟩ : ∃ nodes edges,
      (s.chart .topDown).content = .compound nodes edges := ⟨_, _, rfl⟩
  exact ⟨rfl, nodes, edges, hc, (chart_nodes_eq_iff s .topDown hc).1.2 rfl⟩

/-- The group of a body is declared behind the parameters, and the edge to it comes before those to
the parameters. -/
theorem chart_nodes_ne_lambda :
    let s := form (.expression (.lambda ["x"] [.reference "x"]))
    ∃ nodes edges, (s.chart .topDown).content = .compound nodes edges
      ∧ nodes.map Node.id
        = [⟨.procedure, 1⟩, ⟨.params, 1⟩, ⟨.declaration, 1⟩, ⟨.body, 1⟩, ⟨.reference, 1⟩]
      ∧ s.drawing.root :: edges.map Edge.target
        = [⟨.procedure, 1⟩, ⟨.params, 1⟩, ⟨.body, 1⟩, ⟨.declaration, 1⟩, ⟨.reference, 1⟩]
      ∧ nodes.map Node.id ≠ s.drawing.root :: edges.map Edge.target := by
  intro s
  obtain ⟨nodes, edges, hc, hnodes, hedges⟩ : ∃ nodes edges,
      (s.chart .topDown).content = .compound nodes edges
        ∧ nodes.map Node.id
          = [⟨.procedure, 1⟩, ⟨.params, 1⟩, ⟨.declaration, 1⟩, ⟨.body, 1⟩, ⟨.reference, 1⟩]
        ∧ s.drawing.root :: edges.map Edge.target
          = [⟨.procedure, 1⟩, ⟨.params, 1⟩, ⟨.body, 1⟩, ⟨.declaration, 1⟩, ⟨.reference, 1⟩] :=
    ⟨_, _, rfl, rfl, rfl⟩
  refine ⟨nodes, edges, hc, hnodes, hedges, ?_⟩
  rw [hnodes, hedges]
  decide

end Script

end SyntaxChart
