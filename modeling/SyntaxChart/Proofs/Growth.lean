import SyntaxChart.Outline.Wiring
import SyntaxChart.Proofs.Minting
import Mathlib.Data.List.Flatten
import Mathlib.Data.List.Forall2
import Mathlib.Data.List.Perm.Basic

/-!
# What wiring grows

Wiring an outline below a node declares nodes and gives edges. Which identifiers the nodes get is
the registry's affair; apart from that, `Grown` says what the nodes and edges are, by recursion over
the outline. Every wiring that succeeds is such a growth whose nodes the registry declared
(`Outline.grown_of_wire`). In a growth each new node is the target of one edge
(`Growth.Grown.targets_perm`), and an edge leaves only nodes reached before it
(`Growth.Grown.connected`).
-/

namespace SyntaxChart

theorem Field.sizeOf_lt_of_mem_children {f : Field} {o : Outline} (h : o ∈ f.children) :
    sizeOf o < sizeOf f := by
  cases f with
  | one role child =>
    simp only [children, List.mem_singleton] at h
    subst h
    simp only [Field.one.sizeOf_spec]
    omega
  | group role c members =>
    have := List.sizeOf_lt_of_mem h
    simp only [children, Field.group.sizeOf_spec] at this ⊢
    omega
  | leaf role c label => simp [children] at h

/-- What holds of an outline when it holds of its children holds of every outline. -/
theorem Outline.induction {P : Outline → Prop} (step : ∀ o, (∀ child ∈ o.children, P child) → P o)
    (o : Outline) : P o :=
  step o fun child h => by
    have : sizeOf child < sizeOf o := by
      obtain ⟨f, hf, hc⟩ := List.mem_flatMap.1 h
      have := Field.sizeOf_lt_of_mem_children hc
      cases o with
      | node c label fields =>
        have : sizeOf f < sizeOf fields := List.sizeOf_lt_of_mem hf
        simp only [node.sizeOf_spec]
        omega
    exact Outline.induction step child
termination_by sizeOf o

/-- A node stands for an outline if it has its category and its label. -/
def Node.StandsFor (n : Node) (o : Outline) : Prop :=
  n.id.category = o.category ∧ n.label = o.label

/-- What declaring fields below a parent gives, where the nodes it declares are `nodes`. -/
inductive Planted (parent : NodeId) : List Field → Branches → List Node → Prop
  | nil : Planted parent [] ⟨[], [], []⟩ []
  | one {role : String} {child : Outline} {n : Node} {fields : List Field} {b : Branches}
      {nodes : List Node} (stands : n.StandsFor child) (rest : Planted parent fields b nodes) :
      Planted parent (.one role child :: fields)
        ⟨⟨parent, some role, n.id⟩ :: b.own, b.fanOut, n.id :: b.children⟩ (n :: nodes)
  | group {role : String} {g : NodeId} {members : List Outline} {ns : List Node}
      {fields : List Field} {b : Branches} {nodes : List Node}
      (stand : List.Forall₂ Node.StandsFor ns members) (rest : Planted parent fields b nodes) :
      Planted parent (.group role g.category members :: fields)
        ⟨⟨parent, some role, g⟩ :: b.own, ns.map (fun n => ⟨g, none, n.id⟩) ++ b.fanOut,
          ns.map Node.id ++ b.children⟩
        (⟨g, Registry.groupLabel⟩ :: (ns ++ nodes))
  | leaf {role : String} {n : Node} {fields : List Field} {b : Branches} {nodes : List Node}
      (rest : Planted parent fields b nodes) :
      Planted parent (.leaf role n.id.category n.label :: fields)
        ⟨⟨parent, some role, n.id⟩ :: b.own, b.fanOut, b.children⟩ (n :: nodes)

/-- An outline wired below its root: the nodes below the root, and the edges. -/
structure Growth where
  outline : Outline
  root : NodeId
  nodes : List Node
  edges : List Edge

namespace Growth

/-- The nodes and edges are those of the outline's fields, and then those of each child in order. -/
inductive Grown : Growth → Prop
  | intro {o : Outline} {root : NodeId} {b : Branches} {nodes : List Node} (parts : List Growth)
      (planted : Planted root o.fields b nodes) (outlines : parts.map outline = o.children)
      (roots : parts.map Growth.root = b.children) (grown : ∀ g ∈ parts, Grown g) :
      Grown ⟨o, root, nodes ++ parts.flatMap Growth.nodes,
        b.own ++ b.fanOut ++ parts.flatMap edges⟩

end Growth

/-! ## Wiring is growing -/

section Wiring

open Outline

section

variable {ε α β : Type}

theorem exists_of_bind_eq_ok {x : Except ε α} {f : α → Except ε β} {b : β}
    (h : x.bind f = .ok b) : ∃ a, x = .ok a ∧ f a = .ok b := by
  cases x with
  | error e => cases h
  | ok a => exact ⟨a, rfl, h⟩

theorem exists_of_map_eq_ok {x : Except ε α} {f : α → β} {b : β} (h : x.map f = .ok b) :
    ∃ a, x = .ok a ∧ f a = b := by
  cases x with
  | error e => cases h
  | ok a => exact ⟨a, rfl, Except.ok.inj h⟩

end

theorem declare_declares (o : Outline) (r : Registry) :
    ∃ n : Node, (o.declare r).1 = n.id ∧ n.StandsFor o ∧ r.Declares [n] (o.declare r).2 :=
  ⟨⟨(o.declare r).1, o.label⟩, rfl, ⟨rfl, rfl⟩, .cons (.nil _)⟩

theorem declareAll_declares : ∀ (os : List Outline) (r : Registry),
    ∃ ns : List Node, (declareAll os r).1 = ns.map Node.id ∧ List.Forall₂ Node.StandsFor ns os
      ∧ r.Declares ns (declareAll os r).2
  | [], r => ⟨[], rfl, .nil, .nil r⟩
  | o :: os, r => by
    obtain ⟨n, hid, hn, hd⟩ := declare_declares o r
    obtain ⟨ns, hids, hns, hds⟩ := declareAll_declares os (o.declare r).2
    refine ⟨n :: ns, ?_, .cons hn hns, hd.append hds⟩
    simp only [declareAll, hid, hids, List.map_cons]

theorem planted_of_plant {parent : NodeId} : ∀ {fields : List Field} {r r' : Registry}
    {b : Branches}, plant parent fields r = .ok (b, r') →
      ∃ nodes, Planted parent fields b nodes ∧ r.Declares nodes r'
  | [], r, r', b, h => by
    simp only [plant, Except.ok.injEq, Prod.mk.injEq] at h
    obtain ⟨rfl, rfl⟩ := h
    exact ⟨[], .nil, .nil r⟩
  | .one role child :: fields, r, r', b, h => by
    rw [plant_one] at h
    obtain ⟨n, hid, hn, hd⟩ := declare_declares child r
    obtain ⟨⟨b', r₁⟩, hp, h⟩ := exists_of_map_eq_ok h
    simp only [hid, Prod.mk.injEq] at h
    obtain ⟨rfl, rfl⟩ := h
    obtain ⟨nodes, hpl, hds⟩ := planted_of_plant hp
    exact ⟨n :: nodes, .one hn hpl, hd.append hds⟩
  | .group role c members :: fields, r, r', b, h => by
    rcases hc : c.isGroup with _ | _
    · rw [plant_group_of_not_isGroup _ _ hc] at h
      cases h
    rw [plant_group _ _ hc] at h
    obtain ⟨ns, hids, hns, hd⟩ := declareAll_declares members (r.declare c Registry.groupLabel).2
    obtain ⟨⟨b', r₁⟩, hp, h⟩ := exists_of_map_eq_ok h
    simp only [hids, List.map_map, Prod.mk.injEq] at h
    obtain ⟨rfl, rfl⟩ := h
    obtain ⟨nodes, hpl, hds⟩ := planted_of_plant hp
    exact ⟨_, .group (g := (r.declare c Registry.groupLabel).1) hns hpl, .cons (hd.append hds)⟩
  | .leaf role c label :: fields, r, r', b, h => by
    rw [plant_leaf] at h
    obtain ⟨⟨b', r₁⟩, hp, h⟩ := exists_of_map_eq_ok h
    cases h
    obtain ⟨nodes, hpl, hds⟩ := planted_of_plant hp
    exact ⟨_, .leaf (n := ⟨(r.declare c label).1, label⟩) hpl, .cons hds⟩

theorem Planted.length_children {parent : NodeId} {fields : List Field} {b : Branches}
    {nodes : List Node} (h : Planted parent fields b nodes) :
    b.children.length = (fields.flatMap Field.children).length := by
  induction h with
  | nil => rfl
  | one _ _ ih => simp [Field.children, ih, Nat.add_comm]
  | group hs _ ih => simp [Field.children, ih, hs.length_eq]
  | leaf _ ih => simp [Field.children, ih]

/-- Wiring one outline after the other grows each of them. -/
theorem grown_of_wireEach : ∀ {os : List Outline} {ids : List NodeId} {r r' : Registry} {w : Wiring},
    (∀ o ∈ os, ∀ {root r r' w}, o.wire root r = .ok (w, r') →
      ∃ nodes, Growth.Grown ⟨o, root, nodes, w.edges⟩ ∧ r.Declares nodes r') →
    ids.length = os.length → wireEach (ids.zip (os.map wire)) r = .ok (w, r') →
      ∃ parts : List Growth, parts.map Growth.outline = os ∧ parts.map Growth.root = ids
        ∧ (∀ g ∈ parts, g.Grown) ∧ w.edges = parts.flatMap Growth.edges
        ∧ r.Declares (parts.flatMap Growth.nodes) r'
  | [], [], r, r', w, _, _, h => by
    simp only [List.map_nil, List.zip_nil_right, wireEach, Except.ok.injEq, Prod.mk.injEq] at h
    obtain ⟨rfl, rfl⟩ := h
    exact ⟨[], rfl, rfl, by simp, rfl, .nil r⟩
  | o :: os, id :: ids, r, r', w, hos, hlen, h => by
    rw [List.map_cons, List.zip_cons_cons, wireEach_cons] at h
    obtain ⟨⟨w₁, r₁⟩, ho, h⟩ := exists_of_bind_eq_ok h
    obtain ⟨⟨w₂, r₂⟩, hr, h⟩ := exists_of_map_eq_ok h
    cases h
    obtain ⟨nodes, hg, hd⟩ := hos o List.mem_cons_self ho
    obtain ⟨parts, hpo, hpr, hps, he, hds⟩ :=
      grown_of_wireEach (fun o h => hos o (List.mem_cons_of_mem _ h)) (by simpa using hlen) hr
    refine ⟨⟨o, id, nodes, w₁.edges⟩ :: parts, by simp [hpo], by simp [hpr], ?_, by simp [he],
      hd.append hds⟩
    intro g hm
    rcases List.mem_cons.1 hm with rfl | hm
    · exact hg
    · exact hps g hm

/-- A wiring that succeeds is a growth whose nodes the registry declared, in order. -/
theorem Outline.grown_of_wire (o : Outline) : ∀ {root : NodeId} {r r' : Registry} {w : Wiring},
    o.wire root r = .ok (w, r') →
      ∃ nodes, Growth.Grown ⟨o, root, nodes, w.edges⟩ ∧ r.Declares nodes r' := by
  induction o using Outline.induction with
  | step o ih =>
    intro root r r' w h
    rw [wire_eq] at h
    obtain ⟨⟨b, r₁⟩, hp, h⟩ := exists_of_bind_eq_ok h
    obtain ⟨⟨w', r₂⟩, hw, h⟩ := exists_of_map_eq_ok h
    cases h
    obtain ⟨nodes, hpl, hd⟩ := planted_of_plant hp
    obtain ⟨parts, hpo, hpr, hps, he, hds⟩ := grown_of_wireEach ih hpl.length_children hw
    refine ⟨_, ?_, hd.append hds⟩
    rw [he]
    exact .intro parts hpl hpo hpr hps

end Wiring

/-! ## The edges of a growth -/

/-- Every edge leaves a known node or the target of an edge before it. -/
def Connected : List NodeId → List Edge → Prop
  | _, [] => True
  | known, e :: es => e.source ∈ known ∧ Connected (e.target :: known) es

namespace Connected

theorem mono : ∀ {es : List Edge} {known known' : List NodeId}, known ⊆ known' →
    Connected known es → Connected known' es
  | [], _, _, _, _ => trivial
  | _ :: _, _, _, hk, h => ⟨hk h.1, mono (List.cons_subset_cons _ hk) h.2⟩

theorem append : ∀ {es fs : List Edge} {known : List NodeId}, Connected known es →
    Connected (es.map Edge.target ++ known) fs → Connected known (es ++ fs)
  | [], _, _, _, h => h
  | e :: es, fs, known, h, h' =>
    ⟨h.1, append h.2 (h'.mono fun id hid => by
      simp only [List.map_cons, List.cons_append, List.mem_cons, List.mem_append] at hid ⊢
      tauto)⟩

theorem of_source_mem : ∀ {es : List Edge} {known : List NodeId},
    (∀ e ∈ es, e.source ∈ known) → Connected known es
  | [], _, _ => trivial
  | _ :: _, _, h =>
    ⟨h _ List.mem_cons_self, of_source_mem fun f hf =>
      List.mem_cons_of_mem _ (h f (List.mem_cons_of_mem _ hf))⟩

theorem flatMap {α : Type*} {f : α → List Edge} : ∀ {as : List α} {known : List NodeId},
    (∀ a ∈ as, Connected known (f a)) → Connected known (as.flatMap f)
  | [], _, _ => trivial
  | a :: as, known, h => by
    rw [List.flatMap_cons]
    refine (h a List.mem_cons_self).append (flatMap fun b hb => ?_)
    exact (h b (List.mem_cons_of_mem _ hb)).mono (List.subset_append_right _ _)

/-- A source is a known node or a target in front of its edge. -/
theorem source_mem {e : Edge} {fs : List Edge} : ∀ {es : List Edge} {known : List NodeId},
    Connected known (es ++ e :: fs) → e.source ∈ known ++ es.map Edge.target
  | [], _, h => by simpa using h.1
  | _ :: _, _, h => by
    have := source_mem h.2
    simp only [List.map_cons, List.cons_append, List.mem_cons, List.mem_append] at this ⊢
    tauto

end Connected

namespace Planted

variable {parent : NodeId} {fields : List Field} {b : Branches} {nodes : List Node}

theorem source_own (h : Planted parent fields b nodes) : ∀ e ∈ b.own, e.source = parent := by
  induction h <;> simp_all

theorem source_fanOut (h : Planted parent fields b nodes) :
    ∀ e ∈ b.fanOut, e.source ∈ b.own.map Edge.target := by
  induction h with
  | nil => simp
  | one _ _ ih | leaf _ ih =>
    intro e he
    exact List.mem_cons_of_mem _ (ih e he)
  | group _ _ ih =>
    intro e he
    rcases List.mem_append.1 he with he | he
    · obtain ⟨n, -, rfl⟩ := List.mem_map.1 he
      exact List.mem_cons_self
    · exact List.mem_cons_of_mem _ (ih e he)

theorem children_sublist (h : Planted parent fields b nodes) :
    b.children.Sublist (nodes.map Node.id) := by
  induction h with
  | nil => exact .slnil
  | one _ _ ih => exact ih.cons_cons _
  | group _ _ ih =>
    rw [List.map_cons, List.map_append]
    exact (ih.append_left _).cons _
  | leaf _ ih => exact ih.cons _

/-- The declared nodes are the targets of the branches, each once. -/
theorem targets_perm (h : Planted parent fields b nodes) :
    ((b.own ++ b.fanOut).map Edge.target).Perm (nodes.map Node.id) := by
  induction h with
  | nil => exact .nil
  | one _ _ ih | leaf _ ih => exact ih.cons _
  | @group role g members ns fields b nodes _ _ ih =>
    simp only [List.map_append, List.map_cons, List.cons_append, List.map_map] at ih ⊢
    refine .cons _ (List.perm_append_comm_assoc _ _ _ |>.trans ?_)
    exact ih.append_left _

end Planted

namespace Growth

/-- Each new node is the target of one edge, and nothing else is a target. -/
theorem Grown.targets_perm {g : Growth} (h : g.Grown) :
    (g.edges.map Edge.target).Perm (g.nodes.map Node.id) := by
  induction h with
  | @intro o root b nodes parts hpl _ _ _ ih =>
    have hbelow : ((parts.flatMap edges).map Edge.target).Perm
        ((parts.flatMap Growth.nodes).map Node.id) := by
      rw [List.map_flatMap, List.map_flatMap]
      exact List.Perm.flatMap_left _ ih
    simpa only [List.map_append] using hpl.targets_perm.append hbelow

/-- From the root on, every edge leaves a node that was reached before. -/
theorem Grown.connected {g : Growth} (h : g.Grown) : Connected [g.root] g.edges := by
  induction h with
  | @intro o root b nodes parts hpl _ hroots _ ih =>
    have hbranches : Connected [root] (b.own ++ b.fanOut) := by
      refine .append (.of_source_mem fun e he => ?_) (.of_source_mem fun e he => ?_)
      · rw [hpl.source_own e he]
        exact List.mem_cons_self
      · exact List.mem_append_left _ (hpl.source_fanOut e he)
    refine hbranches.append (.flatMap fun g hg => (ih g hg).mono ?_)
    have hroot : g.root ∈ b.children := hroots ▸ List.mem_map_of_mem hg
    have hmem := hpl.targets_perm.mem_iff.2 (hpl.children_sublist.subset hroot)
    simpa using List.mem_append_left [root] hmem

def ids (g : Growth) : List NodeId :=
  g.root :: g.nodes.map Node.id

theorem Grown.source_mem_ids {g : Growth} (h : g.Grown) {e : Edge} (he : e ∈ g.edges) :
    e.source ∈ g.ids := by
  obtain ⟨es, fs, heq⟩ := List.append_of_mem he
  have hs := Connected.source_mem (heq ▸ h.connected)
  rcases List.mem_append.1 hs with hs | hs
  · exact List.mem_cons.2 (.inl (List.mem_singleton.1 hs))
  · refine List.mem_cons_of_mem _ (h.targets_perm.mem_iff.1 ?_)
    rw [heq, List.map_append]
    exact List.mem_append_left _ hs

end Growth

end SyntaxChart
