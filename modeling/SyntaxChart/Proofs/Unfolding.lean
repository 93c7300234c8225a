import SyntaxChart.Proofs.Drawing
import SyntaxChart.Proofs.Tree
import Mathlib.Algebra.GroupWithZero.Nat

/-!
# Unfolding a chart

Following the edges from a node, each time in order, unfolds a chart to a tree. A node unfolds to at
most one tree (`Chart.Unfolds.unique`), and in a cycle to none. The root of a script's chart unfolds
to the script's tree.

The argument is local: of the edges that leave an identifier, all stand in the one growth whose
identifiers it belongs to, since no two growths share one (`outgoing_part`).
-/

namespace SyntaxChart

/-- The edges that leave a node, found by the text of its identifier, in order. -/
def outgoing (es : List Edge) (id : NodeId) : List Edge :=
  es.filter fun e => e.source.text = id.text

theorem outgoing_append (es fs : List Edge) (id : NodeId) :
    outgoing (es ++ fs) id = outgoing es id ++ outgoing fs id :=
  List.filter_append _ _

theorem outgoing_eq_nil {es : List Edge} {id : NodeId} (h : ∀ e ∈ es, e.source ≠ id) :
    outgoing es id = [] := by
  rw [outgoing, List.filter_eq_nil_iff]
  intro e he
  simpa [NodeId.text_inj] using h e he

theorem outgoing_eq_self {es : List Edge} {id : NodeId} (h : ∀ e ∈ es, e.source = id) :
    outgoing es id = es := by
  rw [outgoing, List.filter_eq_self]
  intro e he
  simp [h e he]

namespace Chart

inductive Unfolds (chart : Chart) : NodeId → Tree → Prop
  | node {id : NodeId} {n : Node} (steps : List (Edge × Tree)) (declared : chart.node? id = some n)
      (edges : steps.map Prod.fst = outgoing chart.edges id)
      (below : ∀ step ∈ steps, Unfolds chart step.1.target step.2) :
      Unfolds chart id
        (.node id.category.name n.label (steps.map fun step => (step.1.role, step.2)))

def UnfoldsTo (chart : Chart) (e : Edge) (branch : Option String × Tree) : Prop :=
  e.role = branch.1 ∧ chart.Unfolds e.target branch.2

theorem Unfolds.of_forall₂ {chart : Chart} {id : NodeId} {n : Node}
    {branches : List (Option String × Tree)} (hn : chart.node? id = some n)
    (h : List.Forall₂ chart.UnfoldsTo (outgoing chart.edges id) branches) :
    chart.Unfolds id (.node id.category.name n.label branches) := by
  obtain ⟨steps, hs, hb, hu⟩ : ∃ steps : List (Edge × Tree),
      steps.map Prod.fst = outgoing chart.edges id
        ∧ steps.map (fun step => (step.1.role, step.2)) = branches
        ∧ ∀ step ∈ steps, chart.Unfolds step.1.target step.2 := by
    generalize outgoing chart.edges id = es at h
    induction h with
    | nil => exact ⟨[], rfl, rfl, by simp⟩
    | @cons e b es bs he _ ih =>
      obtain ⟨steps, hs, hb, hu⟩ := ih
      obtain ⟨role, t⟩ := b
      refine ⟨(e, t) :: steps, by simp [hs], by simp [hb, he.1], fun step hstep => ?_⟩
      rcases List.mem_cons.1 hstep with rfl | hstep
      · exact he.2
      · exact hu step hstep
  exact hb ▸ .node steps hn hs hu

/-- A node unfolds to one tree at most. -/
theorem Unfolds.unique {chart : Chart} {id : NodeId} {t : Tree} (h : chart.Unfolds id t) :
    ∀ {t' : Tree}, chart.Unfolds id t' → t = t' := by
  induction h with
  | @node id n steps hn hs _ ih =>
    rintro _ ⟨steps', hn', hs', hbelow⟩
    obtain rfl := Option.some.inj (hn.symm.trans hn')
    have hsteps : steps = steps' := by
      refine List.ext_getElem ?_ fun i hi hi' => ?_
      · simpa using congrArg List.length (hs.trans hs'.symm)
      · have he : steps[i].1 = steps'[i].1 := by
          have := hs.trans hs'.symm
          simpa [hi, hi'] using congrArg (·[i]?) this
        refine Prod.ext he (ih _ (List.getElem_mem hi) ?_)
        rw [he]
        exact hbelow _ (List.getElem_mem hi')
    rw [hsteps]

/-- Unfolding goes by the edges in their order, and by the nodes in any order. -/
theorem Unfolds.of_edges_eq {chart chart' : Chart} (he : chart.edges = chart'.edges)
    (hn : ∀ id n, chart.node? id = some n → chart'.node? id = some n) {id : NodeId} {t : Tree}
    (h : chart.Unfolds id t) : chart'.Unfolds id t := by
  induction h with
  | node steps declared edges _ ih => exact .node steps (hn _ _ declared) (he ▸ edges) ih

end Chart

/-! ## Growths do not share identifiers -/

namespace Growth

/-- Of growths side by side that share no identifier, the edges that leave one of them are its. -/
theorem outgoing_part : ∀ {parts : List Growth} {g : Growth} {id : NodeId},
    (∀ g ∈ parts, g.Grown) → (parts.flatMap ids).Nodup → g ∈ parts → id ∈ g.ids →
      outgoing (parts.flatMap edges) id = outgoing g.edges id
  | p :: parts, g, id, hg, hnd, hmem, hid => by
    rw [List.flatMap_cons, List.nodup_append] at hnd
    obtain ⟨-, hnd, hdisj⟩ := hnd
    rw [List.flatMap_cons, outgoing_append]
    rcases List.mem_cons.1 hmem with rfl | hmem
    · have hothers : outgoing (parts.flatMap edges) id = [] := by
        refine outgoing_eq_nil ?_
        rintro e he rfl
        obtain ⟨q, hq, he⟩ := List.mem_flatMap.1 he
        have := (hg q (List.mem_cons_of_mem _ hq)).source_mem_ids he
        exact hdisj _ hid _ (List.mem_flatMap.2 ⟨q, hq, this⟩) rfl
      rw [hothers, List.append_nil]
    · have hfirst : outgoing p.edges id = [] := by
        refine outgoing_eq_nil ?_
        rintro e he rfl
        have := (hg p List.mem_cons_self).source_mem_ids he
        exact hdisj _ this _ (List.mem_flatMap.2 ⟨g, hmem, hid⟩) rfl
      rw [hfirst, List.nil_append]
      exact outgoing_part (fun q hq => hg q (List.mem_cons_of_mem _ hq)) hnd hmem hid

end Growth

/-! ## A growth unfolds to its outline's tree -/

namespace Planted

variable {parent : NodeId} {fields : List Field} {b : Branches} {nodes : List Node}

theorem target_own_mem (h : Planted parent fields b nodes) {id : NodeId}
    (hid : id ∈ b.own.map Edge.target) : id ∈ nodes.map Node.id :=
  h.targets_perm.mem_iff.1 (by rw [List.map_append]; exact List.mem_append_left _ hid)

/-- What a group's edges leave is no child: it has no syntax of its own. -/
theorem source_fanOut_notMem (h : Planted parent fields b nodes) :
    (nodes.map Node.id).Nodup → ∀ e ∈ b.fanOut, e.source ∉ b.children := by
  induction h with
  | nil => simp
  | leaf hp ih => exact fun hnd => ih (List.nodup_cons.1 hnd).2
  | one _ hp ih =>
    intro hnd e he
    rw [List.map_cons, List.nodup_cons] at hnd
    have hs := hp.target_own_mem (hp.source_fanOut e he)
    rw [List.mem_cons, not_or]
    exact ⟨fun heq => hnd.1 (heq ▸ hs), ih hnd.2 e he⟩
  | @group role g members ns fields b nodes _ hp ih =>
    intro hnd e he
    rw [List.map_cons, List.map_append, List.nodup_cons, List.mem_append, not_or,
      List.nodup_append] at hnd
    obtain ⟨⟨hg, hg'⟩, -, hnd, hdisj⟩ := hnd
    rw [List.mem_append, not_or]
    rcases List.mem_append.1 he with he | he
    · obtain ⟨n, -, rfl⟩ := List.mem_map.1 he
      exact ⟨hg, fun hmem => hg' (hp.children_sublist.subset hmem)⟩
    · have hs := hp.target_own_mem (hp.source_fanOut e he)
      exact ⟨fun hmem => hdisj _ hmem _ hs rfl, ih hnd e he⟩

/-- Each child's node is declared with its category and label. -/
theorem stand (h : Planted parent fields b nodes) :
    List.Forall₂ (fun id child => ∃ n ∈ nodes, n.id = id ∧ n.StandsFor child) b.children
      (fields.flatMap Field.children) := by
  induction h with
  | nil => exact .nil
  | @one role child n fields b nodes hn _ ih =>
    rw [List.flatMap_cons]
    refine .cons ⟨n, List.mem_cons_self, rfl, hn⟩ (ih.imp ?_)
    exact fun _ _ ⟨m, hm, h⟩ => ⟨m, List.mem_cons_of_mem _ hm, h⟩
  | @group role g members ns fields b nodes hns _ ih =>
    rw [List.flatMap_cons]
    refine List.rel_append ?_ (ih.imp ?_)
    · rw [List.forall₂_map_left_iff]
      have hmem : List.Forall₂ (fun n o => n ∈ ns ∧ n.StandsFor o) ns members :=
        (List.forall₂_and_left ns members).2 ⟨fun n hn => hn, hns⟩
      refine hmem.imp fun n o ⟨hn, hs⟩ => ⟨n, ?_, rfl, hs⟩
      exact List.mem_cons_of_mem _ (List.mem_append_left _ hn)
    · exact fun _ _ ⟨m, hm, h⟩ =>
        ⟨m, List.mem_cons_of_mem _ (List.mem_append_right _ hm), h⟩
  | leaf _ ih => exact ih.imp fun _ _ ⟨m, hm, h⟩ => ⟨m, List.mem_cons_of_mem _ hm, h⟩

/-- A group unfolds to its members' trees if exactly the edges to its members leave it. -/
theorem unfolds_group {chart : Chart} {g : NodeId} {ns : List Node} {members : List Outline}
    (declared : chart.node? g = some ⟨g, Registry.groupLabel⟩)
    (edges : outgoing chart.edges g = ns.map fun n => ⟨g, none, n.id⟩)
    (below : List.Forall₂ (fun id child => chart.Unfolds id child.tree) (ns.map Node.id) members) :
    chart.Unfolds g
      (.node g.category.name Registry.groupLabel (Outline.memberBranches members)) := by
  refine .of_forall₂ declared ?_
  rw [edges, Outline.memberBranches_eq, List.forall₂_map_left_iff, List.forall₂_map_right_iff,
    List.forall₂_map_right_iff]
  rw [List.forall₂_map_left_iff] at below
  exact below.imp fun _ _ h => ⟨rfl, h⟩

/-- If the children unfold to their trees, and what leaves any other node is the fan-out there, the
branches unfold to those of the fields. -/
theorem unfoldsTo {chart : Chart} (h : Planted parent fields b nodes) :
    (nodes.map Node.id).Nodup → (∀ n ∈ nodes, chart.node? n.id = some n) →
    (∀ n ∈ nodes, n.id ∉ b.children → outgoing chart.edges n.id = outgoing b.fanOut n.id) →
    List.Forall₂ (fun id child => chart.Unfolds id child.tree) b.children
      (fields.flatMap Field.children) →
    List.Forall₂ chart.UnfoldsTo b.own (Outline.fieldBranches fields) := by
  induction h with
  | nil => exact fun _ _ _ _ => .nil
  | @one role child n fields b nodes hn hp ih =>
    intro hnd hnode hout hkids
    rw [List.map_cons, List.nodup_cons] at hnd
    rw [List.flatMap_cons, Field.children, List.singleton_append, List.forall₂_cons] at hkids
    refine .cons ⟨rfl, hkids.1⟩ (ih hnd.2 (fun m hm => hnode m (List.mem_cons_of_mem _ hm)) ?_
      hkids.2)
    intro m hm hmem
    refine hout m (List.mem_cons_of_mem _ hm) ?_
    rw [List.mem_cons, not_or]
    exact ⟨fun heq => hnd.1 (heq ▸ List.mem_map_of_mem hm), hmem⟩
  | @group role g members ns fields b nodes hns hp ih =>
    intro hnd hnode hout hkids
    have hg : g ∉ ns.map Node.id ∧ g ∉ nodes.map Node.id := by
      simpa [not_or] using (List.nodup_cons.1 hnd).1
    obtain ⟨-, hnd, hdisj⟩ := List.nodup_append.1
      (List.map_append ▸ (List.nodup_cons.1 hnd).2)
    have hlen : members.length = (ns.map Node.id).length := by
      rw [List.length_map, hns.length_eq]
    rw [List.flatMap_cons, Field.children] at hkids
    -- the first children are the group's members, the rest belong to the other fields
    have hmembers := List.forall₂_take_append _ _ _ hkids
    have hrest := List.forall₂_drop_append _ _ _ hkids
    rw [hlen, List.take_left] at hmembers
    rw [hlen, List.drop_left] at hrest
    refine .cons ⟨rfl, ?_⟩ (ih hnd (fun m hm => hnode m ?_) (fun m hm hmem => ?_) hrest)
    · have hgroup : outgoing chart.edges g = ns.map fun n => ⟨g, none, n.id⟩ := by
        rw [hout ⟨g, Registry.groupLabel⟩ List.mem_cons_self, outgoing_append, outgoing_eq_self,
          outgoing_eq_nil, List.append_nil]
        · exact fun e he (heq : e.source = g) => hg.2 (heq ▸ hp.target_own_mem (hp.source_fanOut e he))
        · simp
        · rw [List.mem_append, not_or]
          exact ⟨hg.1, fun hmem => hg.2 (hp.children_sublist.subset hmem)⟩
      exact unfolds_group (hnode ⟨g, Registry.groupLabel⟩ List.mem_cons_self) hgroup hmembers
    · exact List.mem_cons_of_mem _ (List.mem_append_right _ hm)
    · rw [hout m (List.mem_cons_of_mem _ (List.mem_append_right _ hm)), outgoing_append,
        outgoing_eq_nil, List.nil_append]
      · intro e he heq
        obtain ⟨n, -, rfl⟩ := List.mem_map.1 he
        replace heq : g = m.id := heq
        exact hg.2 (heq ▸ List.mem_map_of_mem hm)
      · rw [List.mem_append, not_or]
        exact ⟨fun hns => hdisj _ hns _ (List.mem_map_of_mem hm) rfl, hmem⟩
  | @leaf role n fields b nodes hp ih =>
    intro hnd hnode hout hkids
    rw [List.map_cons, List.nodup_cons] at hnd
    refine .cons ⟨rfl, ?_⟩ (ih hnd.2 (fun m hm => hnode m (List.mem_cons_of_mem _ hm))
      (fun m hm => hout m (List.mem_cons_of_mem _ hm)) hkids)
    have hleaf : outgoing chart.edges n.id = [] := by
      rw [hout n List.mem_cons_self fun hmem => hnd.1 (hp.children_sublist.subset hmem)]
      exact outgoing_eq_nil fun e he heq =>
        hnd.1 (heq ▸ hp.target_own_mem (hp.source_fanOut e he))
    refine .of_forall₂ (hnode n List.mem_cons_self) ?_
    rw [hleaf]
    exact .nil

end Planted

namespace Growth

/-- The identifiers of growths side by side are their roots and the nodes below them. -/
theorem flatMap_ids_perm (parts : List Growth) :
    (parts.flatMap ids).Perm
      (parts.map root ++ (parts.flatMap Growth.nodes).map Node.id) := by
  induction parts with
  | nil => exact .nil
  | cons g parts ih =>
    simp only [List.flatMap_cons, ids, List.map_cons, List.map_append, List.cons_append]
    refine .cons _ ?_
    exact (ih.append_left _).trans (List.perm_append_comm_assoc _ _ _)

section Branching

variable {o : Outline} {root : NodeId} {b : Branches} {nodes : List Node} {parts : List Growth}

/-- What is below a node: its branches, and a growth for each child, with all identifiers
different. -/
structure Branching (o : Outline) (root : NodeId) (b : Branches) (nodes : List Node)
    (parts : List Growth) : Prop where
  planted : Planted root o.fields b nodes
  roots : parts.map Growth.root = b.children
  grown : ∀ g ∈ parts, g.Grown
  nodup : (root :: (nodes ++ parts.flatMap Growth.nodes).map Node.id).Nodup

namespace Branching

variable (h : Branching o root b nodes parts)

include h

theorem nodup_nodes : (nodes.map Node.id).Nodup := by
  have := (List.nodup_cons.1 h.nodup).2
  rw [List.map_append] at this
  exact (List.nodup_append.1 this).1

theorem root_notMem : root ∉ nodes.map Node.id := fun hm =>
  (List.nodup_cons.1 h.nodup).1 (by rw [List.map_append]; exact List.mem_append_left _ hm)

/-- The identifiers of the growths below are the children's and those of the nodes below these. -/
theorem nodup_root_ids : (root :: parts.flatMap ids).Nodup := by
  refine ((flatMap_ids_perm parts).cons root).nodup_iff.2 (h.nodup.sublist ?_)
  rw [h.roots, List.map_append]
  exact (h.planted.children_sublist.append_right _).cons_cons _

theorem mem_of_part {g : Growth} (hg : g ∈ parts) {id : NodeId} (hid : id ∈ g.ids) :
    id ∈ (nodes ++ parts.flatMap Growth.nodes).map Node.id := by
  have hmem := (flatMap_ids_perm parts).mem_iff.1 (List.mem_flatMap.2 ⟨g, hg, hid⟩)
  rw [h.roots, List.mem_append] at hmem
  rw [List.map_append, List.mem_append]
  exact hmem.imp_left fun hm => h.planted.children_sublist.subset hm

/-- A group or a leaf has no part in the growths below. -/
theorem notMem_part {id : NodeId} (hid : id ∈ nodes.map Node.id) (hc : id ∉ b.children)
    {g : Growth} (hg : g ∈ parts) : id ∉ g.ids := fun hm => by
  have hmem := (flatMap_ids_perm parts).mem_iff.1 (List.mem_flatMap.2 ⟨g, hg, hm⟩)
  rw [h.roots, List.mem_append] at hmem
  rcases hmem with hmem | hmem
  · exact hc hmem
  · have := (List.nodup_cons.1 h.nodup).2
    rw [List.map_append] at this
    exact (List.nodup_append.1 this).2.2 _ hid _ hmem rfl

theorem source_below {e : Edge} (he : e ∈ parts.flatMap edges) :
    ∃ g ∈ parts, e.source ∈ g.ids := by
  obtain ⟨g, hg, he⟩ := List.mem_flatMap.1 he
  exact ⟨g, hg, (h.grown g hg).source_mem_ids he⟩

theorem outgoing_root : outgoing (b.own ++ b.fanOut ++ parts.flatMap edges) root = b.own := by
  have hfan : outgoing b.fanOut root = [] := outgoing_eq_nil fun e he (heq : e.source = root) =>
    h.root_notMem (heq ▸ h.planted.target_own_mem (h.planted.source_fanOut e he))
  have hbelow : outgoing (parts.flatMap edges) root = [] := by
    refine outgoing_eq_nil fun e he (heq : e.source = root) => ?_
    obtain ⟨g, hg, hs⟩ := h.source_below he
    exact (List.nodup_cons.1 h.nodup_root_ids).1 (List.mem_flatMap.2 ⟨g, hg, heq ▸ hs⟩)
  rw [outgoing_append, outgoing_append, outgoing_eq_self h.planted.source_own, hfan, hbelow,
    List.append_nil, List.append_nil]

theorem outgoing_own {id : NodeId} (hid : id ≠ root) : outgoing b.own id = [] :=
  outgoing_eq_nil fun e he heq => hid (heq.symm.trans (h.planted.source_own e he))

/-- From a group or a leaf there are the edges of the fan-out only. -/
theorem outgoing_node {n : Node} (hn : n ∈ nodes) (hc : n.id ∉ b.children) :
    outgoing (b.own ++ b.fanOut ++ parts.flatMap edges) n.id = outgoing b.fanOut n.id := by
  have hid : n.id ∈ nodes.map Node.id := List.mem_map_of_mem hn
  have hbelow : outgoing (parts.flatMap edges) n.id = [] := by
    refine outgoing_eq_nil fun e he (heq : e.source = n.id) => ?_
    obtain ⟨g, hg, hs⟩ := h.source_below he
    exact h.notMem_part hid hc hg (heq ▸ hs)
  rw [outgoing_append, outgoing_append, h.outgoing_own (fun heq => h.root_notMem (heq ▸ hid)),
    hbelow, List.nil_append, List.append_nil]

/-- From a child and below it there are the edges of its own growth only. -/
theorem outgoing_child {g : Growth} (hg : g ∈ parts) {id : NodeId} (hid : id ∈ g.ids) :
    outgoing (b.own ++ b.fanOut ++ parts.flatMap edges) id = outgoing g.edges id := by
  obtain ⟨hroot, hnd⟩ := List.nodup_cons.1 h.nodup_root_ids
  have hfan : outgoing b.fanOut id = [] := by
    refine outgoing_eq_nil fun e he (heq : e.source = id) => ?_
    have hs := h.planted.target_own_mem (h.planted.source_fanOut e he)
    exact h.notMem_part hs (h.planted.source_fanOut_notMem h.nodup_nodes e he) hg (heq ▸ hid)
  have hown : outgoing b.own id = [] :=
    h.outgoing_own fun heq => hroot (heq ▸ List.mem_flatMap.2 ⟨g, hg, hid⟩)
  rw [outgoing_append, outgoing_append, hown, hfan, List.nil_append, List.nil_append,
    outgoing_part h.grown hnd hg hid]

end Branching

end Branching

/-- A growth whose identifiers are all different unfolds, in a chart that has its nodes and where
its identifiers have no other edges, to the tree of its outline. -/
theorem Grown.unfolds {chart : Chart} {g : Growth} (h : g.Grown) : g.ids.Nodup →
    (∀ id ∈ g.ids, outgoing chart.edges id = outgoing g.edges id) →
    (∀ n ∈ g.nodes, chart.node? n.id = some n) →
    ∀ n : Node, n.id = g.root → n.StandsFor g.outline → chart.node? n.id = some n →
      chart.Unfolds g.root g.outline.tree := by
  induction h with
  | @intro o root b nodes parts hpl houtlines hroots hgrown ih =>
    rintro hnd hout hnode n rfl ⟨hc, hl⟩ hroot
    have hb : Branching o n.id b nodes parts := ⟨hpl, hroots, hgrown, hnd⟩
    have houtlines : parts.map outline = o.fields.flatMap Field.children := houtlines
    have hkids : List.Forall₂ (fun id child => chart.Unfolds id child.tree) b.children
        (o.fields.flatMap Field.children) := by
      have hstand := hpl.stand
      rw [← hroots, ← houtlines, List.forall₂_map_left_iff, List.forall₂_map_right_iff,
        List.forall₂_same] at hstand ⊢
      intro g hg
      obtain ⟨m, hm, hmid, hms⟩ := hstand g hg
      -- what leaves an identifier of this child leaves it within the child's own growth
      have hndg := (List.nodup_flatMap.1 (List.nodup_cons.1 hb.nodup_root_ids).2).1 g hg
      refine ih g hg hndg (fun id hid => ?_) (fun k hk => ?_) m hmid hms
        (hnode m (List.mem_append_left _ hm))
      · rw [hout id (List.mem_cons_of_mem _ (hb.mem_of_part hg hid)), hb.outgoing_child hg hid]
      · exact hnode k (List.mem_append_right _ (List.mem_flatMap.2 ⟨g, hg, hk⟩))
    rw [Outline.tree_eq, ← hc, ← hl]
    refine .of_forall₂ hroot ?_
    rw [hout n.id List.mem_cons_self, hb.outgoing_root]
    refine hpl.unfoldsTo hb.nodup_nodes (fun m hm => hnode m (List.mem_append_left _ hm)) ?_ hkids
    intro m hm hmem
    rw [hout m.id (List.mem_cons_of_mem _ (List.mem_map_of_mem (List.mem_append_left _ hm))),
      hb.outgoing_node hm hmem]

end Growth

/-! ## The size of a growth -/

theorem Tree.sizeBelow_memberBranches (os : List Outline) :
    Tree.sizeBelow (Outline.memberBranches os) = (os.map fun o => o.tree.size).sum := by
  induction os with
  | nil => rfl
  | cons o os ih => simp [Outline.memberBranches, Tree.sizeBelow, ih]

theorem Planted.sizeBelow {parent : NodeId} {fields : List Field} {b : Branches}
    {nodes : List Node} (h : Planted parent fields b nodes) :
    Tree.sizeBelow (Outline.fieldBranches fields) + b.children.length
      = nodes.length + ((fields.flatMap Field.children).map fun o => o.tree.size).sum := by
  induction h with
  | nil => rfl
  | one _ _ ih =>
    simp only [Outline.fieldBranches, Tree.sizeBelow, Field.children, List.length_cons,
      List.flatMap_cons, List.map_append, List.map_cons, List.map_nil, List.sum_append,
      List.sum_cons, List.sum_nil]
    omega
  | group hns _ ih =>
    have := hns.length_eq
    simp only [Outline.fieldBranches, Tree.sizeBelow, Tree.size, Tree.sizeBelow_memberBranches,
      Field.children, List.length_append, List.length_map, List.length_cons, List.flatMap_cons,
      List.map_append, List.sum_append]
    omega
  | leaf _ ih =>
    simp only [Outline.fieldBranches, Tree.sizeBelow, Tree.size, Field.children, List.length_cons,
      List.flatMap_cons, List.nil_append]
    omega

theorem Growth.sum_size : ∀ {parts : List Growth},
    (∀ g ∈ parts, g.outline.tree.size = g.nodes.length + 1) →
      ((parts.map Growth.outline).map fun o => o.tree.size).sum
        = (parts.flatMap Growth.nodes).length + parts.length
  | [], _ => rfl
  | g :: parts, h => by
    have hg := h g List.mem_cons_self
    have hrest := sum_size fun g hg => h g (List.mem_cons_of_mem _ hg)
    simp only [List.map_cons, List.sum_cons, List.flatMap_cons, List.length_append,
      List.length_cons]
    omega

/-- A growth has one node less than its tree, which counts the root too. -/
theorem Growth.Grown.size {g : Growth} (h : g.Grown) :
    g.outline.tree.size = g.nodes.length + 1 := by
  induction h with
  | @intro o root b nodes parts hpl houtlines hroots _ ih =>
    have hbelow := hpl.sizeBelow
    have hparts := Growth.sum_size ih
    rw [houtlines] at hparts
    have hlen : b.children.length = parts.length := by rw [← hroots, List.length_map]
    show o.tree.size = (nodes ++ parts.flatMap Growth.nodes).length + 1
    rw [Outline.tree_eq, Tree.size, List.length_append]
    simp only [Outline.children] at hparts
    omega

/-! ## Charts of scripts -/

theorem Tree.branches_eq_nil_iff (t : Tree) : t.branches = [] ↔ t.size = 1 := by
  rcases t with ⟨kind, label, _ | ⟨⟨role, t⟩, branches⟩⟩
  · simp [Tree.branches, Tree.size, Tree.sizeBelow]
  · cases t
    simp [Tree.branches, Tree.size, Tree.sizeBelow]

theorem Script.Draws.unfolds {s : Script} {nodes : List Node} (h : s.Draws nodes) (d : Direction) :
    (s.chart d).Unfolds s.rootNode.id s.tree := by
  rw [← s.tree_outline]
  refine h.grown.unfolds h.nodup (fun id _ => by rw [h.chart_edges]) (fun n hn => ?_) s.rootNode
    rfl ⟨rfl, rfl⟩ (h.chart_node? d List.mem_cons_self)
  exact h.chart_node? d (List.mem_cons_of_mem _ hn)

/-- From its first node, the chart of a script unfolds to the script's tree and to no other, and has
no node and no edge beside those of the tree. It is one node on its own if the tree is, and has an
edge otherwise. -/
theorem Script.chart_unfolds (s : Script) (d : Direction) :
    ∃ root : Node, (s.chart d).nodes.head? = some root
      ∧ (∀ t, (s.chart d).Unfolds root.id t ↔ t = s.tree)
      ∧ (s.chart d).nodes.length = s.tree.size
      ∧ (s.chart d).edges.length + 1 = s.tree.size
      ∧ ((s.tree.branches = [] ∧ (s.chart d).content = .atomic root)
        ∨ (s.tree.branches ≠ [] ∧ ∃ nodes edges,
          (s.chart d).content = .compound nodes edges ∧ edges ≠ [])) := by
  obtain ⟨nodes, h⟩ := s.exists_draws
  have hunfolds := h.unfolds d
  have hsize : s.tree.size = nodes.length + 1 := by
    rw [← s.tree_outline]
    exact h.grown.size
  have hlen := h.length_edges
  refine ⟨s.rootNode, by rw [h.chart_nodes, List.head?_cons], fun t => ⟨fun ht => ?_, ?_⟩, ?_, ?_,
    ?_⟩
  · exact ht.unique hunfolds
  · rintro rfl
    exact hunfolds
  · rw [h.chart_nodes, hsize, List.length_cons]
  · rw [h.chart_edges, hsize, hlen]
  · rw [Ne, Tree.branches_eq_nil_iff, hsize, ← hlen]
    rcases h.chart_content d with ⟨he, -, hc⟩ | ⟨he, hc⟩
    · exact .inl ⟨by simp [he], hc⟩
    · exact .inr ⟨by simpa using he, _, _, hc, he⟩

end SyntaxChart
