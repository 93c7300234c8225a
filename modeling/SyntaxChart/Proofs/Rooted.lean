import SyntaxChart.Proofs.Drawing
import Mathlib.Logic.Relation

/-!
# Wiring adds a tree

A registry that declarations and wirings led to hands out new identifiers only (`Registry.Reached`),
whatever was declared in it before. So wiring an outline below one of its nodes hangs a tree there
(`HangsTree`): the new nodes are reached from that node along the edges, each by one edge, and no
edge goes anywhere else. An edge leads to an identifier that was handed out after that of its
source, hence no path returns to where it began (`Connected.acyclic`).
-/

namespace SyntaxChart

/-- One of the edges goes from the one identifier to the other. -/
def Leads (es : List Edge) (a b : NodeId) : Prop :=
  ∃ e ∈ es, e.source = a ∧ e.target = b

theorem Leads.mono {es fs : List Edge} (h : es ⊆ fs) {a b : NodeId} (hl : Leads es a b) :
    Leads fs a b := by
  obtain ⟨e, he, hab⟩ := hl
  exact ⟨e, h he, hab⟩

namespace Connected

/-- Following edges from a known node reaches every target. -/
theorem reaches {es : List Edge} {known : List NodeId} (h : Connected known es) {f : Edge}
    (hf : f ∈ es) : ∃ id ∈ known, Relation.ReflTransGen (Leads es) id f.target := by
  induction es generalizing known with
  | nil => cases hf
  | cons e es ih =>
    have hfirst : Leads (e :: es) e.source e.target := ⟨e, List.mem_cons_self, rfl, rfl⟩
    rcases List.mem_cons.1 hf with rfl | hf
    · exact ⟨f.source, h.1, .single hfirst⟩
    · obtain ⟨id, hid, hpath⟩ := ih h.2 hf
      have hpath := Relation.ReflTransGen.mono (fun _ _ => Leads.mono (List.subset_cons_self e es))
        _ _ hpath
      rcases List.mem_cons.1 hid with rfl | hid
      · exact ⟨e.source, h.1, hpath.head hfirst⟩
      · exact ⟨id, hid, hpath⟩

/-- Where each target is new, it comes later than the source of its edge. -/
theorem idxOf_lt {es : List Edge} {known : List NodeId} (h : Connected known es)
    (hnd : (known ++ es.map Edge.target).Nodup) {a b : NodeId} (hl : Leads es a b) :
    (known ++ es.map Edge.target).idxOf a < (known ++ es.map Edge.target).idxOf b := by
  obtain ⟨e, he, rfl, rfl⟩ := hl
  obtain ⟨before, after, rfl⟩ := List.append_of_mem he
  have hs := h.source_mem
  rw [List.map_append, List.map_cons, ← List.append_assoc] at hnd ⊢
  have htarget : e.target ∉ known ++ before.map Edge.target := fun hmem =>
    (List.nodup_append.1 hnd).2.2 _ hmem _ List.mem_cons_self rfl
  rw [List.idxOf_append_of_mem hs, List.idxOf_append_of_notMem htarget, List.idxOf_cons_self,
    Nat.add_zero]
  exact List.idxOf_lt_length_of_mem hs

/-- Where each target is new, no path returns. -/
theorem acyclic {es : List Edge} {known : List NodeId} (h : Connected known es)
    (hnd : (known ++ es.map Edge.target).Nodup) (id : NodeId) :
    ¬Relation.TransGen (Leads es) id id := fun hpath => by
  have := hpath.lift (p := (· < ·)) _ fun _ _ hl => h.idxOf_lt hnd hl
  rw [Relation.transGen_eq_self] at this
  exact Nat.lt_irrefl _ this

end Connected

/-- The edges hang the nodes `below` under a root, as a tree: there are as many edges as nodes, each
node is the target of one edge and nothing else is a target, every edge leaves the root or one of
the nodes, and following the edges from the root reaches each of the nodes and returns to none. -/
structure HangsTree (root : NodeId) (below : List NodeId) (es : List Edge) : Prop where
  root_notMem : root ∉ below
  length_edges : es.length = below.length
  count_target : ∀ id ∈ below, (es.map Edge.target).count id = 1
  target_mem : ∀ e ∈ es, e.target ∈ below
  source_mem : ∀ e ∈ es, e.source = root ∨ e.source ∈ below
  reached : ∀ id ∈ below, Relation.ReflTransGen (Leads es) root id
  acyclic : ∀ id, ¬Relation.TransGen (Leads es) id id

theorem Growth.Grown.hangsTree {g : Growth} (h : g.Grown) (hnd : g.ids.Nodup) :
    HangsTree g.root (g.nodes.map Node.id) g.edges where
  root_notMem := (List.nodup_cons.1 hnd).1
  length_edges := by simpa using h.targets_perm.length_eq
  count_target id hid := by
    rw [h.targets_perm.count_eq]
    exact List.count_eq_one_of_mem (List.nodup_cons.1 hnd).2 hid
  target_mem e he := h.targets_perm.mem_iff.1 (List.mem_map_of_mem he)
  source_mem e he := List.mem_cons.1 (h.source_mem_ids he)
  reached id hid := by
    obtain ⟨e, he, rfl⟩ := List.mem_map.1 (h.targets_perm.mem_iff.2 hid)
    obtain ⟨root, hroot, hpath⟩ := h.connected.reaches he
    exact List.mem_singleton.1 hroot ▸ hpath
  acyclic := h.connected.acyclic (((h.targets_perm.cons g.root).nodup_iff).2 hnd)

namespace Registry

/-- A registry that declarations and wirings led to, of any outlines and below any nodes. A group
that was refused left the registry as it was. -/
inductive Reached : Registry → Prop
  | empty : Reached .empty
  | declare {r : Registry} (c : Category) (label : String) :
      Reached r → Reached (r.declare c label).2
  | declareGroup {r r' : Registry} {c : Category} {id : NodeId} :
      Reached r → r.declareGroup c = .ok (id, r') → Reached r'
  | wire {r r' : Registry} {o : Outline} {parent : NodeId} {w : Wiring} :
      Reached r → o.wire parent r = .ok (w, r') → Reached r'

/-- Whatever was done, it declared the nodes that are there. -/
theorem Reached.declares {r : Registry} (h : r.Reached) : ∃ nodes, Declares .empty nodes r := by
  induction h with
  | empty => exact ⟨[], .nil _⟩
  | declare c label _ ih =>
    obtain ⟨nodes, hd⟩ := ih
    exact ⟨_, hd.append (.cons (.nil _))⟩
  | @declareGroup r r' c id _ hd ih =>
    obtain ⟨nodes, hdecl⟩ := ih
    rw [Registry.declareGroup] at hd
    split at hd
    · cases hd
      exact ⟨_, hdecl.append (.cons (.nil _))⟩
    · cases hd
  | wire _ hw ih =>
    obtain ⟨nodes, hd⟩ := ih
    obtain ⟨more, -, hmore⟩ := Outline.grown_of_wire _ hw
    exact ⟨_, hd.append hmore⟩

theorem Reached.sound {r : Registry} (h : r.Reached) : r.Sound := by
  obtain ⟨nodes, hd⟩ := h.declares
  exact hd.sound sound_empty

/-- What is declared in a sound registry is new to it. -/
theorem Declares.nodup {r r' : Registry} {nodes : List Node} (h : r.Declares nodes r')
    (hr : r.Sound) : (r.ids ++ nodes.map Node.id).Nodup := by
  have := (h.sound hr).nodup
  rwa [ids, h.toList_nodes, List.map_append] at this

end Registry

/-- A chart is a tree below its first node: it has one edge less than nodes, no two nodes have the
same identifier, every edge goes from a node to a node but none to the first, and following the
edges reaches every node from the first and returns to none. -/
structure Chart.IsTree (chart : Chart) (root : Node) : Prop where
  first : chart.nodes.head? = some root
  length_edges : chart.edges.length + 1 = chart.nodes.length
  nodup : (chart.nodes.map fun n => n.id.text).Nodup
  source_mem : ∀ e ∈ chart.edges, ∃ n ∈ chart.nodes, n.id = e.source
  target_mem : ∀ e ∈ chart.edges, ∃ n ∈ chart.nodes, n.id = e.target
  target_ne : ∀ e ∈ chart.edges, e.target ≠ root.id
  reached : ∀ n ∈ chart.nodes, Relation.ReflTransGen (Leads chart.edges) root.id n.id
  acyclic : ∀ id, ¬Relation.TransGen (Leads chart.edges) id id

theorem Script.Draws.isTree {s : Script} {nodes : List Node} (h : s.Draws nodes) (d : Direction) :
    (s.chart d).IsTree s.rootNode := by
  have htree := h.grown.hangsTree h.nodup
  refine ⟨?_, ?_, ?_, ?_, ?_, ?_, ?_, ?_⟩ <;> simp only [h.chart_nodes, h.chart_edges]
  · rw [List.head?_cons]
  · rw [h.length_edges, List.length_cons]
  · have := h.nodup.map fun _ _ h => NodeId.text_inj.1 h
    rwa [List.map_map] at this
  · intro e he
    rcases htree.source_mem e he with hs | hs
    · exact ⟨s.rootNode, List.mem_cons_self, hs.symm⟩
    · obtain ⟨n, hn, hid⟩ := List.mem_map.1 hs
      exact ⟨n, List.mem_cons_of_mem _ hn, hid⟩
  · intro e he
    obtain ⟨n, hn, hid⟩ := List.mem_map.1 (htree.target_mem e he)
    exact ⟨n, List.mem_cons_of_mem _ hn, hid⟩
  · intro e he heq
    exact htree.root_notMem (heq ▸ htree.target_mem e he)
  · intro n hn
    rcases List.mem_cons.1 hn with rfl | hn
    · exact .refl
    · exact htree.reached _ (List.mem_map_of_mem hn)
  · exact htree.acyclic

/-- Wiring a well-grouped outline below a node of a registry, whatever was declared there before,
succeeds, keeps the nodes before in place and hangs the new ones below the node as a tree. In
particular the chart of a script is a tree. -/
theorem Outline.wire_hangsTree :
    (∀ r : Registry, r.Reached → ∀ parent ∈ r.ids, ∀ o : Outline, o.WellGrouped →
      ∃ w r' added, o.wire parent r = .ok (w, r')
        ∧ r'.nodes.toList = r.nodes.toList ++ added
        ∧ (r.ids ++ added.map Node.id).Nodup
        ∧ HangsTree parent (added.map Node.id) w.edges)
      ∧ ∀ (s : Script) (d : Direction), ∃ root, (s.chart d).IsTree root := by
  refine ⟨fun r hr parent hp o ho => ?_, fun s d => ?_⟩
  · obtain ⟨⟨w, r'⟩, hw⟩ := exists_wire_eq_ok ho parent r
    obtain ⟨added, hg, hdecl⟩ := grown_of_wire o hw
    have hnd := hdecl.nodup hr.sound
    obtain ⟨-, hadded, hnew⟩ := List.nodup_append.1 hnd
    refine ⟨w, r', added, hw, hdecl.toList_nodes, hnd, hg.hangsTree ?_⟩
    exact List.nodup_cons.2 ⟨fun hmem => hnew _ hp _ hmem rfl, hadded⟩
  · obtain ⟨nodes, h⟩ := s.exists_draws
    exact ⟨s.rootNode, h.isTree d⟩

/-- Below the second of two nodes of one category: a child, a group with a member, and a leaf. -/
theorem Outline.wire_hangsTree_second :
    let r := ((Registry.empty.declare .binding "first").2.declare .binding "second").2
    let o := node .binding "second"
      [.one "var" (showing .binding "x"), .group "rest" .body [named .binding []],
        .leaf "val" .binding "y"]
    r.Reached ∧ ⟨.binding, 2⟩ ∈ r.ids ∧ o.WellGrouped
      ∧ ∃ w r' added, o.wire ⟨.binding, 2⟩ r = .ok (w, r') ∧ w.edges.length = 4
        ∧ r'.nodes.toList = r.nodes.toList ++ added
        ∧ HangsTree ⟨.binding, 2⟩ (added.map Node.id) w.edges := by
  intro r o
  have hr : r.Reached := .declare _ _ (.declare _ _ .empty)
  have hp : (⟨.binding, 2⟩ : NodeId) ∈ r.ids := by decide
  have ho : o.WellGrouped := by
    simp [o, wellGrouped_node_iff, Field.IsGrouped, Field.children, Category.isGroup, showing,
      named]
  obtain ⟨w, r', added, hw, hnodes, -, htree⟩ := wire_hangsTree.1 r hr _ hp o ho
  have hlen : (o.wire ⟨.binding, 2⟩ r).toOption.map (·.1.edges.length) = some 4 := by rfl
  rw [hw] at hlen
  exact ⟨hr, hp, ho, w, r', added, hw, Option.some.inj hlen, hnodes, htree⟩

end SyntaxChart
