import SyntaxChart.Chart
import SyntaxChart.Proofs.Growth

/-!
# The drawing of a script

A script is drawn into an empty registry, so its drawing is a growth of its outline from the first
node of all. The chart has exactly the nodes the registry recorded, the root first, and the edges of
the growth; without edges there is no other node.
-/

namespace SyntaxChart

namespace Script

def rootNode (s : Script) : Node :=
  ⟨⟨s.outline.category, 1⟩, s.outline.label⟩

/-- Below the root, drawing a script declares these nodes. -/
structure Draws (s : Script) (nodes : List Node) : Prop where
  root : s.drawing.root = s.rootNode.id
  grown : Growth.Grown ⟨s.outline, s.rootNode.id, nodes, s.drawing.wiring.edges⟩
  recorded : s.drawing.registry.nodes.toList = s.rootNode :: nodes
  nodup : ((s.rootNode :: nodes).map Node.id).Nodup

theorem exists_draws (s : Script) : ∃ nodes, s.Draws nodes := by
  have hd := s.draw_outline_eq
  rw [Outline.draw_eq] at hd
  obtain ⟨⟨w, r⟩, hw, hd⟩ := exists_of_map_eq_ok hd
  obtain ⟨nodes, hg, hdecl⟩ := s.outline.grown_of_wire hw
  have hdecl : Registry.Declares .empty (s.rootNode :: nodes) r := .cons hdecl
  have hnodes : r.nodes.toList = s.rootNode :: nodes := by
    simpa [Registry.empty] using hdecl.toList_nodes
  have hnodup : ((s.rootNode :: nodes).map Node.id).Nodup := by
    rw [← hnodes]
    exact (hdecl.sound Registry.sound_empty).nodup
  refine ⟨nodes, ?_, ?_, ?_, hnodup⟩ <;> rw [← hd]
  · rfl
  · exact hg
  · exact hnodes

namespace Draws

variable {s : Script} {nodes : List Node} (h : s.Draws nodes)

include h

theorem targets_perm : (s.drawing.wiring.edges.map Edge.target).Perm (nodes.map Node.id) :=
  h.grown.targets_perm

theorem connected : Connected [s.rootNode.id] s.drawing.wiring.edges :=
  h.grown.connected

theorem length_edges : s.drawing.wiring.edges.length = nodes.length := by
  simpa using h.targets_perm.length_eq

/-- A chart is one node, or it is the recorded nodes with one edge at least. -/
theorem chart_content (d : Direction) :
    (s.drawing.wiring.edges = [] ∧ nodes = [] ∧ (s.chart d).content = .atomic s.rootNode)
      ∨ (s.drawing.wiring.edges ≠ []
        ∧ (s.chart d).content = .compound (s.rootNode :: nodes) s.drawing.wiring.edges) := by
  have hlen := h.length_edges
  rcases he : s.drawing.wiring.edges with _ | ⟨e, es⟩
  · rw [he] at hlen
    refine .inl ⟨rfl, List.length_eq_zero_iff.1 hlen.symm, ?_⟩
    simp [chart, he, h.root, rootNode]
  · refine .inr ⟨List.cons_ne_nil _ _, ?_⟩
    simp [chart, he, h.recorded]

theorem chart_nodes (d : Direction) : (s.chart d).nodes = s.rootNode :: nodes := by
  rcases h.chart_content d with ⟨-, hn, hc⟩ | ⟨-, hc⟩ <;> rw [Chart.nodes, hc]
  rw [hn]

theorem chart_edges (d : Direction) : (s.chart d).edges = s.drawing.wiring.edges := by
  rcases h.chart_content d with ⟨he, -, hc⟩ | ⟨-, hc⟩ <;> rw [Chart.edges, hc]
  exact he.symm

theorem exists_atomic_iff (d : Direction) :
    (∃ n, (s.chart d).content = .atomic n) ↔ s.drawing.wiring.edges = [] := by
  rcases h.chart_content d with ⟨he, -, hc⟩ | ⟨he, hc⟩ <;> simp [he, hc]

/-- Every node of a chart is found under its identifier. -/
theorem chart_node? (d : Direction) {n : Node} (hn : n ∈ s.rootNode :: nodes) :
    (s.chart d).node? n.id = some n := by
  rw [Chart.node?, h.chart_nodes, List.find?_eq_some_iff_append]
  obtain ⟨before, after, heq⟩ := List.append_of_mem hn
  refine ⟨by simp, before, after, heq, fun m hm => ?_⟩
  have hnd := h.nodup
  rw [heq, List.map_append, List.map_cons, List.nodup_append] at hnd
  simpa using hnd.2.2 _ (List.mem_map_of_mem hm) _ List.mem_cons_self

end Draws

/-- A chart with edges has the root and the nodes below it, and the edges of the drawing. -/
theorem exists_draws_of_compound {s : Script} {d : Direction} {nodes : List Node}
    {edges : List Edge} (h : (s.chart d).content = .compound nodes edges) :
    ∃ below, s.Draws below ∧ nodes = s.rootNode :: below ∧ edges = s.drawing.wiring.edges
      ∧ edges ≠ [] := by
  obtain ⟨below, hd⟩ := s.exists_draws
  obtain ⟨-, -, hc⟩ | ⟨hne, hc⟩ := hd.chart_content d
  · rw [hc] at h
    cases h
  · rw [hc] at h
    cases h
    exact ⟨below, hd, rfl, rfl, hne⟩

end Script

end SyntaxChart
