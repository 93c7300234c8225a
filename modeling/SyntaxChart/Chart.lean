import SyntaxChart.Outline.Syntax
import SyntaxChart.Outline.Wiring

/-!
# Charts

A chart is a direction with either one node on its own, or nodes and edges. A script whose outline
has no children becomes the former, any other script the latter.
-/

namespace SyntaxChart

inductive Direction where
  | topDown | leftRight
deriving DecidableEq

namespace Direction

def code : Direction → String
  | topDown => "TD"
  | leftRight => "LR"

def ofCode? (code : String) : Option Direction :=
  if code = "TD" then some topDown else if code = "LR" then some leftRight else none

end Direction

inductive Content where
  | atomic (node : Node)
  | compound (nodes : List Node) (edges : List Edge)

structure Chart where
  direction : Direction
  content : Content

namespace Chart

def nodes (chart : Chart) : List Node :=
  match chart.content with
  | .atomic node => [node]
  | .compound nodes _ => nodes

def edges (chart : Chart) : List Edge :=
  match chart.content with
  | .atomic _ => []
  | .compound _ edges => edges

/-- The first node with an identifier. -/
def node? (chart : Chart) (id : NodeId) : Option Node :=
  chart.nodes.find? fun node => node.id = id

end Chart

namespace Script

/-- A script's outline drawn into an empty registry, which always succeeds. -/
def drawing (s : Script) : Drawing :=
  (s.outline.draw .empty).toOption.get <| by
    obtain ⟨d, hd⟩ := Outline.exists_draw_eq_ok s.wellGrouped_outline .empty
    rw [hd]; rfl

theorem draw_outline_eq (s : Script) : s.outline.draw .empty = .ok s.drawing := by
  obtain ⟨d, hd⟩ := Outline.exists_draw_eq_ok s.wellGrouped_outline .empty
  simp [drawing, hd, Except.toOption]

def chart (s : Script) (direction : Direction) : Chart where
  direction
  content :=
    match s.drawing.wiring.edges with
    | [] => .atomic ⟨s.drawing.root, s.outline.label⟩
    | edge :: edges => .compound s.drawing.registry.nodes.toList (edge :: edges)

end Script

end SyntaxChart
