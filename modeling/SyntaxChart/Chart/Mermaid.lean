import Std.Data.HashMap
import Std.Data.HashSet
import SyntaxChart.Chart

/-!
# Charts as Mermaid text

A chart is written as a header and one line per edge. A node is declared, with its label, where it
is mentioned first, and referred to by its identifier afterwards. A label that can hold text of the
source stands in quotes.
-/

namespace SyntaxChart

namespace Mermaid

/-- A label that begins with one of these is quoted. -/
def quotedNames : List String :=
  ["NumExp", "StrExp", "PrimOp", "VarRef", "string", "boolean", "VarDecl", "BoolExp", "number"]

/-- Whether a label is quoted. -/
def isQuoted (label : String) : Bool :=
  quotedNames.any fun name => name.toList.isPrefixOf label.toList

/-- A label as it is written. -/
def labelText (label : String) : String :=
  if isQuoted label then "\"" ++ label ++ "\"" else label

/-- How an edge mentions a node. -/
inductive Mention where
  | declaration (node : Node)
  | reference (id : NodeId)

/-- A mention as it is written. -/
def Mention.text : Mention → String
  | declaration node => node.id.text ++ "[" ++ labelText node.label ++ "]"
  | reference id => id.text

/-- The role of an edge as it is written, up to the target. -/
def roleText : Option String → String
  | some role => "|" ++ role ++ "| "
  | none => " "

/-- An edge as it is written. -/
def edgeText (source : Mention) (role : Option String) (target : Mention) : String :=
  source.text ++ " -->" ++ roleText role ++ target.text

/-- The nodes by identifier; of several with one identifier, the last. -/
def declarations (nodes : List Node) : Std.HashMap NodeId Node :=
  nodes.foldl (fun found node => found.insert node.id node) ∅

/-- How an identifier is mentioned when those in `seen` were declared, and which are then. -/
def mention (found : Std.HashMap NodeId Node) (seen : Std.HashSet NodeId) (id : NodeId) :
    Mention × Std.HashSet NodeId :=
  match found[id]? with
  | some node =>
    if seen.contains id then (.reference id, seen) else (.declaration node, seen.insert id)
  | none => (.reference id, seen)

/-- The lines of edges, when the nodes in `seen` were declared. -/
def edgeLines (found : Std.HashMap NodeId Node) (seen : Std.HashSet NodeId) :
    List Edge → List String
  | [] => []
  | edge :: edges =>
    let (source, seen) := mention found seen edge.source
    let (target, seen) := mention found seen edge.target
    edgeText source edge.role target :: edgeLines found seen edges

/-- The first line of a text. -/
def header (d : Direction) : String :=
  "graph " ++ d.code ++ "\n"

end Mermaid

/-- A chart as it is written, without a final line end. A node on its own stands without brackets
around its label. -/
def Chart.text (chart : Chart) : String :=
  match chart.content with
  | .atomic node => Mermaid.header chart.direction ++ node.id.text ++ node.label
  | .compound nodes edges =>
    Mermaid.header chart.direction
      ++ "\n".intercalate (Mermaid.edgeLines (Mermaid.declarations nodes) ∅ edges)

end SyntaxChart
