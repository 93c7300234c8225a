import SyntaxChart.Chart.Mermaid
import SyntaxChart.Expr.Parser
import SyntaxChart.SExpr.Reader

/-!
# From a text to its chart

A text holds a program if its s-expression begins as one, and a form otherwise; neither is tried
where the other fails. Every rejection has the same wording for the user, and its cause is kept for
the log. The log of a run follows from its result.
-/

namespace SyntaxChart

/-- Why a text holds no script. -/
inductive Rejection where
  | blank
  | unreadable (error : ReadError)
  | invalidProgram (fault : Fault)
  | invalidForm (fault : Fault)

/-- The wording of every rejection. -/
def Rejection.message (_ : Rejection) : String :=
  "wrong syntax"

namespace Script

def ofSExpr (sexpr : SExpr) : Except Rejection Script :=
  if isProgramLike sexpr then
    match parseProgram sexpr with
    | .ok forms => .ok (program forms)
    | .error fault => .error (.invalidProgram fault)
  else
    match Form.parse sexpr with
    | .ok f => .ok (form f)
    | .error fault => .error (.invalidForm fault)

def ofText (text : String) : Except Rejection Script :=
  if text.toList.all Text.isBlank then
    .error .blank
  else
    match SExpr.read text with
    | .ok sexpr => ofSExpr sexpr
    | .error error => .error (.unreadable error)

end Script

/-- The chart of the script that a text holds, as it is written. -/
def Source.chartText (text : String) (direction : Direction) : Except Rejection String :=
  (Script.ofText text).map fun script => (script.chart direction).text

/-- What the log tells of a run. -/
inductive Event where
  | blankText
  | programSeen
  | formSeen
  | rejected (detail : String)
  | visited (id : NodeId)
  | drawn (root : NodeId) (nodes edges : Nat)

namespace Event

/-- Whether an event is logged at the finest level only. -/
def isFine : Event → Bool
  | visited _ => true
  | _ => false

def line : Event → String
  | blankText => "DEBUG l4_mermaid: empty input"
  | programSeen => "DEBUG l4_mermaid: parsing as program"
  | formSeen => "DEBUG l4_mermaid: parsing as expression"
  | rejected detail => "DEBUG l4_mermaid: rejected source detail=" ++ detail
  | visited id =>
    "TRACE l4_mermaid::graph_mapper: mapping children node=" ++ id.text ++ " category="
      ++ id.category.name
  | drawn root nodes edges =>
    "DEBUG l4_mermaid::graph_mapper: mapped AST to graph root=" ++ root.text ++ " nodes="
      ++ toString nodes ++ " edges=" ++ toString edges

end Event

def Rejection.events : Rejection → List Event
  | blank => [.blankText]
  | unreadable error => [.rejected error.message]
  | invalidProgram fault => [.programSeen, .rejected fault.message]
  | invalidForm fault => [.formSeen, .rejected fault.message]

namespace Script

/-- The event of telling a program from a form. -/
def kindEvent : Script → Event
  | program _ => .programSeen
  | form _ => .formSeen

def events (s : Script) : List Event :=
  let d := s.drawing
  s.kindEvent :: d.wiring.visits.map .visited
    ++ [.drawn d.root d.registry.nodes.size d.wiring.edges.length]

end Script

/-- The events of drawing the chart of the script that a text holds. -/
def Source.events (text : String) : List Event :=
  match Script.ofText text with
  | .ok script => script.events
  | .error rejection => rejection.events

end SyntaxChart
