import SyntaxChart.Datum

/-!
# Expressions, forms and scripts

The abstract syntax. A script is what a text holds: a program of top-level forms, or one such form.
A form is a definition or an expression.
-/

namespace SyntaxChart

/-- A name and what it is bound to. -/
structure Binding (α : Type) where
  name : String
  value : α

inductive Expr where
  | number (value : Binary64)
  | boolean (value : Bool)
  | string (text : String)
  | primitive (name : String)
  | reference (name : String)
  | lambda (params : List String) (body : List Expr)
  | conditional (test consequent alternative : Expr)
  | application (operator : Expr) (operands : List Expr)
  | letIn (kind : LetKind) (bindings : List (Binding Expr)) (body : List Expr)
  | quotation (datum : Datum)
  /-- The target is a use of its name, which is bound elsewhere. -/
  | assignment (target : String) (value : Expr)

inductive Form where
  | definition (name : String) (value : Expr)
  | expression (expr : Expr)

/-- What a text holds. -/
inductive Script where
  | program (forms : List Form)
  | form (form : Form)

end SyntaxChart
