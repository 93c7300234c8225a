/-!
# Categories of nodes

What a node of a chart stands for. A category's name is part of the node's identifier, and five
categories are groups: they stand for no syntax of their own, only for a list of children.
-/

namespace SyntaxChart

inductive Category where
  | program | definition | declaration
  | number | boolean | string | procedure | conditional | letPlain | letRecursive | quotation
  | application | assignment | primitive | binding | reference
  | numberDatum | booleanDatum | stringDatum | emptyDatum | symbolDatum | pairDatum
  | forms | params | body | operands | bindings
deriving DecidableEq, Hashable

namespace Category

/-- The name of a category, as identifiers and labels show it. -/
def name : Category → String
  | program => "Program"
  | definition => "DefineExp"
  | declaration => "VarDecl"
  | number => "NumExp"
  | boolean => "BoolExp"
  | string => "StrExp"
  | procedure => "ProcExp"
  | conditional => "IfExp"
  | letPlain => "LetExp"
  | letRecursive => "LetRecExp"
  | quotation => "LitExp"
  | application => "AppExp"
  | assignment => "SetExp"
  | primitive => "PrimOp"
  | binding => "Binding"
  | reference => "VarRef"
  | numberDatum => "number"
  | booleanDatum => "boolean"
  | stringDatum => "string"
  | emptyDatum => "EmptySExp"
  | symbolDatum => "SymbolSExp"
  | pairDatum => "CompoundSExp"
  | forms => "Exps"
  | params => "Params"
  | body => "Body"
  | operands => "Rands"
  | bindings => "Bindings"

/-- Whether a category stands for a list of children. -/
def isGroup : Category → Bool
  | forms | params | body | operands | bindings => true
  | _ => false

/-- The label of a node that shows a text of the source. -/
def labelWith (c : Category) (text : String) : String :=
  c.name ++ "(" ++ text ++ ")"

end Category

end SyntaxChart
