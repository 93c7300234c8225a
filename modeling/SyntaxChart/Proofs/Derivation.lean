import SyntaxChart.Expr
import Mathlib.Data.List.Forall2

/-!
# The grammar of expressions, forms and programs

Which s-expression is which piece of syntax, by productions that may be tried in any order: a list
with a keyword in front has the shape of an application too, and a keyword that of a name. What
keeps the readings apart is that a keyword is no expression, so an application asks nothing of its
operator.
-/

namespace SyntaxChart

namespace Word

/-- The words of the special forms. -/
def reserved : List String :=
  ["L4", "define", "lambda", "if", "let", "letrec", "set!", "quote"]

/-- A word that an assignment can name. -/
structure IsTarget (word : String) : Prop where
  notMem_reserved : word ∉ reserved
  not_numeral : Binary64.ofNumeral? word = none
  ne_dot : word ≠ "."
  head_ne : word.toList.head? ≠ some '#'

/-- A word that can be bound and referred to. -/
structure IsVariable (word : String) : Prop extends IsTarget word where
  notMem_primitives : word ∉ primitives

end Word

/-- What a quoted s-expression stands for. A list is a chain of pairs, which ends in the empty datum
or in what stands behind the dot. -/
inductive Datum.Derives : SExpr → Datum → Prop
  | number {word : String} {x : Binary64} :
      Binary64.ofNumeral? word = some x → Derives (.atom word) (.number x)
  | boolean (b : Bool) : Derives (.atom (if b then "#t" else "#f")) (.boolean b)
  | symbol {word : String} :
      Binary64.ofNumeral? word = none → word ≠ "#t" → word ≠ "#f" →
        Derives (.atom word) (.symbol word)
  | string (text : String) : Derives (.string text) (.string text)
  | list {items : List SExpr} {values : List Datum} :
      List.Forall₂ Derives items values → Derives (.list items) (.ofList values .empty)
  | dotted {items : List SExpr} {values : List Datum} {tail : SExpr} {rest : Datum} :
      List.Forall₂ Derives items values → Derives tail rest →
        Derives (.dotted items tail) (.ofList values rest)

namespace LetKind

def word : LetKind → String
  | plain => "let"
  | recursive => "letrec"

end LetKind

mutual

inductive Expr.Derives : SExpr → Expr → Prop
  | number {word : String} {x : Binary64} :
      Binary64.ofNumeral? word = some x → Expr.Derives (.atom word) (.number x)
  | boolean (b : Bool) : Expr.Derives (.atom (if b then "#t" else "#f")) (.boolean b)
  | string (text : String) : Expr.Derives (.string text) (.string text)
  | primitive {name : String} : name ∈ Word.primitives → Expr.Derives (.atom name) (.primitive name)
  | reference {name : String} : Word.IsVariable name → Expr.Derives (.atom name) (.reference name)
  | lambda {params : List String} {items : List SExpr} {body : List Expr} :
      (∀ name ∈ params, Word.IsVariable name) → List.Forall₂ Expr.Derives items body → body ≠ [] →
        Expr.Derives (.list (.atom "lambda" :: .list (params.map .atom) :: items))
          (.lambda params body)
  | conditional {x y z : SExpr} {test consequent alternative : Expr} :
      Expr.Derives x test → Expr.Derives y consequent → Expr.Derives z alternative →
        Expr.Derives (.list [.atom "if", x, y, z]) (.conditional test consequent alternative)
  | letIn (kind : LetKind) {items : List SExpr} {bindings : List (Binding Expr)}
      {inner : List SExpr} {body : List Expr} :
      List.Forall₂ Binding.Derives items bindings → List.Forall₂ Expr.Derives inner body →
        body ≠ [] →
          Expr.Derives (.list (.atom kind.word :: .list items :: inner)) (.letIn kind bindings body)
  | assignment {target : String} {x : SExpr} {value : Expr} :
      Word.IsTarget target → Expr.Derives x value →
        Expr.Derives (.list [.atom "set!", .atom target, x]) (.assignment target value)
  | quotation {x : SExpr} {datum : Datum} :
      Datum.Derives x datum → Expr.Derives (.list [.atom "quote", x]) (.quotation datum)
  | application {head : SExpr} {operator : Expr} {items : List SExpr} {operands : List Expr} :
      Expr.Derives head operator → List.Forall₂ Expr.Derives items operands →
        Expr.Derives (.list (head :: items)) (.application operator operands)

inductive Binding.Derives : SExpr → Binding Expr → Prop
  | intro {name : String} {x : SExpr} {value : Expr} :
      Word.IsVariable name → Expr.Derives x value →
        Binding.Derives (.list [.atom name, x]) ⟨name, value⟩

end

/-- A form is a definition or an expression; inside an expression there is no definition. -/
inductive Form.Derives : SExpr → Form → Prop
  | definition {name : String} {x : SExpr} {value : Expr} :
      Word.IsVariable name → Expr.Derives x value →
        Derives (.list [.atom "define", .atom name, x]) (.definition name value)
  | expression {x : SExpr} {e : Expr} : Expr.Derives x e → Derives x (.expression e)

inductive Script.DerivesProgram : SExpr → List Form → Prop
  | intro {items : List SExpr} {forms : List Form} :
      List.Forall₂ Form.Derives items forms → forms ≠ [] →
        DerivesProgram (.list (.atom "L4" :: items)) forms

end SyntaxChart
