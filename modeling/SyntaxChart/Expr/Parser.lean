import SyntaxChart.Expr
import SyntaxChart.Expr.Fault

/-!
# Parsing

An s-expression becomes an expression by its head: a keyword decides the form, anything else is an
application. The first violated rule in the order of the text is reported, after the shape of the
form it stands in.
-/

namespace SyntaxChart

namespace Word

/-- Checks that a word can name a variable: it is no keyword, no number, not a dot, and does not
begin with a hash sign. -/
def checkName (word : String) : Except Fault Unit :=
  if isReserved word then .error (.reservedName word)
  else if word.toList.head? = some '#' ∨ word = "." ∨ (Binary64.ofNumeral? word).isSome then
    .error (.invalidName word)
  else .ok ()

/-- Checks that a word can be bound: it can name a variable and is no primitive operator. -/
def checkBound (word : String) : Except Fault Unit :=
  if isPrimitive word then .error (.primitiveBound word) else checkName word

end Word

namespace Expr

def ofWord (word : String) : Except Fault Expr :=
  match Binary64.ofNumeral? word with
  | some x => .ok (number x)
  | none =>
    match Word.bool? word with
    | some b => .ok (boolean b)
    | none =>
      if Word.isPrimitive word then .ok (primitive word)
      else do
        Word.checkName word
        return reference word

def boundName : SExpr → Except Fault String
  | .atom word => do
    Word.checkBound word
    return word
  | _ => .error .nameExpected

def boundNames : List SExpr → Except Fault (List String)
  | [] => .ok []
  | item :: items => do
    let name ← boundName item
    let names ← boundNames items
    return name :: names

/-- The name that an assignment changes. -/
def targetName : SExpr → Except Fault String
  | .atom word => do
    Word.checkName word
    return word
  | _ => .error .assignTarget

def keyword? (head : SExpr) : Option Keyword :=
  head.word?.bind Keyword.ofWord?

mutual

def parse : SExpr → Except Fault Expr
  | .atom word => ofWord word
  | .string text => .ok (string text)
  | .dotted _ _ => .error .dottedExpr
  | .list [] => .error .emptyApplication
  | .list (head :: operands) =>
    match keyword? head with
    | some .quote =>
      match operands with
      | [datum] => .ok (quotation (Datum.ofSExpr datum))
      | _ => .error .quoteArity
    | some .lambda =>
      match operands with
      | .list params :: first :: body => do
        let params ← boundNames params
        let first ← parse first
        let body ← parseAll body
        return lambda params (first :: body)
      | _ => .error .lambdaShape
    | some .conditional =>
      match operands with
      | [test, consequent, alternative] => do
        let test ← parse test
        let consequent ← parse consequent
        let alternative ← parse alternative
        return conditional test consequent alternative
      | _ => .error (.conditionalArity operands.length)
    | some (.letIn kind) =>
      match operands with
      | .list bindings :: first :: body => do
        let bindings ← parseBindings bindings
        let first ← parse first
        let body ← parseAll body
        return letIn kind bindings (first :: body)
      | _ => .error .letShape
    | some .assign =>
      match operands with
      | [target, value] => do
        let target ← targetName target
        let value ← parse value
        return assignment target value
      | _ => .error (.assignArity operands.length)
    | some .define => .error .nestedDefine
    | some .program => .error .nestedProgram
    | none => do
      let operator ← parse head
      let operands ← parseAll operands
      return application operator operands

/-- The expressions that s-expressions are, up to the first fault. -/
def parseAll : List SExpr → Except Fault (List Expr)
  | [] => .ok []
  | item :: items => do
    let expr ← parse item
    let exprs ← parseAll items
    return expr :: exprs

/-- The bindings of a `let`, up to the first fault. -/
def parseBindings : List SExpr → Except Fault (List (Binding Expr))
  | [] => .ok []
  | .list [name, value] :: items => do
    let name ← boundName name
    let value ← parse value
    let bindings ← parseBindings items
    return ⟨name, value⟩ :: bindings
  | _ :: _ => .error .bindingShape

end

end Expr

namespace Form

def parse : SExpr → Except Fault Form
  | .list (head :: operands) =>
    if Expr.keyword? head = some .define then
      match operands with
      | [name, value] => do
        let name ← Expr.boundName name
        let value ← Expr.parse value
        return definition name value
      | _ => .error (.defineArity operands.length)
    else expression <$> Expr.parse (.list (head :: operands))
  | sexpr => expression <$> Expr.parse sexpr

/-- The forms that s-expressions are, up to the first fault. -/
def parseAll : List SExpr → Except Fault (List Form)
  | [] => .ok []
  | item :: items => do
    let form ← parse item
    let forms ← parseAll items
    return form :: forms

end Form

namespace Script

/-- Whether an s-expression begins as a program does; a dotted list can, but is none. -/
def isProgramLike : SExpr → Bool
  | .list (head :: _) | .dotted (head :: _) _ => decide (Expr.keyword? head = some .program)
  | _ => false

def parseProgram : SExpr → Except Fault (List Form)
  | .list (head :: items) =>
    if Expr.keyword? head = some .program then
      match items with
      | [] => .error .programEmpty
      | _ => Form.parseAll items
    else .error .programShape
  | _ => .error .programShape

end Script

end SyntaxChart
