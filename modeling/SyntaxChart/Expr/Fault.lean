/-!
# Syntax faults

The ways in which an s-expression can fail to be an expression, a form or a program, and their
wording.
-/

namespace SyntaxChart

/-- A violated rule of the syntax. -/
inductive Fault where
  | programShape
  | programEmpty
  | nestedProgram
  | nestedDefine
  | defineArity (operands : Nat)
  | dottedExpr
  | emptyApplication
  | quoteArity
  | lambdaShape
  | conditionalArity (operands : Nat)
  | letShape
  | bindingShape
  | assignArity (operands : Nat)
  | assignTarget
  | nameExpected
  | primitiveBound (name : String)
  | reservedName (name : String)
  | invalidName (name : String)
deriving DecidableEq

namespace Fault

def message : Fault → String
  | programShape => "program must have the form (L4 <exp>+)"
  | programEmpty => "unexpected empty program"
  | nestedProgram => "nested L4 program"
  | nestedDefine => "define is only allowed at top level"
  | defineArity n => "define expects a variable and a value, got " ++ toString n ++ " operands"
  | dottedExpr => "dotted pair is not an expression"
  | emptyApplication => "empty application"
  | quoteArity => "quote expects exactly one datum"
  | lambdaShape => "lambda expects a parameter list and a non-empty body"
  | conditionalArity n => "if expects 3 operands, got " ++ toString n
  | letShape => "let expects a binding list and a non-empty body"
  | bindingShape => "binding must have the form (<var> <cexp>)"
  | assignArity n => "set! expects 2 operands, got " ++ toString n
  | assignTarget => "set! target must be a variable"
  | nameExpected => "expected a variable name"
  | primitiveBound name => "cannot bind primitive operator `" ++ name ++ "`"
  | reservedName name => "`" ++ name ++ "` is a reserved keyword"
  | invalidName name => "`" ++ name ++ "` is not a valid identifier"

end Fault

end SyntaxChart
