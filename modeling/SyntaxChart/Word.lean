import SyntaxChart.Binary64.Nearest

/-!
# Words

What a word can be before it is a name: a keyword, a primitive operator, a boolean, a number.
-/

namespace SyntaxChart

/-- Whether the values bound by a `let` see its names. -/
inductive LetKind where
  | plain | recursive
deriving DecidableEq

inductive Keyword where
  | program | define | lambda | conditional | assign | quote
  | letIn (kind : LetKind)
deriving DecidableEq

namespace Keyword

def spelling : Keyword → String
  | program => "L4"
  | define => "define"
  | lambda => "lambda"
  | conditional => "if"
  | assign => "set!"
  | quote => "quote"
  | letIn .plain => "let"
  | letIn .recursive => "letrec"

def all : List Keyword :=
  [program, define, lambda, conditional, letIn .plain, letIn .recursive, assign, quote]

def ofWord? (word : String) : Option Keyword :=
  all.find? (·.spelling = word)

theorem ofWord?_eq_some_iff {word : String} {k : Keyword} :
    ofWord? word = some k ↔ word = k.spelling := by
  constructor
  · intro h
    have := List.find?_some h
    exact (of_decide_eq_true this).symm
  · rintro rfl
    rcases k with _ | _ | _ | _ | _ | _ | _ | _ <;> rfl

end Keyword

namespace Word

def isReserved (word : String) : Bool :=
  (Keyword.ofWord? word).isSome

def primitives : List String :=
  ["+", "-", "*", "/", ">", "<", "=", "not", "and", "or", "eq?", "string=?", "cons", "car", "cdr",
    "list", "pair?", "list?", "number?", "boolean?", "symbol?", "string?", "display", "newline"]

def isPrimitive (word : String) : Bool :=
  primitives.contains word

def ofBool (b : Bool) : String :=
  if b then "#t" else "#f"

def bool? (word : String) : Option Bool :=
  if word = "#t" then some true else if word = "#f" then some false else none

end Word

end SyntaxChart
