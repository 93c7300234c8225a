/-!
# S-expressions

What a text denotes before its words mean anything: atoms, strings, and lists of these with or
without a tail behind a dot.
-/

namespace SyntaxChart

inductive SExpr where
  /-- A word: a number, a name, an operator, a keyword. -/
  | atom (word : String)
  | string (text : String)
  | list (items : List SExpr)
  /-- A list with a tail behind its dot, `(items . tail)`. -/
  | dotted (items : List SExpr) (tail : SExpr)

namespace SExpr

/-- The word, where the datum is an atom. -/
def word? : SExpr → Option String
  | atom word => some word
  | _ => none

/-- What a quote mark and a datum denote: a list of the word `quote` and the datum. -/
def quote (datum : SExpr) : SExpr :=
  list [atom "quote", datum]

end SExpr

end SyntaxChart
