import SyntaxChart.SExpr
import SyntaxChart.Word

/-!
# Quoted data

The data behind a quote: symbols, numbers, booleans, strings, and lists as chains of pairs. A list
of items with a tail is the chain that ends in the tail, so it does not matter how a text splits a
chain into items and tail.
-/

namespace SyntaxChart

inductive Datum where
  | empty
  | symbol (name : String)
  | pair (first rest : Datum)
  | number (value : Binary64)
  | boolean (value : Bool)
  | string (text : String)
deriving DecidableEq

namespace Datum

/-- The chain of pairs with the given items that ends in `tail`. -/
def ofList (items : List Datum) (tail : Datum) : Datum :=
  items.foldr pair tail

/-- What a word stands for in quoted data: a number, a boolean, or else a symbol. -/
def ofWord (word : String) : Datum :=
  match Binary64.ofNumeral? word with
  | some x => number x
  | none =>
    match Word.bool? word with
    | some b => boolean b
    | none => symbol word

mutual

def ofSExpr : SExpr → Datum
  | .atom word => ofWord word
  | .string text => string text
  | .list items => ofItems items empty
  | .dotted items tail => ofItems items (ofSExpr tail)

/-- The chain of the items' values that ends in `tail`. -/
def ofItems : List SExpr → Datum → Datum
  | [], tail => tail
  | item :: items, tail => pair (ofSExpr item) (ofItems items tail)

end

theorem ofItems_eq (items : List SExpr) (tail : Datum) :
    ofItems items tail = ofList (items.map ofSExpr) tail := by
  induction items with
  | nil => rfl
  | cons item items ih => simp [ofItems, ofList, ih]

end Datum

end SyntaxChart
