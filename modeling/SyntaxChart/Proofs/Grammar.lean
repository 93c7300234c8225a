import SyntaxChart.SExpr.Reader

/-!
# The grammar of s-expressions

What a text denotes, without a word on how it is read. Every judgement relates a text to the rest
of it behind the part in question: `Datum cs datum rest` says that `cs` is something that denotes
`datum`, followed by `rest`. The rest is in view because a word goes as far as it can and a comment
ends where its line does, so neither is decided by its own characters alone.

A document is one datum with layout around it (`Document`).
-/

namespace SyntaxChart.SExpr.Grammar

/-- A character that is neither white space nor a mark of the notation. -/
def WordChar (c : Char) : Prop :=
  Text.isBlank c = false ∧ c ∉ ['(', ')', '"', '\'', ';']

/-- Where the line of a comment ends. -/
inductive LineEnd : List Char → Prop
  | text : LineEnd []
  | feed (cs : List Char) : LineEnd ('\n' :: cs)
  | returnFeed (cs : List Char) : LineEnd ('\r' :: '\n' :: cs)

inductive Layout : List Char → List Char → Prop
  | none (cs : List Char) : Layout cs cs
  | space {c : Char} {cs rest : List Char} :
      c ∈ [' ', '\t', '\r', '\n'] → Layout cs rest → Layout (c :: cs) rest
  | comment {line cs rest : List Char} :
      (∀ c ∈ line, c ≠ '\r' ∧ c ≠ '\n') → LineEnd cs → Layout cs rest →
        Layout (';' :: (line ++ cs)) rest

/-- What a backslash and a character stand for. -/
inductive Escape : Char → Char → Prop
  | feed : Escape 'n' '\n'
  | tab : Escape 't' '\t'
  | plain {c : Char} : c ≠ 'n' → c ≠ 't' → Escape c c

/-- What stands between two double quotes, and the text it denotes. -/
inductive Quotation : List Char → List Char → List Char → Prop
  | close (rest : List Char) : Quotation ('"' :: rest) [] rest
  | plain {c : Char} {cs text rest : List Char} :
      c ≠ '"' → c ≠ '\\' → Quotation cs text rest → Quotation (c :: cs) (c :: text) rest
  | escape {e c : Char} {cs text rest : List Char} :
      Escape e c → Quotation cs text rest → Quotation ('\\' :: e :: cs) (c :: text) rest

/-- A run of word characters that goes as far as it can. -/
structure Word (cs word rest : List Char) : Prop where
  split : cs = word ++ rest
  ne_nil : word ≠ []
  chars : ∀ c ∈ word, WordChar c
  maximal : ∀ c ∈ rest.head?, ¬WordChar c

mutual

inductive Datum : List Char → SExpr → List Char → Prop
  | list {cs close rest : List Char} {items : List SExpr} :
      Items cs items close → Layout close (')' :: rest) → Datum ('(' :: cs) (.list items) rest
  | dotted {cs sep dot behind start close rest : List Char} {items : List SExpr} {tail : SExpr} :
      Items cs items sep → items ≠ [] → Layout sep dot → Word dot ['.'] behind →
        Layout behind start → Datum start tail close → Layout close (')' :: rest) →
          Datum ('(' :: cs) (.dotted items tail) rest
  | quote {cs start rest : List Char} {datum : SExpr} :
      Layout cs start → Datum start datum rest →
        Datum ('\'' :: cs) (.list [.atom "quote", datum]) rest
  | string {cs text rest : List Char} :
      Quotation cs text rest → Datum ('"' :: cs) (.string (String.ofList text)) rest
  | word {cs word rest : List Char} :
      Word cs word rest → Datum cs (.atom (String.ofList word)) rest

/-- Data behind each other, each behind layout, none of them a bare dot. -/
inductive Items : List Char → List SExpr → List Char → Prop
  | nil (cs : List Char) : Items cs [] cs
  | cons {cs start next rest : List Char} {datum : SExpr} {items : List SExpr} :
      Layout cs start → Datum start datum next → datum ≠ .atom "." → Items next items rest →
        Items cs (datum :: items) rest

end

/-- A text that is one datum with layout around it. -/
def Document (cs : List Char) (datum : SExpr) : Prop :=
  ∃ start rest, Layout cs start ∧ Datum start datum rest ∧ Layout rest []

end SyntaxChart.SExpr.Grammar
