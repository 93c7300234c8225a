import SyntaxChart.Text.Blank

/-!
# Layout between data

Layout is spaces, tabs, line ends and comments. A comment runs from a semicolon up to a line end or
the end of the text; a carriage return in it that no line feed follows is an error, found at that
carriage return.
-/

namespace SyntaxChart

/-- Reading stopped; `rest` is what was left of the text there. -/
structure ReadError where
  rest : List Char
deriving DecidableEq

namespace ReadError

/-- The first line of what was left, without blanks around it. -/
def excerpt (e : ReadError) : List Char :=
  Text.trim (Text.firstLine e.rest)

/-- Quotes what was left, or says that nothing was. -/
def message (e : ReadError) : String :=
  match e.excerpt with
  | [] => "syntax error in s-expression: unexpected end of input"
  | cs => "syntax error in s-expression: unexpected `" ++ String.ofList cs ++ "`"

end ReadError

namespace SExpr

/-- The layout characters: space, tab, carriage return and line feed. -/
def isSpace (c : Char) : Bool :=
  c == ' ' || c == '\t' || c == '\r' || c == '\n'

theorem isBlank_of_isSpace {c : Char} (h : isSpace c = true) : Text.isBlank c = true := by
  simp only [isSpace, Bool.or_eq_true, beq_iff_eq] at h
  rcases h with ((rfl | rfl) | rfl) | rfl <;> rfl

mutual

/-- Skips layout; gives what follows it. -/
def skipLayout : List Char → Except ReadError (List Char)
  | [] => .ok []
  | c :: cs =>
    if isSpace c then skipLayout cs
    else if c = ';' then skipComment cs
    else .ok (c :: cs)

/-- Skips the rest of a comment and the layout behind it. -/
def skipComment : List Char → Except ReadError (List Char)
  | [] => .ok []
  | c :: cs =>
    if c = '\n' then skipLayout cs
    else if c = '\r' then
      if cs.head? = some '\n' then skipLayout cs else .error ⟨c :: cs⟩
    else skipComment cs

end

theorem length_skip (cs : List Char) :
    (∀ r, skipLayout cs = .ok r → r.length ≤ cs.length) ∧
      ∀ r, skipComment cs = .ok r → r.length ≤ cs.length := by
  induction cs with
  | nil => simp [skipLayout, skipComment]
  | cons c cs ih =>
    constructor
    · intro r h
      rw [skipLayout] at h
      split at h
      · exact Nat.le_succ_of_le (ih.1 r h)
      · split at h
        · exact Nat.le_succ_of_le (ih.2 r h)
        · cases h; exact Nat.le_refl _
    · intro r h
      rw [skipComment] at h
      split at h
      · exact Nat.le_succ_of_le (ih.1 r h)
      · split at h
        · split at h
          · exact Nat.le_succ_of_le (ih.1 r h)
          · cases h
        · exact Nat.le_succ_of_le (ih.2 r h)

theorem length_le_of_skipLayout {cs r : List Char} (h : skipLayout cs = .ok r) :
    r.length ≤ cs.length :=
  (length_skip cs).1 r h

end SExpr

end SyntaxChart
