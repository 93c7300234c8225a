import SyntaxChart.SExpr
import SyntaxChart.SExpr.Layout

/-!
# Reading data

A text is read by recursive descent. Each step gives what it read and the rest of the text, which
is shorter, so reading ends on every text. A datum that fails anywhere inside is reported from its
own start, and what follows a complete datum from where it starts.
-/

namespace SyntaxChart.SExpr

/-- The marks of the notation, which end a word. -/
def marks : List Char :=
  ['(', ')', '"', '\'', ';']

/-- A character that belongs to a word: neither blank nor a mark. -/
def isWordChar (c : Char) : Bool :=
  !Text.isBlank c && !marks.contains c

/-- What a character behind a backslash stands for. -/
def unescape (c : Char) : Char :=
  if c = 'n' then '\n' else if c = 't' then '\t' else c

/-- Reads the rest of a string up to its closing quote. -/
def readString? : List Char → Option (List Char × List Char)
  | [] => none
  | c :: cs =>
    if c = '"' then some ([], cs)
    else if c = '\\' then
      match cs with
      | [] => none
      | e :: cs => (readString? cs).map fun (text, rest) => (unescape e :: text, rest)
    else (readString? cs).map fun (text, rest) => (c :: text, rest)

theorem length_lt_of_readString? {cs text rest : List Char}
    (h : readString? cs = some (text, rest)) : rest.length < cs.length := by
  fun_induction readString? cs generalizing text with
  | case1 => cases h
  | case2 => cases h; simp
  | case3 => cases h
  | case4 _ _ _ ih | case5 _ _ _ _ ih =>
    obtain ⟨⟨_, _⟩, hr, h⟩ := Option.map_eq_some_iff.1 h
    cases h
    have := ih hr
    simp only [List.length_cons]
    omega

/-- The list of the items, with the tail if there is one; a tail needs an item in front of its dot. -/
def ofItems? : List SExpr → Option SExpr → Option SExpr
  | items, none => some (list items)
  | [], some _ => none
  | items, some tail => some (dotted items tail)

abbrev Shorter (cs : List Char) := { rest : List Char // rest.length < cs.length }

mutual

/-- Reads the datum that a text starts with. -/
def readDatum? (cs : List Char) : Option (SExpr × Shorter cs) :=
  match cs with
  | [] => none
  | c :: cs =>
    if c = '(' then
      match readItems? cs with
      | some (items, tail, ⟨rest, h⟩) =>
        (ofItems? items tail).map fun datum => (datum, ⟨rest, Nat.lt_succ_of_lt h⟩)
      | none => none
    else if c = '\'' then
      match readNext? cs with
      | some (datum, ⟨rest, h⟩) => some (quote datum, ⟨rest, Nat.lt_succ_of_lt h⟩)
      | none => none
    else if c = '"' then
      match h : readString? cs with
      | some (text, rest) =>
        some (string (String.ofList text),
          ⟨rest, Nat.lt_succ_of_lt (length_lt_of_readString? h)⟩)
      | none => none
    else if isWordChar c then
      some (atom (String.ofList (c :: cs.takeWhile isWordChar)),
        ⟨cs.dropWhile isWordChar, Nat.lt_succ_of_le (List.dropWhile_suffix _).length_le⟩)
    else
      none
termination_by (cs.length, 0)

/-- Reads a datum behind layout. -/
def readNext? (cs : List Char) : Option (SExpr × Shorter cs) :=
  match h : skipLayout cs with
  | .ok start =>
    match readDatum? start with
    | some (datum, ⟨rest, hr⟩) =>
      some (datum, ⟨rest, Nat.lt_of_lt_of_le hr (length_le_of_skipLayout h)⟩)
    | none => none
  | .error _ => none
termination_by (cs.length, 1)
decreasing_by
  have := length_le_of_skipLayout h
  simp only [Prod.lex_def]
  omega

/-- Reads the items of a list up to and with its closing parenthesis, and the tail behind a dot if
there is one. -/
def readItems? (cs : List Char) : Option (List SExpr × Option SExpr × Shorter cs) :=
  match h : skipLayout cs with
  | .ok (c :: start) =>
    if c = ')' then
      some ([], none, ⟨start, length_le_of_skipLayout h⟩)
    else
      match readDatum? (c :: start) with
      | some (datum, ⟨rest, hd⟩) =>
        if datum.word? = some "." then
          match readNext? rest with
          | some (tail, ⟨rest, ht⟩) =>
            match hc : skipLayout rest with
            | .ok (c :: rest) =>
              if c = ')' then
                some ([], some tail, ⟨rest, by
                  have := length_le_of_skipLayout h
                  have := length_le_of_skipLayout hc
                  simp only [List.length_cons] at *
                  omega⟩)
              else
                none
            | _ => none
          | none => none
        else
          match readItems? rest with
          | some (items, tail, ⟨rest, hi⟩) =>
            some (datum :: items, tail, ⟨rest, by
              have := length_le_of_skipLayout h
              omega⟩)
          | none => none
      | none => none
  | _ => none
termination_by (cs.length, 1)
decreasing_by
  all_goals
    have := length_le_of_skipLayout h
    simp only [Prod.lex_def]
    omega

end

/-- The datum that a text starts with, and the rest of the text. -/
def datum? (cs : List Char) : Option (SExpr × List Char) :=
  (readDatum? cs).map fun (datum, rest) => (datum, rest.1)

/-- The datum behind the layout that a text starts with, and the rest of the text. -/
def next? (cs : List Char) : Option (SExpr × List Char) :=
  (readNext? cs).map fun (datum, rest) => (datum, rest.1)

/-- The items and the tail that a text starts with up to a closing parenthesis, and the rest. -/
def items? (cs : List Char) : Option (List SExpr × Option SExpr × List Char) :=
  (readItems? cs).map fun (items, tail, rest) => (items, tail, rest.1)

@[simp]
theorem datum?_nil : datum? [] = none := by
  rw [datum?, readDatum?]; rfl

theorem datum?_cons (c : Char) (cs : List Char) :
    datum? (c :: cs) =
      if c = '(' then
        (items? cs).bind fun (items, tail, rest) => (ofItems? items tail).map (·, rest)
      else if c = '\'' then (next? cs).map fun (datum, rest) => (quote datum, rest)
      else if c = '"' then
        (readString? cs).map fun (text, rest) => (string (String.ofList text), rest)
      else if isWordChar c then
        some (atom (String.ofList (c :: cs.takeWhile isWordChar)), cs.dropWhile isWordChar)
      else none := by
  rw [datum?, readDatum?, items?, next?]
  split
  · cases readItems? cs with
    | none => rfl
    | some p => simp [Function.comp_def]
  · split
    · cases readNext? cs <;> rfl
    · split
      · split <;> simp_all
      · split <;> rfl

theorem next?_eq (cs : List Char) :
    next? cs = match skipLayout cs with
      | .ok start => datum? start
      | .error _ => none := by
  rw [next?, readNext?]
  split <;> rename_i h
  · simp only [h, datum?]
    cases readDatum? _ <;> rfl
  · simp only [h]; rfl

theorem items?_eq (cs : List Char) :
    items? cs = match skipLayout cs with
      | .ok (c :: start) =>
        if c = ')' then some ([], none, start)
        else
          (datum? (c :: start)).bind fun (datum, rest) =>
            if datum.word? = some "." then
              (next? rest).bind fun (tail, rest) =>
                match skipLayout rest with
                | .ok (c :: rest) => if c = ')' then some ([], some tail, rest) else none
                | _ => none
            else (items? rest).map fun (items, tail, rest) => (datum :: items, tail, rest)
      | _ => none := by
  rw [items?, readItems?]
  split <;> rename_i h
  · simp only [h, datum?]
    split
    · rfl
    · cases readDatum? _ with
      | none => rfl
      | some p =>
        simp only [Option.map_some, Option.bind_some]
        split
        · rw [next?]
          cases readNext? p.2.1 with
          | none => rfl
          | some q =>
            simp only [Option.map_some, Option.bind_some]
            split <;> rename_i h'
            · simp only [h']; split <;> rfl
            · split <;> simp_all
        · rw [items?]
          cases readItems? p.2.1 <;> rfl
  · split <;> simp_all

theorem length_lt_of_datum? {cs rest : List Char} {datum : SExpr}
    (h : datum? cs = some (datum, rest)) : rest.length < cs.length := by
  obtain ⟨⟨_, rest⟩, -, h⟩ := Option.map_eq_some_iff.1 h
  cases h; exact rest.2

theorem length_lt_of_next? {cs rest : List Char} {datum : SExpr}
    (h : next? cs = some (datum, rest)) : rest.length < cs.length := by
  obtain ⟨⟨_, rest⟩, -, h⟩ := Option.map_eq_some_iff.1 h
  cases h; exact rest.2

/-- Reads a text that is one datum with layout around it. -/
def read (text : String) : Except ReadError SExpr := do
  let start ← skipLayout text.toList
  match datum? start with
  | none => .error ⟨start⟩
  | some (datum, rest) =>
    match ← skipLayout rest with
    | [] => .ok datum
    | rest => .error ⟨rest⟩

end SyntaxChart.SExpr
