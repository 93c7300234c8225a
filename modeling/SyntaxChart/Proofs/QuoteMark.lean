import SyntaxChart.Proofs.Reading

/-!
# The quote mark

A quote mark in front of a text and the text in a list behind the word `quote` read the same, as the
list of that word and what the text reads as (`SExpr.read_quoted`). A bare dot is the exception: it
is a datum on its own and behind a quote mark, but in a list it is there for the tail, and no tail
follows.

In the list the text stands in front of a line end and a parenthesis. A line end behind a text
changes nothing in front of it: it ends a word that the text ends with, and also a comment
(`Grammar.Datum.append_line`).
-/

namespace SyntaxChart.SExpr

namespace Grammar

theorem LineEnd.append_line {cs : List Char} (h : LineEnd cs) (more : List Char) :
    LineEnd (cs ++ '\n' :: more) := by
  cases h with
  | text | feed => exact .feed _
  | returnFeed => exact .returnFeed _

theorem Layout.append_line {cs rest : List Char} (h : Layout cs rest) (more : List Char) :
    Layout (cs ++ '\n' :: more) (rest ++ '\n' :: more) := by
  induction h with
  | none => exact .none _
  | space hc _ ih => exact .space hc ih
  | comment hline hend _ ih =>
    rw [List.cons_append, List.append_assoc]
    exact .comment hline (hend.append_line more) ih

theorem Word.append_line {cs word rest : List Char} (h : Word cs word rest) (more : List Char) :
    Word (cs ++ '\n' :: more) word (rest ++ '\n' :: more) where
  split := by rw [h.split, List.append_assoc]
  ne_nil := h.ne_nil
  chars := h.chars
  maximal c hc := by
    cases rest with
    | nil =>
      obtain rfl : '\n' = c := by simpa using hc
      exact fun hw => absurd hw.1 (by decide)
    | cons d rest => exact h.maximal c hc

theorem Quotation.append {cs text rest : List Char} (h : Quotation cs text rest)
    (more : List Char) : Quotation (cs ++ more) text (rest ++ more) := by
  induction h with
  | close => exact .close _
  | plain hq hb _ ih => exact .plain hq hb ih
  | escape he _ ih => exact .escape he ih

mutual

/-- A line end behind a text changes nothing in front of it, whatever comes behind the line end. -/
theorem Datum.append_line (more : List Char) : ∀ {cs rest : List Char} {v : SExpr},
    Datum cs v rest → Datum (cs ++ '\n' :: more) v (rest ++ '\n' :: more)
  | _, _, _, .list hi hclose => .list (hi.append_line more) (hclose.append_line more)
  | _, _, _, .dotted hi hne hsep hdot hl hd hclose =>
    .dotted (hi.append_line more) hne (hsep.append_line more) (hdot.append_line more)
      (hl.append_line more) (hd.append_line more) (hclose.append_line more)
  | _, _, _, .quote hl hd => .quote (hl.append_line more) (hd.append_line more)
  | _, _, _, .string hq => .string (hq.append _)
  | _, _, _, .word hw => .word (hw.append_line more)

theorem Items.append_line (more : List Char) : ∀ {cs sep : List Char} {items : List SExpr},
    Items cs items sep → Items (cs ++ '\n' :: more) items (sep ++ '\n' :: more)
  | _, _, _, .nil _ => .nil _
  | _, _, _, .cons hl hd hdot hi =>
    .cons (hl.append_line more) (hd.append_line more) hdot (hi.append_line more)

end

theorem word_quote (cs : List Char) : Word ('q' :: 'u' :: 'o' :: 't' :: 'e' :: ' ' :: cs)
    ['q', 'u', 'o', 't', 'e'] (' ' :: cs) :=
  word_span (by decide)

/-- A dot at the end of a list stands for no tail. -/
theorem items?_dot_close {cs dot behind rest : List Char} (hl : Layout cs dot)
    (hdot : Word dot ['.'] behind) (hclose : Layout behind (')' :: rest)) : items? cs = none := by
  have hdatum := hdot.reads
  obtain ⟨hstop, hparen⟩ := (Datum.word hdot).start
  have htail : next? behind = none := by
    rw [hclose.next?_eq (stop_close rest), datum?_cons]
    simp [isWordChar, marks]
  cases dot with
  | nil => simp at hdatum
  | cons c dot =>
    have hc : c ≠ ')' := by simpa using hparen
    rw [items?_eq, hl.skips hstop]
    simp [if_neg hc, hdatum, word?, htail]

end Grammar

open Grammar

/-- A text with a quote mark in front. -/
def markedText (text : String) : String := "'" ++ text

/-- A text as the second item of a list, behind the word `quote`. The text can end with a comment, so
it stands on a line of its own. -/
def listedText (text : String) : String := "(quote " ++ text ++ "\n)"

theorem toList_listedText (text : String) : (listedText text).toList
    = '(' :: 'q' :: 'u' :: 'o' :: 't' :: 'e' :: ' ' :: (text.toList ++ ['\n', ')']) := by
  simp [listedText, String.toList_append]

theorem Grammar.Document.marked {text : String} {v : SExpr} (h : Document text.toList v) :
    Document (markedText text).toList (quote v) := by
  obtain ⟨start, rest, hl, hd, hend⟩ := h
  exact ⟨'\'' :: text.toList, rest, by simpa [markedText, String.toList_append] using .none _,
    .quote hl hd, hend⟩

theorem Grammar.Document.listed {text : String} {v : SExpr} (h : Document text.toList v)
    (hdot : v ≠ .atom ".") : Document (listedText text).toList (quote v) := by
  obtain ⟨start, rest, hl, hd, hend⟩ := h
  have hv : Items (' ' :: (text.toList ++ ['\n', ')'])) [v] (rest ++ ['\n', ')']) :=
    .cons (.space (by simp) (hl.append_line [')'])) (hd.append_line [')']) hdot (.nil _)
  have hclose : Layout (rest ++ ['\n', ')']) [')'] :=
    (hend.append_line [')']).trans (.space (by simp) (.none _))
  have hitems := Items.cons (.none _) (.word (word_quote _)) (by simp) hv
  refine ⟨_, [], ?_, .list hitems hclose, .none _⟩
  rw [toList_listedText]
  exact .none _

theorem exists_read_listedText_eq_error {text : String} (h : Document text.toList (.atom ".")) :
    ∃ e, read (listedText text) = .error e := by
  obtain ⟨start, rest, hl, hd, hend⟩ := h
  have hitems : items? (' ' :: (text.toList ++ ['\n', ')'])) = none :=
    items?_dot_close (.space (by simp) (hl.append_line [')'])) ((word_of_datum hd).append_line [')'])
      ((hend.append_line [')']).trans (.space (by simp) (.none _)))
  have hquote := Datum.word (word_quote (text.toList ++ ['\n', ')']))
  have hnone := items?_item (.none _) hquote hquote.reads (by simp)
  rw [hitems, Option.map_none] at hnone
  have hskip : skipLayout (listedText text).toList = .ok (listedText text).toList := by
    rw [toList_listedText]
    rfl
  refine ⟨_, read_eq_error_of_datum? hskip ?_⟩
  rw [toList_listedText, datum?_cons, if_pos rfl, hnone, Option.bind_none]

/-- A text behind a quote mark reads as the list of the word `quote` and what the text reads as. So
does the text in a list behind this word, unless it is a bare dot; such a list is rejected. -/
theorem read_quoted {text : String} {v : SExpr} (h : read text = .ok v) :
    read (markedText text) = .ok (quote v)
      ∧ (v ≠ .atom "." → read (listedText text) = .ok (quote v))
      ∧ (v = .atom "." → ∃ e, read (listedText text) = .error e) := by
  have hdocument := document_of_read h
  refine ⟨hdocument.marked.reads, fun hdot => (hdocument.listed hdot).reads, ?_⟩
  rintro rfl
  exact exists_read_listedText_eq_error hdocument

/-- A list with a quoted item and a tail, between a comment on a line of its own and one that the
text ends with. -/
theorem read_quoted_comments :
    let text := ";list\n ('a . \".\") ;end"
    let v := dotted [quote (.atom "a")] (.string ".")
    read text = .ok v ∧ v ≠ .atom "."
      ∧ read (markedText text) = .ok (quote v) ∧ read (listedText text) = .ok (quote v) := by
  intro text v
  have hlist : Datum "('a . \".\") ;end".toList v " ;end".toList :=
    .dotted
      (.cons (.none _) (.quote (.none _) (.word (word_span (by decide)))) (by simp [quote]) (.nil _))
      (List.cons_ne_nil _ _) (.space (by decide) (.none _)) (word_span (by decide))
      (.space (by decide) (.none _)) (.string (.plain (by decide) (by decide) (.close _))) (.none _)
  have htext : text.toList
      = ';' :: ("list".toList ++ '\n' :: ' ' :: "('a . \".\") ;end".toList) := by
    simp [text]
  have hcomment : Layout text.toList "('a . \".\") ;end".toList := by
    rw [htext]
    exact .comment (by simp) (.feed _) (.space (by decide) (.space (by decide) (.none _)))
  have hend : Layout " ;end".toList [] :=
    .space (by decide) (@Layout.comment "end".toList [] [] (by simp) .text (.none _))
  have h : read text = .ok v := Document.reads ⟨_, _, hcomment, hlist, hend⟩
  have hdot : v ≠ .atom "." := by simp [v]
  obtain ⟨hmarked, hlisted, -⟩ := read_quoted h
  exact ⟨h, hdot, hmarked, hlisted hdot⟩

/-- A dot reads on its own and behind a quote mark, and not as the last item of a list. -/
theorem read_listedText_dot_ne :
    read "." = .ok (.atom ".") ∧ read (markedText ".") = .ok (quote (.atom "."))
      ∧ ∀ v, read (listedText ".") ≠ .ok v := by
  have hdot : Document ".".toList (.atom ".") :=
    ⟨['.'], [], .none _, .word (word_span (by decide)), .none _⟩
  refine ⟨hdot.reads, hdot.marked.reads, fun v hv => ?_⟩
  obtain ⟨e, he⟩ := exists_read_listedText_eq_error hdot
  cases hv.symm.trans he

end SyntaxChart.SExpr
