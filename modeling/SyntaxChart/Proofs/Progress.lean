import SyntaxChart.Proofs.Stopping

/-!
# Reading moves forward

Layout is skipped in rounds: the spaces first, and then a comment up to the end of its line, if one
follows (`SExpr.skipRound`). A round that is not the last has passed the semicolon of a comment at
least. A datum is tried as a list, as something behind a quote mark, as a string and as a word, in
this order, and each of these starts from the same place (`SExpr.datum?_eq_or`). Whichever of them
reads something takes a character or more off the front of the text (`SExpr.Advances`), and skipping
layout takes none back. So no chain of calls of the reader goes on forever
(`SExpr.wellFounded_calls`).
-/

namespace SyntaxChart.SExpr

open Grammar

/-! ## Rounds of skipping -/

/-- Goes on to the end of a comment's line. -/
def skipLine : List Char → Except ReadError (List Char)
  | [] => .ok []
  | c :: cs =>
    if c = '\n' then .ok (c :: cs)
    else if c = '\r' then
      if cs.head? = some '\n' then .ok (c :: cs) else .error ⟨c :: cs⟩
    else skipLine cs

/-- What a round of skipping comes to: the end of the layout, or the end of a comment's line. -/
inductive Round where
  | last (rest : List Char)
  | more (rest : List Char)

/-- A round of skipping: spaces, and a comment up to the end of its line if one follows. -/
def skipRound (cs : List Char) : Except ReadError Round :=
  match cs.dropWhile isSpace with
  | [] => .ok (.last [])
  | c :: rest => if c = ';' then (skipLine rest).map .more else .ok (.last (c :: rest))

theorem skipComment_eq (cs : List Char) : skipComment cs = (skipLine cs).bind skipLayout := by
  induction cs with
  | nil => rfl
  | cons c cs ih =>
    rw [skipComment, skipLine]
    split_ifs with hn hr hf
    · simp [Except.bind, skipLayout, isSpace, hn]
    · simp [Except.bind, skipLayout, isSpace, hr]
    · rfl
    · exact ih

/-- Skipping layout is a round of it, and again where this was not the last. -/
theorem skipLayout_eq_skipRound (cs : List Char) :
    skipLayout cs = (skipRound cs).bind fun
      | .last rest => .ok rest
      | .more rest => skipLayout rest := by
  induction cs with
  | nil => rfl
  | cons c cs ih =>
    rw [skipLayout]
    split_ifs with hs hc
    · rw [ih, skipRound, skipRound, List.dropWhile_cons_of_pos hs]
    · rw [skipRound, List.dropWhile_cons_of_neg hs]
      simp only [if_pos hc, skipComment_eq]
      cases skipLine cs <;> rfl
    · rw [skipRound, List.dropWhile_cons_of_neg hs]
      simp only [if_neg hc]
      rfl

theorem exists_of_skipLine_eq_ok {cs rest : List Char} (h : skipLine cs = .ok rest) :
    ∃ line, cs = line ++ rest ∧ (∀ c ∈ line, c ≠ '\r' ∧ c ≠ '\n') ∧ LineEnd rest := by
  induction cs with
  | nil =>
    cases h
    exact ⟨[], rfl, by simp, .text⟩
  | cons c cs ih =>
    rw [skipLine] at h
    split_ifs at h with hn hr hf
    · cases h
      exact ⟨[], rfl, by simp, hn ▸ .feed cs⟩
    · cases h
      obtain ⟨cs, rfl⟩ := List.head?_eq_some_iff.1 hf
      exact ⟨[], rfl, by simp, hr ▸ .returnFeed cs⟩
    · obtain ⟨line, rfl, hline, hend⟩ := ih h
      exact ⟨c :: line, rfl, List.forall_mem_cons.2 ⟨⟨hr, hn⟩, hline⟩, hend⟩

/-- A round with more to come has passed spaces and the whole line of a comment. -/
theorem exists_of_skipRound_eq_more {cs rest : List Char} (h : skipRound cs = .ok (.more rest)) :
    ∃ spaces line, cs = spaces ++ ';' :: (line ++ rest) ∧ (∀ c ∈ spaces, isSpace c = true)
      ∧ (∀ c ∈ line, c ≠ '\r' ∧ c ≠ '\n') ∧ LineEnd rest := by
  have hsplit := List.takeWhile_append_dropWhile (p := isSpace) (l := cs)
  rw [skipRound] at h
  split at h
  · cases h
  · rename_i c behind hbehind
    split_ifs at h with hc
    · subst hc
      rcases hl : skipLine behind with e | next <;> rw [hl] at h <;> cases h
      obtain ⟨line, rfl, hline, hend⟩ := exists_of_skipLine_eq_ok hl
      exact ⟨_, line, (hbehind ▸ hsplit).symm, fun c => List.mem_takeWhile_imp, hline, hend⟩
    · cases h

theorem length_lt_of_skipRound {cs rest : List Char} (h : skipRound cs = .ok (.more rest)) :
    rest.length < cs.length := by
  obtain ⟨spaces, line, rfl, -⟩ := exists_of_skipRound_eq_more h
  simp only [List.length_append, List.length_cons]
  omega

/-- Behind layout that was skipped there is none left. -/
theorem skipLayout_of_skipLayout {cs rest : List Char} (h : skipLayout cs = .ok rest) :
    skipLayout rest = .ok rest :=
  ((stop_of_skip cs rest).1 h).skips

/-! ## The parts that a datum is tried as -/

/-- Reads what stands behind a mark. -/
def behind? {α : Type} (mark : Char) (part : List Char → Option α) : List Char → Option α
  | [] => none
  | c :: cs => if c = mark then part cs else none

/-- Reads a list. -/
def list? : List Char → Option (SExpr × List Char) :=
  behind? '(' fun cs =>
    (items? cs).bind fun (items, tail, rest) => (ofItems? items tail).map (·, rest)

/-- Reads a quote mark and the datum behind it. -/
def quoted? : List Char → Option (SExpr × List Char) :=
  behind? '\'' fun cs => (next? cs).map fun (datum, rest) => (quote datum, rest)

/-- Reads a string between double quotes. -/
def stringLiteral? : List Char → Option (SExpr × List Char) :=
  behind? '"' fun cs =>
    (readString? cs).map fun (text, rest) => (string (String.ofList text), rest)

/-- Reads a word, as far as it goes. -/
def token? (cs : List Char) : Option (SExpr × List Char) :=
  match cs.takeWhile isWordChar with
  | [] => none
  | c :: word => some (atom (String.ofList (c :: word)), cs.dropWhile isWordChar)

section Behind

variable {α : Type} {mark : Char} {part : List Char → Option α}

theorem behind?_mark (cs : List Char) : behind? mark part (mark :: cs) = part cs :=
  if_pos rfl

theorem behind?_of_ne {c : Char} (h : c ≠ mark) (cs : List Char) :
    behind? mark part (c :: cs) = none :=
  if_neg h

theorem exists_of_behind? {cs : List Char} {a : α} (h : behind? mark part cs = some a) :
    ∃ rest, cs = mark :: rest := by
  cases cs with
  | nil => cases h
  | cons c cs =>
    by_cases hc : c = mark
    · exact ⟨cs, by rw [hc]⟩
    · rw [behind?_of_ne hc] at h
      cases h

end Behind

theorem token?_of_not_isWordChar {c : Char} (h : ¬isWordChar c = true) (cs : List Char) :
    token? (c :: cs) = none := by
  rw [token?, List.takeWhile_cons_of_neg h]

theorem token?_of_isWordChar {c : Char} (h : isWordChar c = true) (cs : List Char) :
    token? (c :: cs)
      = some (atom (String.ofList (c :: cs.takeWhile isWordChar)), cs.dropWhile isWordChar) := by
  rw [token?, List.takeWhile_cons_of_pos h, List.dropWhile_cons_of_pos h]

/-- A datum is what the first of the four parts reads that reads anything. -/
theorem datum?_eq_or (cs : List Char) :
    datum? cs = (list? cs).or ((quoted? cs).or ((stringLiteral? cs).or (token? cs))) := by
  cases cs with
  | nil => rw [datum?_nil]; rfl
  | cons c cs =>
    rw [datum?_cons]
    rw [list?, quoted?, stringLiteral?]
    split_ifs with hopen hquote hstring hword
    · subst hopen
      rw [behind?_mark, behind?_of_ne (by decide), behind?_of_ne (by decide),
        token?_of_not_isWordChar (by decide)]
      simp
    · subst hquote
      rw [behind?_of_ne hopen, behind?_mark, behind?_of_ne (by decide),
        token?_of_not_isWordChar (by decide)]
      simp
    · subst hstring
      rw [behind?_of_ne hopen, behind?_of_ne hquote, behind?_mark,
        token?_of_not_isWordChar (by decide)]
      simp
    all_goals rw [behind?_of_ne hopen, behind?_of_ne hquote, behind?_of_ne hstring]
    · rw [token?_of_isWordChar hword]
      rfl
    · rw [token?_of_not_isWordChar hword]
      rfl

/-- What a part reads leaves a shorter end of the text. -/
def Advances (part : List Char → Option (SExpr × List Char)) : Prop :=
  ∀ cs datum rest, part cs = some (datum, rest) → rest <:+ cs ∧ rest.length < cs.length

theorem advances_datum? : Advances datum? := fun _ _ _ h =>
  ⟨(datum_of_datum? h).suffix, length_lt_of_datum? h⟩

theorem advances_next? : Advances next? := fun cs datum rest h => by
  obtain ⟨start, hl, hd⟩ := datum_of_next? h
  exact ⟨hd.suffix.trans hl.suffix, length_lt_of_next? h⟩

section Parts

variable {cs : List Char} {p : SExpr × List Char}

theorem datum?_of_list? (h : list? cs = some p) : datum? cs = some p := by
  rw [datum?_eq_or, h, Option.some_or]

theorem datum?_of_quoted? (h : quoted? cs = some p) : datum? cs = some p := by
  obtain ⟨rest, rfl⟩ := exists_of_behind? h
  rw [datum?_eq_or, list?, behind?_of_ne (by decide), Option.none_or, h, Option.some_or]

theorem datum?_of_stringLiteral? (h : stringLiteral? cs = some p) : datum? cs = some p := by
  obtain ⟨rest, rfl⟩ := exists_of_behind? h
  rw [datum?_eq_or, list?, quoted?, behind?_of_ne (by decide), behind?_of_ne (by decide),
    Option.none_or, Option.none_or, h, Option.some_or]

theorem datum?_of_token? (h : token? cs = some p) : datum? cs = some p := by
  cases cs with
  | nil => cases h
  | cons c cs =>
    by_cases hword : isWordChar c = true
    · rw [token?_of_isWordChar hword] at h
      rw [← h]
      exact (word_span hword).reads
    · rw [token?_of_not_isWordChar hword] at h
      cases h

end Parts

/-- Reading a datum behind layout, and reading what is tried for it, moves forward. -/
theorem advances_parts :
    ∀ part ∈ [next?, list?, quoted?, stringLiteral?, token?], Advances part := by
  have hpart {part : List Char → Option (SExpr × List Char)}
      (h : ∀ {cs p}, part cs = some p → datum? cs = some p) : Advances part :=
    fun cs datum rest hp => advances_datum? cs datum rest (h hp)
  simp only [List.forall_mem_cons]
  exact ⟨advances_next?, hpart datum?_of_list?, hpart datum?_of_quoted?,
    hpart datum?_of_stringLiteral?, hpart datum?_of_token?, by simp⟩

/-! ## Calls -/

/-- The functions and loops of the reader that call each other, themselves, or one of which calls
the other. -/
inductive Part where
  | layout | datum | list | items | quoted | stringLiteral | string

/-- The one, on its text, calls the other on the other text, or goes on to it in its next round. -/
inductive Calls : Part × List Char → Part × List Char → Prop
  | layout {cs rest : List Char} :
      skipRound cs = .ok (.more rest) → Calls (.layout, cs) (.layout, rest)
  | datumLayout (cs : List Char) : Calls (.datum, cs) (.layout, cs)
  | datumPart {cs start : List Char} (part : Part) :
      part ∈ [.list, .quoted, .stringLiteral] → skipLayout cs = .ok start →
        Calls (.datum, cs) (part, start)
  | list (cs : List Char) : Calls (.list, '(' :: cs) (.items, cs)
  | itemsLayout (cs : List Char) : Calls (.items, cs) (.layout, cs)
  | itemsItem {cs start : List Char} :
      skipLayout cs = .ok start → start.head? ≠ some ')' → Calls (.items, cs) (.datum, start)
  | itemsNext {cs start rest : List Char} {item : SExpr} :
      skipLayout cs = .ok start → next? start = some (item, rest) → item.word? ≠ some "." →
        Calls (.items, cs) (.items, rest)
  | itemsTail {cs start rest : List Char} {dot : SExpr} :
      skipLayout cs = .ok start → next? start = some (dot, rest) → dot.word? = some "." →
        Calls (.items, cs) (.datum, rest)
  | itemsEnd {cs start rest behind : List Char} {dot tail : SExpr} :
      skipLayout cs = .ok start → next? start = some (dot, rest) → dot.word? = some "." →
        next? rest = some (tail, behind) → Calls (.items, cs) (.layout, behind)
  | quoted (cs : List Char) : Calls (.quoted, '\'' :: cs) (.datum, cs)
  | stringLiteral (cs : List Char) : Calls (.stringLiteral, '"' :: cs) (.string, cs)
  | string {c : Char} (cs : List Char) :
      c ≠ '"' → c ≠ '\\' → Calls (.string, c :: cs) (.string, cs)
  | stringEscape (e : Char) (cs : List Char) : Calls (.string, '\\' :: e :: cs) (.string, cs)

/-- Which of the parts may call which on the same text. -/
def Part.rank : Part → Nat
  | items => 2
  | datum => 1
  | layout | list | quoted | stringLiteral | string => 0

/-- Calls follow the length of the text that is left, and where it is the same the rank. -/
theorem Calls.lex {a b : Part × List Char} (h : Calls a b) :
    Prod.Lex (· < ·) (· < ·) (b.2.length, b.1.rank) (a.2.length, a.1.rank) := by
  have hsame {m n i j : Nat} (hle : m ≤ n) (hlt : i < j) :
      Prod.Lex (· < ·) (· < ·) (m, i) (n, j) := by
    rw [Prod.lex_def]
    exact (Nat.lt_or_eq_of_le hle).imp id fun he => ⟨he, hlt⟩
  cases h with
  | layout h => exact .left _ _ (length_lt_of_skipRound h)
  | datumLayout => exact .right _ Nat.zero_lt_one
  | datumPart part hpart hs =>
    have hrank : part.rank = 0 := by
      simp only [List.mem_cons, List.not_mem_nil, or_false] at hpart
      obtain rfl | rfl | rfl := hpart <;> rfl
    exact hsame (length_le_of_skipLayout hs) (hrank ▸ Nat.zero_lt_one)
  | itemsLayout => exact .right _ Nat.zero_lt_two
  | itemsItem hs => exact hsame (length_le_of_skipLayout hs) Nat.one_lt_two
  | itemsNext hs hn | itemsTail hs hn =>
    exact .left _ _ (Nat.lt_of_lt_of_le (length_lt_of_next? hn) (length_le_of_skipLayout hs))
  | itemsEnd hs hn _ ht =>
    have hlt := Nat.lt_trans (length_lt_of_next? ht) (length_lt_of_next? hn)
    exact .left _ _ (Nat.lt_of_lt_of_le hlt (length_le_of_skipLayout hs))
  | stringEscape => exact .left _ _ (by simp only [List.length_cons]; omega)
  | list | quoted | stringLiteral | string => exact .left _ _ (Nat.lt_succ_self _)

/-- No chain of calls goes on forever, whatever the text. -/
theorem wellFounded_calls : WellFounded fun b a => Calls a b :=
  Subrelation.wf Calls.lex
    (InvImage.wf (fun a : Part × List Char => (a.2.length, a.1.rank))
      (Prod.lex Nat.lt_wfRel Nat.lt_wfRel).wf)

end SyntaxChart.SExpr
