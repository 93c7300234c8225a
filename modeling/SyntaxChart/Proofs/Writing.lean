import SyntaxChart.Proofs.Reading

/-!
# Written data read back

A datum is written as lexemes with gaps of layout around them (`Lexeme.Spaced`). Which gaps does not
matter, as long as there is one between two words, so neither layout nor comments change what is
read. The data that can be written are those that some text reads as (`SExpr.Readable`); there is
one list among them that only a quote mark can write, since an item of a list is never a bare dot.
-/

namespace SyntaxChart.SExpr

open Grammar

/-- What a text can read as. Words are words; a list has no bare dot among its items, unless a quote
mark stands for it; a tail has an item in front of it and can be anything. -/
inductive Readable : SExpr → Prop
  | atom {word : String} :
      word ≠ "" → (∀ c ∈ word.toList, WordChar c) → Readable (.atom word)
  | string (text : String) : Readable (.string text)
  | list {items : List SExpr} :
      (∀ item ∈ items, Readable item) → .atom "." ∉ items → Readable (.list items)
  | quotedDot : Readable (.list [.atom "quote", .atom "."])
  | dotted {items : List SExpr} {tail : SExpr} :
      items ≠ [] → (∀ item ∈ items, Readable item) → .atom "." ∉ items → Readable tail →
        Readable (.dotted items tail)

/-- The smallest pieces of a text that mean something. -/
inductive Lexeme where
  | opening | closing | quoteMark
  | word (word : String)
  | string (text : String)

namespace Lexeme

/-- A text with a backslash in front of each double quote and each backslash. -/
def escape (text : List Char) : List Char :=
  text.flatMap fun c => if c = '"' ∨ c = '\\' then ['\\', c] else [c]

def chars : Lexeme → List Char
  | opening => ['(']
  | closing => [')']
  | quoteMark => ['\'']
  | word w => w.toList
  | string text => '"' :: (escape text.toList ++ ['"'])

def isWord : Lexeme → Bool
  | word _ => true
  | _ => false

/-- Layout in which every comment ends with its line. -/
inductive Gap : List Char → Prop
  | nil : Gap []
  | space {c : Char} {cs : List Char} : c ∈ [' ', '\t', '\r', '\n'] → Gap cs → Gap (c :: cs)
  | comment {line close cs : List Char} :
      (∀ c ∈ line, c ≠ '\r' ∧ c ≠ '\n') → close ∈ [['\n'], ['\r', '\n']] → Gap cs →
        Gap (';' :: (line ++ (close ++ cs)))

/-- A text that is these lexemes in order, with a gap in front of each and one at the end. A gap can
be empty, but not between two words; `behind` says whether a word stands in front of the text. -/
inductive Spaced : Bool → List Lexeme → List Char → Prop
  | last {behind : Bool} {gap : List Char} : Gap gap → Spaced behind [] gap
  | next {behind : Bool} {l : Lexeme} {ls : List Lexeme} {gap cs : List Char} :
      Gap gap → (behind = true → l.isWord = true → gap ≠ []) → Spaced l.isWord ls cs →
        Spaced behind (l :: ls) (gap ++ (l.chars ++ cs))

end Lexeme

mutual

/-- How a datum is written. -/
def lexemes : SExpr → List Lexeme
  | .atom word => [.word word]
  | .string text => [.string text]
  | .list [.atom "quote", .atom "."] => [.quoteMark, .word "."]
  | .list items => .opening :: (itemLexemes items ++ [.closing])
  | .dotted items tail =>
    .opening :: (itemLexemes items ++ .word "." :: (tail.lexemes ++ [.closing]))

def itemLexemes : List SExpr → List Lexeme
  | [] => []
  | item :: items => item.lexemes ++ itemLexemes items

end

theorem lexemes_list {items : List SExpr} (h : .atom "." ∉ items) :
    lexemes (.list items) = .opening :: (itemLexemes items ++ [.closing]) := by
  rw [lexemes]
  rintro rfl
  simp at h

/-! ## What is written is read -/

namespace Lexeme

theorem Gap.layout {gap : List Char} (h : Gap gap) (rest : List Char) :
    Layout (gap ++ rest) rest := by
  induction h with
  | nil => exact .none rest
  | space hc _ ih => exact .space hc ih
  | @comment line close cs hline hclose _ ih =>
    rw [List.cons_append, List.append_assoc, List.append_assoc]
    simp only [List.mem_cons, List.not_mem_nil, or_false] at hclose
    rcases hclose with rfl | rfl
    · exact .comment hline (.feed _) (.space (by simp) ih)
    · exact .comment hline (.returnFeed _) (.space (by simp) (.space (by simp) ih))

/-- A gap has no word's character in front. -/
theorem Gap.not_wordChar_head {c : Char} {cs : List Char} (h : Gap (c :: cs)) : ¬WordChar c := by
  cases h with
  | space hc _ => exact fun hw => by simpa [isSpace_iff.2 hc] using hw.isSpace_eq
  | comment => exact fun hw => hw.2 (by simp)

/-- A lexeme that is no word has no word's character in front. -/
theorem not_wordChar_head {l : Lexeme} (h : l.isWord = false) (rest : List Char) :
    ∀ c ∈ (l.chars ++ rest).head?, ¬WordChar c := by
  cases l <;> simp_all [chars, isWord, WordChar]

/-- Behind a word, the spacing lets the word end. -/
theorem Spaced.not_wordChar_head {ls : List Lexeme} {cs : List Char} (h : Spaced true ls cs) :
    ∀ c ∈ cs.head?, ¬WordChar c := by
  cases h with
  | last hgap =>
    cases cs with
    | nil => simp
    | cons c cs => simpa using hgap.not_wordChar_head
  | @next _ l ls gap cs hgap hne _ =>
    cases gap with
    | nil =>
      have hl : l.isWord = false := by
        by_contra hl
        exact hne rfl (eq_true_of_ne_false hl) rfl
      exact Lexeme.not_wordChar_head hl cs
    | cons c gap => simpa using hgap.not_wordChar_head

theorem quotation_escape (rest : List Char) : ∀ text : List Char,
    Quotation (escape text ++ '"' :: rest) text rest
  | [] => .close rest
  | c :: text => by
    have ih := quotation_escape rest text
    rw [escape, List.flatMap_cons, List.append_assoc]
    split_ifs with hc
    · refine .escape ?_ ih
      rcases hc with rfl | rfl
      · exact .plain (by decide) (by decide)
      · exact .plain (by decide) (by decide)
    · rw [not_or] at hc
      exact .plain hc.1 hc.2 ih

end Lexeme

open Lexeme

/-- Lexemes that begin with those of a datum are a datum behind layout, and the others follow. -/
def StartsWith (v : SExpr) : Prop :=
  ∀ {behind : Bool} {more : List Lexeme} {cs : List Char}, Spaced behind (v.lexemes ++ more) cs →
    ∃ start rest behind', Layout cs start ∧ Datum start v rest ∧ Spaced behind' more rest

theorem items_of_spaced : ∀ {items : List SExpr}, (∀ item ∈ items, StartsWith item) →
    .atom "." ∉ items → ∀ {behind : Bool} {more : List Lexeme} {cs : List Char},
      Spaced behind (itemLexemes items ++ more) cs →
        ∃ sep behind', Items cs items sep ∧ Spaced behind' more sep
  | [], _, _, behind, more, cs, h => ⟨cs, behind, .nil cs, h⟩
  | item :: items, hitems, hdot, behind, more, cs, h => by
    rw [itemLexemes, List.append_assoc] at h
    simp only [List.mem_cons, not_or] at hdot
    obtain ⟨start, rest, behind', hl, hd, hrest⟩ := hitems item List.mem_cons_self h
    obtain ⟨sep, behind'', hi, hsep⟩ :=
      items_of_spaced (fun x hx => hitems x (List.mem_cons_of_mem _ hx)) hdot.2 hrest
    exact ⟨sep, behind'', .cons hl hd (Ne.symm hdot.1) hi, hsep⟩

theorem word_of_spaced {word : String} (hne : word ≠ "") (hw : ∀ c ∈ word.toList, WordChar c)
    {ls : List Lexeme} {cs : List Char} (h : Spaced true ls cs) :
    Word (word.toList ++ cs) word.toList cs :=
  ⟨rfl, by simpa using hne, hw, h.not_wordChar_head⟩

theorem word_dot {ls : List Lexeme} {cs : List Char} (h : Spaced true ls cs) :
    Word ('.' :: cs) ['.'] cs :=
  ⟨rfl, by simp, by simpa using isWordChar_iff.1 (by decide), h.not_wordChar_head⟩

theorem close_of_spaced {behind : Bool} {more : List Lexeme} {cs : List Char}
    (h : Spaced behind (.closing :: more) cs) :
    ∃ rest, Layout cs (')' :: rest) ∧ Spaced false more rest := by
  cases h with
  | next hgap _ hrest => exact ⟨_, hgap.layout _, hrest⟩

theorem Readable.startsWith {v : SExpr} (h : v.Readable) : v.StartsWith := by
  induction h with
  | @atom word hne hw =>
    intro behind more cs h
    rw [lexemes] at h
    cases h with
    | @next _ _ _ gap rest hgap _ hrest =>
      have hword := Datum.word (word_of_spaced hne hw hrest)
      rw [String.ofList_toList] at hword
      exact ⟨_, rest, true, hgap.layout _, hword, hrest⟩
  | string text =>
    intro behind more cs h
    rw [lexemes] at h
    cases h with
    | @next _ _ _ gap rest hgap _ hrest =>
      have hstring := Datum.string (quotation_escape rest text.toList)
      rw [String.ofList_toList] at hstring
      refine ⟨_, rest, false, hgap.layout _, ?_, hrest⟩
      simpa [chars] using hstring
  | @list items _ hdot ih =>
    intro behind more cs h
    rw [lexemes_list hdot, List.cons_append, List.append_assoc] at h
    cases h with
    | @next _ _ _ gap inner hgap _ hinner =>
      obtain ⟨sep, behind', hi, hsep⟩ := items_of_spaced ih hdot hinner
      obtain ⟨rest, hclose, hrest⟩ := close_of_spaced hsep
      exact ⟨_, rest, false, hgap.layout _, .list hi hclose, hrest⟩
  | quotedDot =>
    intro behind more cs h
    rw [lexemes] at h
    cases h with
    | @next _ _ _ gap inner hgap _ hinner =>
      cases hinner with
      | @next _ _ _ gap' rest hgap' _ hrest =>
        have hdot := Datum.word (word_dot hrest)
        exact ⟨_, rest, true, hgap.layout _, .quote (hgap'.layout _) hdot, hrest⟩
  | @dotted items tail hne _ hdot _ ih ihtail =>
    intro behind more cs h
    rw [lexemes] at h
    simp only [List.cons_append, List.append_assoc] at h
    cases h with
    | @next _ _ _ gap inner hgap _ hinner =>
      obtain ⟨sep, behind', hi, hsep⟩ := items_of_spaced ih hdot hinner
      cases hsep with
      | @next _ _ _ gap' after hgap' _ hafter =>
        obtain ⟨start, close, behind'', hl, ht, hc⟩ := ihtail hafter
        obtain ⟨rest, hclose, hrest⟩ := close_of_spaced hc
        exact ⟨_, rest, false, hgap.layout _,
          .dotted hi hne (hgap'.layout _) (word_dot hafter) hl ht hclose, hrest⟩

theorem document_of_spaced {v : SExpr} (hv : v.Readable) {cs : List Char}
    (h : Spaced false v.lexemes cs) : Document cs v := by
  rw [← List.append_nil v.lexemes] at h
  obtain ⟨start, rest, behind, hl, hd, hrest⟩ := hv.startsWith h
  cases hrest with
  | last hgap => exact ⟨start, rest, hl, hd, by simpa using hgap.layout []⟩

theorem exists_spaced (behind : Bool) : ∀ ls : List Lexeme, ∃ cs, Spaced behind ls cs
  | [] => ⟨[], .last .nil⟩
  | l :: ls => by
    obtain ⟨cs, h⟩ := exists_spaced l.isWord ls
    exact ⟨[' '] ++ (l.chars ++ cs), .next (.space (by simp) .nil) (by simp) h⟩

/-! ## What is read can be written -/

mutual

theorem readable_of_datum : ∀ {cs rest : List Char} {v : SExpr}, Datum cs v rest → v.Readable
  | _, _, _, .list hi _ => .list (readable_of_items hi).1 (readable_of_items hi).2
  | _, _, _, .dotted hi hne _ _ _ hd _ =>
    .dotted hne (readable_of_items hi).1 (readable_of_items hi).2 (readable_of_datum hd)
  | _, _, _, @Datum.quote _ _ _ v _ hd => by
    have hv := readable_of_datum hd
    by_cases hdot : v = .atom "."
    · exact hdot ▸ .quotedDot
    · refine .list ?_ ?_
      · have hquote : Readable (.atom "quote") := .atom (by decide) fun c hc =>
          isWordChar_iff.1 (List.all_eq_true.1 (by decide : "quote".toList.all isWordChar) c hc)
        simpa using ⟨hquote, hv⟩
      · simpa using Ne.symm hdot
  | _, _, _, .string _ => .string _
  | _, _, _, .word hw => .atom (by simpa using hw.ne_nil) (by simpa using hw.chars)

theorem readable_of_items : ∀ {cs sep : List Char} {items : List SExpr}, Items cs items sep →
    (∀ item ∈ items, item.Readable) ∧ .atom "." ∉ items
  | _, _, _, .nil _ => by simp
  | _, _, _, .cons _ hd hdot hi => by
    have hitems := readable_of_items hi
    simp only [List.mem_cons, forall_eq_or_imp, not_or]
    exact ⟨⟨readable_of_datum hd, hitems.1⟩, Ne.symm hdot, hitems.2⟩

end

/-- The data that texts read as are the readable ones, and each of them is what its lexemes read as,
whatever the gaps between them. -/
theorem read_spaced :
    (∀ v, (∃ text, read text = .ok v) ↔ v.Readable)
      ∧ ∀ v, v.Readable → ∀ text : String, Spaced false v.lexemes text.toList →
        read text = .ok v := by
  have hread {v : SExpr} (hv : v.Readable) {text : String}
      (h : Spaced false v.lexemes text.toList) : read text = .ok v :=
    (document_of_spaced hv h).reads
  refine ⟨fun v => ⟨?_, fun hv => ?_⟩, fun v hv text h => hread hv h⟩
  · rintro ⟨text, h⟩
    obtain ⟨start, rest, -, hd, -⟩ := document_of_read h
    exact readable_of_datum hd
  · obtain ⟨cs, h⟩ := exists_spaced false v.lexemes
    exact ⟨String.ofList cs, hread hv (by rwa [String.toList_ofList])⟩

/-- A quoted dot, a string of marks and a carriage return, and a tail, with a comment behind each
dot and no gap where none has to be. -/
theorem read_spaced_comments :
    let v := dotted [list [.atom "quote", .atom "."], string "\"\\\r"] (.atom "a")
    let text := "('.;x\r\n\"\\\"\\\\\r\".;\na)\t"
    v.Readable ∧ Spaced false v.lexemes text.toList ∧ read text = .ok v := by
  intro v text
  have ha : Readable (.atom "a") := .atom (by decide) fun c hc =>
    isWordChar_iff.1 (List.all_eq_true.1 (by decide : "a".toList.all isWordChar) c hc)
  have hv : v.Readable := by
    refine .dotted (by simp) ?_ (by simp) ha
    simpa using ⟨Readable.quotedDot, Readable.string _⟩
  have hx : Gap [';', 'x', '\r', '\n'] :=
    @Gap.comment ['x'] ['\r', '\n'] [] (by simp) (by simp) .nil
  have hn : Gap [';', '\n'] := @Gap.comment [] ['\n'] [] (by simp) (by simp) .nil
  have hend : Gap ['\t'] := .space (by simp) .nil
  have hlexemes : v.lexemes
      = [.opening, .quoteMark, .word ".", .string "\"\\\r", .word ".", .word "a", .closing] := by
    rfl
  have htext : text.toList
      = ['(', '\'', '.', ';', 'x', '\r', '\n', '"', '\\', '"', '\\', '\\', '\r', '"', '.', ';',
        '\n', 'a', ')', '\t'] := by decide
  have hs : Spaced false v.lexemes text.toList := by
    rw [hlexemes, htext]
    refine .next .nil ?_ <| .next .nil ?_ <| .next .nil ?_ <| .next hx ?_ <| .next .nil ?_ <|
      .next hn ?_ <| .next .nil ?_ <| .last hend
    all_goals simp [isWord]
  exact ⟨hv, hs, read_spaced.2 v hv text hs⟩

end SyntaxChart.SExpr
