import SyntaxChart.Proofs.Grammar
import Mathlib.Data.List.TakeWhile
import Mathlib.Data.Set.Subsingleton
import Mathlib.Tactic.ByContra
import Mathlib.Tactic.SplitIfs

/-!
# The reader accepts exactly its grammar

A text reads as a datum when and only when the text is a document that denotes it
(`read_eq_ok_iff`). The reader tries one thing at each character, so what has to be shown is that
the grammar leaves it no second choice: layout stops at the one place where something else starts
(`Layout.skips`), and a word stops where the next character is none of a word's (`Word.span`).
-/

namespace SyntaxChart.SExpr.Grammar

section Layout

/-- Nothing to skip: the text is over, or it starts with what is no layout. -/
def Stop (cs : List Char) : Prop :=
  ∀ c ∈ cs.head?, isSpace c = false ∧ c ≠ ';'

theorem isSpace_iff {c : Char} : isSpace c = true ↔ c ∈ [' ', '\t', '\r', '\n'] := by
  simp [isSpace, or_assoc]

theorem stop_nil : Stop [] := by
  simp [Stop]

theorem stop_close (cs : List Char) : Stop (')' :: cs) := by
  simp [Stop, isSpace]

theorem Stop.skips : ∀ {cs : List Char}, Stop cs → skipLayout cs = .ok cs
  | [], _ => rfl
  | c :: cs, h => by
    obtain ⟨hs, hc⟩ := h c rfl
    rw [skipLayout, hs, if_neg Bool.false_ne_true, if_neg hc]

theorem skipComment_append {next : List Char} (he : LineEnd next) :
    ∀ {line : List Char}, (∀ c ∈ line, c ≠ '\r' ∧ c ≠ '\n') →
      skipComment (line ++ next) = skipLayout next
  | [], _ => by
    cases he with
    | text => rfl
    | feed cs => simp [skipComment, skipLayout, isSpace]
    | returnFeed cs => simp [skipComment, skipLayout, isSpace]
  | c :: line, h => by
    obtain ⟨hr, hn⟩ := h c (by simp)
    rw [List.cons_append, skipComment, if_neg hn, if_neg hr]
    exact skipComment_append he fun d hd => h d (List.mem_cons_of_mem _ hd)

/-- Skipping passes over any layout on its way. -/
theorem Layout.skipLayout_eq {cs rest : List Char} (h : Layout cs rest) :
    skipLayout cs = skipLayout rest := by
  induction h with
  | none => rfl
  | space hc _ ih =>
    rw [skipLayout, isSpace_iff.2 hc, if_pos rfl]
    exact ih
  | comment hline hend _ ih =>
    rw [skipLayout, if_neg (by simp [isSpace]), if_pos rfl, skipComment_append hend hline]
    exact ih

theorem Layout.skips {cs rest : List Char} (h : Layout cs rest) (hrest : Stop rest) :
    skipLayout cs = .ok rest :=
  h.skipLayout_eq.trans hrest.skips

theorem Layout.trans {cs mid rest : List Char} (h : Layout cs mid) (h' : Layout mid rest) :
    Layout cs rest := by
  induction h with
  | none => exact h'
  | space hc _ ih => exact .space hc (ih h')
  | comment hline hend _ ih => exact .comment hline hend (ih h')

theorem Layout.suffix {cs rest : List Char} (h : Layout cs rest) : rest <:+ cs := by
  induction h with
  | none cs => exact List.suffix_refl cs
  | space _ _ ih => exact ih.trans (List.suffix_cons _ _)
  | @comment line cs _ _ _ _ ih =>
    exact ih.trans ((List.suffix_append line cs).trans (List.suffix_cons _ _))

/-- What the skipper passes over is layout, and inside a comment the rest of its line comes first. -/
theorem layout_of_skip : ∀ cs rest : List Char,
    (skipLayout cs = .ok rest → Layout cs rest) ∧
      (skipComment cs = .ok rest → ∃ line next, cs = line ++ next ∧
        (∀ c ∈ line, c ≠ '\r' ∧ c ≠ '\n') ∧ LineEnd next ∧ Layout next rest)
  | [], rest => by
    refine ⟨fun h => ?_, fun h => ⟨[], [], rfl, by simp, .text, ?_⟩⟩
    all_goals
      cases h
      exact .none []
  | c :: cs, rest => by
    obtain ⟨ihLayout, ihComment⟩ := layout_of_skip cs rest
    refine ⟨fun h => ?_, fun h => ?_⟩
    · rw [skipLayout] at h
      split_ifs at h with hs hc
      · exact .space (isSpace_iff.1 hs) (ihLayout h)
      · obtain ⟨line, next, rfl, hline, hend, hl⟩ := ihComment h
        subst hc
        exact .comment hline hend hl
      · cases h
        exact .none _
    · rw [skipComment] at h
      by_cases hn : c = '\n'
      · subst hn
        refine ⟨[], '\n' :: cs, rfl, by simp, .feed cs, .space (by simp) (ihLayout ?_)⟩
        rwa [if_pos rfl] at h
      · rw [if_neg hn] at h
        by_cases hr : c = '\r'
        · subst hr
          rw [if_pos rfl] at h
          split_ifs at h with hf
          obtain ⟨cs, rfl⟩ : ∃ next, cs = '\n' :: next := by
            cases cs with
            | nil => cases hf
            | cons d cs => exact ⟨cs, by simpa using hf⟩
          exact ⟨[], _, rfl, by simp, .returnFeed cs, .space (by simp) (ihLayout h)⟩
        · rw [if_neg hr] at h
          obtain ⟨line, next, rfl, hline, hend, hl⟩ := ihComment h
          refine ⟨c :: line, next, rfl, ?_, hend, hl⟩
          simp only [List.mem_cons, forall_eq_or_imp]
          exact ⟨⟨hr, hn⟩, hline⟩

theorem layout_of_skipLayout {cs rest : List Char} (h : skipLayout cs = .ok rest) :
    Layout cs rest :=
  (layout_of_skip cs rest).1 h

end Layout

section Leaves

theorem isWordChar_iff {c : Char} : isWordChar c = true ↔ WordChar c := by
  simp [isWordChar, WordChar, marks]

theorem WordChar.isSpace_eq {c : Char} (h : WordChar c) : isSpace c = false := by
  by_contra hs
  have := isBlank_of_isSpace (eq_true_of_ne_false hs)
  simp [h.1] at this

theorem Word.span {cs word rest : List Char} (h : Word cs word rest) :
    cs.takeWhile isWordChar = word ∧ cs.dropWhile isWordChar = rest := by
  obtain ⟨rfl, -, hw, hr⟩ := h
  have hall : ∀ c ∈ word, isWordChar c = true := fun c hc => isWordChar_iff.2 (hw c hc)
  have hnone : rest.takeWhile isWordChar = [] ∧ rest.dropWhile isWordChar = rest := by
    cases rest with
    | nil => simp
    | cons c rest =>
      have hc : ¬isWordChar c = true := fun h => hr c rfl (isWordChar_iff.1 h)
      simp [hc]
  rw [List.takeWhile_append_of_pos hall, List.dropWhile_append_of_pos hall, hnone.1, hnone.2]
  simp

theorem word_span {c : Char} {cs : List Char} (h : isWordChar c = true) :
    Word (c :: cs) (c :: cs.takeWhile isWordChar) (cs.dropWhile isWordChar) where
  split := by rw [List.cons_append, List.takeWhile_append_dropWhile]
  ne_nil := by simp
  chars d hd := by
    rcases List.mem_cons.1 hd with rfl | hd
    · exact isWordChar_iff.1 h
    · exact isWordChar_iff.1 (List.mem_takeWhile_imp hd)
  maximal d hd hw := by
    have := List.head?_dropWhile_not isWordChar cs
    rw [Option.mem_def.1 hd] at this
    simp [isWordChar_iff.2 hw] at this

theorem escape_iff {e c : Char} : Escape e c ↔ c = unescape e := by
  unfold unescape
  refine ⟨fun h => ?_, ?_⟩
  · cases h with
    | feed => simp
    | tab => simp
    | plain hn ht => rw [if_neg hn, if_neg ht]
  · rintro rfl
    split_ifs with hn ht
    · exact hn ▸ .feed
    · exact ht ▸ .tab
    · exact .plain hn ht

theorem readString?_plain {c : Char} (hq : c ≠ '"') (hb : c ≠ '\\') (cs : List Char) :
    readString? (c :: cs) = (readString? cs).map fun (text, rest) => (c :: text, rest) := by
  rw [readString?.eq_def]
  simp only [if_neg hq, if_neg hb]

theorem Quotation.reads : ∀ {cs text rest : List Char}, Quotation cs text rest →
    readString? cs = some (text, rest)
  | _, _, _, .close rest => by cases rest <;> simp [readString?]
  | _, _, _, .plain hq hb h => by
    rw [readString?_plain hq hb, h.reads]
    rfl
  | _, _, _, .escape he h => by
    simp [readString?, h.reads, escape_iff.1 he]

theorem quotation_of_readString? {cs text rest : List Char}
    (h : readString? cs = some (text, rest)) : Quotation cs text rest := by
  fun_induction readString? cs generalizing text with
  | case1 => cases h
  | case2 => cases h; exact .close _
  | case3 => cases h
  | case4 e cs hq ih =>
    obtain ⟨⟨text, rest⟩, hr, h⟩ := Option.map_eq_some_iff.1 h
    cases h
    exact .escape (escape_iff.2 rfl) (ih hr)
  | case5 c cs hq hb ih =>
    obtain ⟨⟨text, rest⟩, hr, h⟩ := Option.map_eq_some_iff.1 h
    cases h
    exact .plain hq hb (ih hr)

end Leaves

section Data

/-- Nothing a datum starts with is layout or a closing parenthesis. -/
theorem Datum.start {cs rest : List Char} {datum : SExpr} (h : Datum cs datum rest) :
    Stop cs ∧ cs.head? ≠ some ')' := by
  cases h with
  | word h =>
    obtain ⟨rfl, hne, hw, -⟩ := h
    obtain ⟨c, word, rfl⟩ := List.exists_cons_of_ne_nil hne
    have hc := hw c (by simp)
    have hmarks := hc.2
    simp only [List.mem_cons, not_or] at hmarks
    simp [Stop, hc.isSpace_eq, hmarks]
  | _ => simp [Stop, isSpace]

theorem Word.reads {cs word rest : List Char} (h : Word cs word rest) :
    datum? cs = some (atom (String.ofList word), rest) := by
  obtain ⟨hword, hrest⟩ := h.span
  obtain ⟨hcs, hne, hw, -⟩ := h
  obtain ⟨c, word, rfl⟩ := List.exists_cons_of_ne_nil hne
  have hc := hw c (by simp)
  obtain ⟨-, hmarks⟩ := hc
  simp only [List.mem_cons, not_or] at hmarks
  rw [List.cons_append] at hcs
  subst hcs
  have hchar := isWordChar_iff.2 (hw c (by simp))
  rw [List.takeWhile_cons_of_pos hchar, List.cons.injEq] at hword
  rw [List.dropWhile_cons_of_pos hchar] at hrest
  simp [datum?_cons, hmarks, hchar, hword, hrest]

theorem Layout.next?_eq {cs start : List Char} (h : Layout cs start) (hs : Stop start) :
    next? cs = datum? start := by
  rw [SExpr.next?_eq, h.skips hs]

theorem items?_close {cs rest : List Char} (h : Layout cs (')' :: rest)) :
    items? cs = some ([], none, rest) := by
  rw [items?_eq, h.skips (stop_close rest)]
  simp

/-- A datum that is no bare dot is an item, and the items behind it follow. -/
theorem items?_item {cs start next : List Char} {datum : SExpr} (hl : Layout cs start)
    (hd : Datum start datum next) (h : datum? start = some (datum, next))
    (hdot : datum ≠ .atom ".") :
    items? cs = (items? next).map fun (items, tail, rest) => (datum :: items, tail, rest) := by
  obtain ⟨hstop, hclose⟩ := hd.start
  have hword : ¬datum.word? = some "." := by
    cases datum <;> simp_all [word?]
  cases start with
  | nil => simp at h
  | cons c start =>
    have hc : c ≠ ')' := by simpa using hclose
    rw [items?_eq, hl.skips hstop]
    simp only [if_neg hc, h, Option.bind_some, if_neg hword]

theorem items?_dot {cs dot behind start close rest : List Char} {tail : SExpr}
    (hdot : Layout cs dot) (hword : Word dot ['.'] behind) (hl : Layout behind start)
    (hd : Datum start tail close) (h : datum? start = some (tail, close))
    (hclose : Layout close (')' :: rest)) : items? cs = some ([], some tail, rest) := by
  have hdatum := hword.reads
  obtain ⟨hstop, hparen⟩ := (Datum.word hword).start
  cases dot with
  | nil => simp at hdatum
  | cons c dot =>
    have hc : c ≠ ')' := by simpa using hparen
    rw [items?_eq, hdot.skips hstop]
    simp only [if_neg hc, hdatum, Option.bind_some]
    simp [word?, hl.next?_eq hd.start.1, h, hclose.skips (stop_close rest)]

mutual

theorem Datum.reads : ∀ {cs rest : List Char} {datum : SExpr}, Datum cs datum rest →
    datum? cs = some (datum, rest)
  | _, _, _, .list hi hclose => by
    simp [datum?_cons, hi.reads (items?_close hclose), ofItems?]
  | _, _, _, .dotted hi hne hsep hdot hl hd hclose => by
    have htail := items?_dot hsep hdot hl hd hd.reads hclose
    obtain ⟨item, items, rfl⟩ := List.exists_cons_of_ne_nil hne
    simp [datum?_cons, hi.reads htail, ofItems?]
  | _, _, _, .quote hl hd => by
    simp [datum?_cons, hl.next?_eq hd.start.1, hd.reads, quote]
  | _, _, _, .string hq => by
    simp [datum?_cons, hq.reads]
  | _, _, _, .word hw => hw.reads

theorem Items.reads : ∀ {cs close rest : List Char} {items : List SExpr} {tail : Option SExpr},
    Items cs items close → items? close = some ([], tail, rest) →
      items? cs = some (items, tail, rest)
  | _, _, _, _, _, .nil _, h => h
  | _, _, _, _, _, .cons hl hd hdot hi, h => by
    rw [items?_item hl hd hd.reads hdot, hi.reads h]
    rfl

end

/-- What ends a list behind its items: a parenthesis, or a dot, a tail and a parenthesis. -/
inductive Ending : List Char → Option SExpr → List Char → Prop
  | close {cs rest : List Char} : Layout cs (')' :: rest) → Ending cs none rest
  | tail {cs dot behind start close rest : List Char} {tail : SExpr} :
      Layout cs dot → Word dot ['.'] behind → Layout behind start → Datum start tail close →
        Layout close (')' :: rest) → Ending cs (some tail) rest

theorem datum_of_ofItems? {cs sep rest : List Char} {items : List SExpr} {tail : Option SExpr}
    {datum : SExpr} (hi : Items cs items sep) (he : Ending sep tail rest)
    (h : ofItems? items tail = some datum) : Datum ('(' :: cs) datum rest := by
  cases he with
  | close hclose =>
    cases h
    exact .list hi hclose
  | tail hsep hdot hl hd hclose =>
    cases items with
    | nil => cases h
    | cons item items =>
      cases h
      exact .dotted hi (by simp) hsep hdot hl hd hclose

/-- A datum that reads as a word is one in the text. -/
theorem word_of_datum {cs rest : List Char} {word : String}
    (h : Datum cs (.atom word) rest) : Word cs word.toList rest := by
  cases h with
  | word h => rwa [String.toList_ofList]

mutual

theorem datum_of_datum? : ∀ {cs rest : List Char} {datum : SExpr},
    datum? cs = some (datum, rest) → Datum cs datum rest
  | [], _, _, h => by simp at h
  | c :: cs, rest, datum, h => by
    rw [datum?_cons] at h
    split_ifs at h with hopen hquote hstring hchar
    · obtain ⟨⟨items, tail, close⟩, hi, h⟩ := Option.bind_eq_some_iff.1 h
      obtain ⟨v, hv, h⟩ := Option.map_eq_some_iff.1 h
      cases h
      obtain ⟨sep, hitems, hending⟩ := items_of_items? hi
      exact hopen ▸ datum_of_ofItems? hitems hending hv
    · obtain ⟨⟨v, close⟩, hn, h⟩ := Option.map_eq_some_iff.1 h
      cases h
      obtain ⟨start, hl, hd⟩ := datum_of_next? hn
      exact hquote ▸ .quote hl hd
    · obtain ⟨⟨text, close⟩, hr, h⟩ := Option.map_eq_some_iff.1 h
      cases h
      exact hstring ▸ .string (quotation_of_readString? hr)
    · cases h
      exact .word (word_span hchar)
termination_by cs => (cs.length, 0)

theorem datum_of_next? {cs rest : List Char} {datum : SExpr}
    (h : next? cs = some (datum, rest)) : ∃ start, Layout cs start ∧ Datum start datum rest := by
  rw [next?_eq] at h
  split at h
  · rename_i start hs
    have := length_le_of_skipLayout hs
    exact ⟨start, layout_of_skipLayout hs, datum_of_datum? h⟩
  · cases h
termination_by (cs.length, 1)
decreasing_by
  simp only [Prod.lex_def]
  omega

theorem items_of_items? {cs rest : List Char} {items : List SExpr} {tail : Option SExpr}
    (h : items? cs = some (items, tail, rest)) :
    ∃ sep, Items cs items sep ∧ Ending sep tail rest := by
  rw [items?_eq] at h
  split at h
  · rename_i c start hs
    have hlen := length_le_of_skipLayout hs
    have hl := layout_of_skipLayout hs
    split_ifs at h with hclose
    · cases h
      exact ⟨cs, .nil cs, .close (hclose ▸ hl)⟩
    · obtain ⟨⟨v, next⟩, hv, h⟩ := Option.bind_eq_some_iff.1 h
      have hnext := length_lt_of_datum? hv
      have hd := datum_of_datum? hv
      simp only at h
      split_ifs at h with hdot
      -- a bare dot: what follows is the tail, and then the list must end
      · obtain ⟨⟨t, close⟩, ht, h⟩ := Option.bind_eq_some_iff.1 h
        obtain ⟨begin, hbegin, htail⟩ := datum_of_next? ht
        simp only at h
        split at h
        · rename_i d behind hb
          split_ifs at h with hd'
          cases h
          have hv : v = .atom "." := by
            cases v <;> simp_all [word?]
          have hword : Word (c :: start) ['.'] next := word_of_datum (hv ▸ hd)
          exact ⟨cs, .nil cs, .tail hl hword hbegin htail (hd' ▸ layout_of_skipLayout hb)⟩
        · cases h
      · obtain ⟨⟨vs, t, close⟩, hvs, h⟩ := Option.map_eq_some_iff.1 h
        cases h
        obtain ⟨sep, hitems, hending⟩ := items_of_items? hvs
        refine ⟨sep, .cons hl hd ?_ hitems, hending⟩
        rintro rfl
        exact hdot rfl
  · cases h
termination_by (cs.length, 1)
decreasing_by
  all_goals
    simp only [Prod.lex_def]
    omega

end

end Data

theorem Document.reads {text : String} {datum : SExpr} (h : Document text.toList datum) :
    read text = .ok datum := by
  obtain ⟨start, rest, hl, hd, hend⟩ := h
  simp only [read, bind, Except.bind, hl.skips hd.start.1, hd.reads, hend.skips stop_nil]

theorem document_of_read {text : String} {datum : SExpr} (h : read text = .ok datum) :
    Document text.toList datum := by
  simp only [read, bind, Except.bind] at h
  rcases hs : skipLayout text.toList with e | start <;> simp only [hs, reduceCtorEq] at h
  rcases hd : datum? start with _ | ⟨v, rest⟩ <;> simp only [hd, reduceCtorEq] at h
  rcases he : skipLayout rest with e | _ | ⟨c, behind⟩ <;>
    simp only [he, reduceCtorEq, Except.ok.injEq] at h
  subst h
  exact ⟨start, rest, layout_of_skipLayout hs, datum_of_datum? hd, layout_of_skipLayout he⟩

/-- Where no datum starts behind the layout, reading stops there. -/
theorem read_eq_error_of_datum? {text : String} {start : List Char}
    (hl : skipLayout text.toList = .ok start) (hd : datum? start = none) :
    read text = .error ⟨start⟩ := by
  simp only [read, bind, Except.bind, hl, hd]

end SyntaxChart.SExpr.Grammar

namespace SyntaxChart.SExpr

open Grammar

/-- A text reads as a datum if and only if it is a document that denotes it, and a text denotes at
most one datum. -/
theorem read_eq_ok_iff (text : String) :
    (∀ datum, read text = .ok datum ↔ Document text.toList datum) ∧
      {datum | Document text.toList datum}.Subsingleton := by
  refine ⟨fun datum => ⟨document_of_read, Document.reads⟩, fun v hv w hw => ?_⟩
  have := hv.reads.symm.trans hw.reads
  simpa using this

end SyntaxChart.SExpr
