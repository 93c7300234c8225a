import SyntaxChart.Proofs.Excerpt
import SyntaxChart.Proofs.Reading

/-!
# Where reading stops

A rejected text is reported from one place, and which place that is can be told from the grammar
(`Grammar.Stuck`). Either a comment outside the datum is broken by a carriage return, and reading
stops there. Or no datum starts behind the layout that the text begins with, and however far a datum
seemed to go, reading stops at its start. Or there is more behind the datum and the layout that
follows it, and reading stops at what is more. A text is rejected if and only if it has such a place,
and it never has two (`SExpr.read_eq_error_iff`).

The message is made from the rest of the text there and nothing else (`Reports`).
-/

namespace SyntaxChart.SExpr

namespace Grammar

/-- A text goes on, behind layout, with a comment that breaks off at a carriage return: no line feed
follows it. The second list is the text from this carriage return on. -/
inductive BrokenComment : List Char → List Char → Prop
  | intro {cs line rest : List Char} : (∀ c ∈ line, c ≠ '\r' ∧ c ≠ '\n') → rest.head? ≠ some '\n' →
      Layout cs (';' :: (line ++ '\r' :: rest)) → BrokenComment cs ('\r' :: rest)

/-- Layout that goes as far as layout can. -/
structure LongestLayout (cs rest : List Char) : Prop where
  layout : Layout cs rest
  longest : ∀ rest', Layout cs rest' → rest.length ≤ rest'.length

/-- The places where reading a text stops: at a broken comment in front of a datum or behind it, at
what is no datum, and at what follows a datum. -/
inductive Stuck (cs : List Char) : List Char → Prop
  | comment {rest : List Char} : BrokenComment cs rest → Stuck cs rest
  | commentBehind {start behind rest : List Char} {datum : SExpr} :
      Layout cs start → Datum start datum behind → BrokenComment behind rest → Stuck cs rest
  | noDatum {rest : List Char} :
      LongestLayout cs rest → rest.head? ≠ some ';' → (∀ datum behind, ¬Datum rest datum behind) →
        Stuck cs rest
  | behind {start behind rest : List Char} {datum : SExpr} :
      Layout cs start → Datum start datum behind → LongestLayout behind rest → rest ≠ [] →
        rest.head? ≠ some ';' → Stuck cs rest

/-! ## Broken comments -/

theorem skipComment_broken {rest : List Char} (hrest : rest.head? ≠ some '\n') :
    ∀ {line : List Char}, (∀ c ∈ line, c ≠ '\r' ∧ c ≠ '\n') →
      skipComment (line ++ '\r' :: rest) = .error ⟨'\r' :: rest⟩
  | [], _ => by simp [skipComment, hrest]
  | c :: line, h => by
    obtain ⟨hr, hn⟩ := h c List.mem_cons_self
    rw [List.cons_append, skipComment, if_neg hn, if_neg hr]
    exact skipComment_broken hrest fun d hd => h d (List.mem_cons_of_mem _ hd)

theorem BrokenComment.skips {cs rest : List Char} (h : BrokenComment cs rest) :
    skipLayout cs = .error ⟨rest⟩ := by
  obtain ⟨hline, hrest, hl⟩ := h
  rw [hl.skipLayout_eq, skipLayout, if_neg (by simp [isSpace]), if_pos rfl,
    skipComment_broken hrest hline]

theorem BrokenComment.of_layout {cs mid rest : List Char} (hl : Layout cs mid)
    (h : BrokenComment mid rest) : BrokenComment cs rest := by
  obtain ⟨hline, hrest, hmid⟩ := h
  exact .intro hline hrest (hl.trans hmid)

/-- The skipper fails at broken comments only. Inside of a comment, either its own line is broken or
one behind it. -/
theorem broken_of_skip : ∀ (cs : List Char) (e : ReadError),
    (skipLayout cs = .error e → BrokenComment cs e.rest) ∧
      (skipComment cs = .error e → ∃ line next, cs = line ++ next ∧
        (∀ c ∈ line, c ≠ '\r' ∧ c ≠ '\n') ∧
          ((LineEnd next ∧ BrokenComment next e.rest) ∨
            ∃ rest, next = '\r' :: rest ∧ rest.head? ≠ some '\n' ∧ e.rest = '\r' :: rest))
  | [], e => by simp [skipLayout, skipComment]
  | c :: cs, e => by
    obtain ⟨ihLayout, ihComment⟩ := broken_of_skip cs e
    refine ⟨fun h => ?_, fun h => ?_⟩
    · rw [skipLayout] at h
      split_ifs at h with hs hc
      · exact .of_layout (.space (isSpace_iff.1 hs) (.none cs)) (ihLayout h)
      · subst hc
        obtain ⟨line, next, rfl, hline, ⟨hend, hnext⟩ | ⟨rest, rfl, hrest, he⟩⟩ := ihComment h
        · exact .of_layout (.comment hline hend (.none next)) hnext
        · exact he ▸ .intro hline hrest (.none _)
    · rw [skipComment] at h
      split_ifs at h with hn hr hf
      · subst hn
        exact ⟨[], _, rfl, by simp, .inl ⟨.feed cs, .of_layout (.space (by simp) (.none cs))
          (ihLayout h)⟩⟩
      · subst hr
        obtain ⟨cs, rfl⟩ : ∃ next, cs = '\n' :: next := by
          cases cs with
          | nil => cases hf
          | cons d cs => exact ⟨cs, by simpa using hf⟩
        exact ⟨[], _, rfl, by simp, .inl ⟨.returnFeed cs, .of_layout (.space (by simp) (.none _))
          (ihLayout h)⟩⟩
      · subst hr
        cases h
        exact ⟨[], _, rfl, by simp, .inr ⟨cs, rfl, hf, rfl⟩⟩
      · obtain ⟨line, next, rfl, hline, hnext⟩ := ihComment h
        refine ⟨c :: line, next, rfl, ?_, hnext⟩
        rw [List.forall_mem_cons]
        exact ⟨⟨hr, hn⟩, hline⟩

/-! ## The longest layout -/

theorem stop_of_skip : ∀ cs rest : List Char,
    (skipLayout cs = .ok rest → Stop rest) ∧ (skipComment cs = .ok rest → Stop rest)
  | [], rest => by
    refine ⟨fun h => ?_, fun h => ?_⟩ <;>
    · cases h
      exact stop_nil
  | c :: cs, rest => by
    obtain ⟨ihLayout, ihComment⟩ := stop_of_skip cs rest
    refine ⟨fun h => ?_, fun h => ?_⟩
    · rw [skipLayout] at h
      split_ifs at h with hs hc
      · exact ihLayout h
      · exact ihComment h
      · cases h
        simpa [Stop, hs] using hc
    · rw [skipComment] at h
      split_ifs at h
      · exact ihLayout h
      · exact ihLayout h
      · exact ihComment h

/-- Behind the longest layout there is nothing to skip, unless a comment starts there. -/
theorem LongestLayout.stop {cs rest : List Char} (h : LongestLayout cs rest)
    (hcomment : rest.head? ≠ some ';') : Stop rest := by
  intro c hc
  obtain ⟨rest', rfl⟩ : ∃ rest', rest = c :: rest' := by
    cases rest with
    | nil => cases hc
    | cons d rest' => exact ⟨rest', by simpa using hc⟩
  refine ⟨eq_false_of_ne_true fun hs => ?_, by simpa using hcomment⟩
  have := h.longest rest' (h.layout.trans (.space (isSpace_iff.1 hs) (.none rest')))
  simp only [List.length_cons] at this
  omega

theorem LongestLayout.skips {cs rest : List Char} (h : LongestLayout cs rest)
    (hcomment : rest.head? ≠ some ';') : skipLayout cs = .ok rest :=
  h.layout.skips (h.stop hcomment)

/-- What the skipper passes over is the longest layout, and no comment starts behind it. -/
theorem longestLayout_of_skipLayout {cs rest : List Char} (h : skipLayout cs = .ok rest) :
    LongestLayout cs rest ∧ rest.head? ≠ some ';' := by
  refine ⟨⟨layout_of_skipLayout h, fun rest' hl => ?_⟩, fun hc => ?_⟩
  · rw [hl.skipLayout_eq] at h
    exact length_le_of_skipLayout h
  · exact ((stop_of_skip cs rest).1 h _ hc).2 rfl

/-! ## Reading stops where the grammar is stuck -/

theorem stuck_of_read {text : String} {e : ReadError} (h : read text = .error e) :
    Stuck text.toList e.rest := by
  simp only [read, bind, Except.bind] at h
  rcases hs : skipLayout text.toList with e' | start <;> simp only [hs] at h
  · cases h
    exact .comment ((broken_of_skip _ _).1 hs)
  obtain ⟨hlongest, hcomment⟩ := longestLayout_of_skipLayout hs
  rcases hd : datum? start with _ | ⟨v, rest⟩ <;> simp only [hd] at h
  · cases h
    refine .noDatum hlongest hcomment fun v rest hv => ?_
    cases hd.symm.trans hv.reads
  have hdatum := datum_of_datum? hd
  rcases he : skipLayout rest with e' | _ | ⟨c, behind⟩ <;> simp only [he] at h <;> cases h
  · exact .commentBehind hlongest.layout hdatum ((broken_of_skip _ _).1 he)
  · obtain ⟨hbehind, hcomment⟩ := longestLayout_of_skipLayout he
    exact .behind hlongest.layout hdatum hbehind (List.cons_ne_nil _ _) hcomment

theorem Stuck.reads {text : String} {rest : List Char} (h : Stuck text.toList rest) :
    read text = .error ⟨rest⟩ := by
  cases h with
  | comment h => simp only [read, bind, Except.bind, h.skips]
  | commentBehind hl hd h =>
    simp only [read, bind, Except.bind, hl.skips hd.start.1, hd.reads, h.skips]
  | noDatum hl hcomment hnone =>
    refine read_eq_error_of_datum? (hl.skips hcomment) (Option.eq_none_iff_forall_ne_some.2 ?_)
    exact fun p hp => hnone p.1 p.2 (datum_of_datum? hp)
  | behind hl hd hbehind hne hcomment =>
    obtain ⟨c, rest, rfl⟩ := List.exists_cons_of_ne_nil hne
    simp only [read, bind, Except.bind, hl.skips hd.start.1, hd.reads, hbehind.skips hcomment]

/-! ## The place is one in the text -/

theorem Quotation.suffix {cs text rest : List Char} (h : Quotation cs text rest) : rest <:+ cs := by
  induction h with
  | close => exact List.suffix_cons _ _
  | plain _ _ _ ih => exact ih.trans (List.suffix_cons _ _)
  | escape _ _ ih => exact ih.trans ((List.suffix_cons _ _).trans (List.suffix_cons _ _))

theorem Word.suffix {cs word rest : List Char} (h : Word cs word rest) : rest <:+ cs :=
  ⟨word, h.split.symm⟩

mutual

theorem Datum.suffix : ∀ {cs rest : List Char} {v : SExpr}, Datum cs v rest → rest <:+ cs
  | _, _, _, .list hi hclose =>
    (List.suffix_cons _ _).trans <| hclose.suffix.trans <| hi.suffix.trans (List.suffix_cons _ _)
  | _, _, _, .dotted hi _ hsep hdot hl hd hclose =>
    (List.suffix_cons _ _).trans <| hclose.suffix.trans <| hd.suffix.trans <| hl.suffix.trans <|
      hdot.suffix.trans <| hsep.suffix.trans <| hi.suffix.trans (List.suffix_cons _ _)
  | _, _, _, .quote hl hd => hd.suffix.trans (hl.suffix.trans (List.suffix_cons _ _))
  | _, _, _, .string hq => hq.suffix.trans (List.suffix_cons _ _)
  | _, _, _, .word hw => hw.suffix

theorem Items.suffix : ∀ {cs sep : List Char} {items : List SExpr}, Items cs items sep → sep <:+ cs
  | _, _, _, .nil cs => List.suffix_refl cs
  | _, _, _, .cons hl hd _ hi => hi.suffix.trans (hd.suffix.trans hl.suffix)

end

theorem BrokenComment.suffix {cs rest : List Char} (h : BrokenComment cs rest) : rest <:+ cs := by
  obtain ⟨-, -, hl⟩ := h
  exact (List.suffix_append _ _).trans ((List.suffix_cons _ _).trans hl.suffix)

theorem Stuck.suffix {cs rest : List Char} (h : Stuck cs rest) : rest <:+ cs := by
  cases h with
  | comment h => exact h.suffix
  | commentBehind hl hd h => exact h.suffix.trans (hd.suffix.trans hl.suffix)
  | noDatum hl => exact hl.layout.suffix
  | behind hl hd hbehind => exact hbehind.layout.suffix.trans (hd.suffix.trans hl.suffix)

end Grammar

open Grammar

/-- A text is rejected if and only if it splits at a place where reading gets stuck, and it splits at
no more than one. The error has the rest of the text from there on, and its message is the one for
this rest. -/
theorem read_eq_error_iff (text : String) :
    (∀ e, read text = .error e ↔
        ∃ passed, text.toList = passed ++ e.rest ∧ Stuck text.toList e.rest)
      ∧ {split : List Char × List Char | text.toList = split.1 ++ split.2
        ∧ Stuck text.toList split.2}.Subsingleton
      ∧ ∀ (e : ReadError) (message : String), Reports e.rest message ↔ message = e.message := by
  refine ⟨fun e => ⟨fun h => ?_, fun ⟨_, _, h⟩ => h.reads⟩, ?_, reports_iff⟩
  · have hstuck := stuck_of_read h
    obtain ⟨passed, hsplit⟩ := hstuck.suffix
    exact ⟨passed, hsplit.symm, hstuck⟩
  · rintro ⟨a, r⟩ ⟨hsplit, hr⟩ ⟨b, t⟩ ⟨hsplit', ht⟩
    obtain rfl : r = t := by
      simpa using hr.reads.symm.trans ht.reads
    rw [Prod.mk.injEq, and_iff_left rfl]
    exact List.append_cancel_right (hsplit.symm.trans hsplit')

end SyntaxChart.SExpr
