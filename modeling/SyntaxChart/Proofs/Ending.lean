import SyntaxChart.Proofs.Stopping

/-!
# When a message says that the text is over

A message says so when the first line of the rest is white space, whether or not there is a rest
(`SExpr.message_eq_ended_iff`). Of a text that is layout only this is right. But reading also stops
at white space that is no layout, and at a carriage return that breaks off a comment, and where the
line has nothing else on it, the message calls the text over, whatever follows. A form feed on its
own is such a text (`SExpr.message_eq_ended_formFeed`).

Every other message quotes a piece of the rest.
-/

namespace SyntaxChart

namespace ReadError

/-- The message that the text is over. -/
def ended : String :=
  "syntax error in s-expression: unexpected end of input"

/-- The message that quotes a piece of the text. -/
def quoting (piece : List Char) : String :=
  "syntax error in s-expression: unexpected `" ++ String.ofList piece ++ "`"

/-- Two texts differ where the first part of one differs from the other. -/
theorem append_append_ne {start text : String} {i : Nat} (hi : i < start.toList.length)
    (h : start.toList[i]? ≠ text.toList[i]?) (more rest : String) :
    start ++ more ++ rest ≠ text := by
  rintro rfl
  rw [String.append_assoc, String.toList_append, List.getElem?_append_left hi] at h
  exact h rfl

-- They part at the character behind `unexpected`: a backquote in one and a letter in the other.
theorem quoting_ne_ended (piece : List Char) : quoting piece ≠ ended :=
  append_append_ne (i := 41) (by decide) (by decide) _ _

end ReadError

open ReadError

/-- A text whose first line is white space. -/
def BlankLine (rest : List Char) : Prop :=
  ∃ line, FirstLine rest line ∧ ∀ c ∈ line, Text.isBlank c = true

theorem trimmed_nil_iff {line : List Char} :
    Trimmed line [] ↔ ∀ c ∈ line, Text.isBlank c = true := by
  constructor
  · rintro ⟨hbefore, hbehind⟩
    rw [List.nil_append, List.forall_mem_append]
    exact ⟨hbefore, hbehind⟩
  · intro h
    have : Trimmed (line ++ ([] ++ [])) [] := .intro h (by simp) (by simp) (by simp)
    simpa using this

theorem Trimmed.isInfix {line excerpt : List Char} (h : Trimmed line excerpt) :
    excerpt <:+: line := by
  obtain ⟨-, -, -, -⟩ := h
  rw [← List.append_assoc]
  exact List.infix_append _ _ _

theorem FirstLine.isPrefix {rest line : List Char} (h : FirstLine rest line) : line <+: rest := by
  cases h with
  | text => exact List.prefix_refl _
  | feed => exact List.prefix_append _ _
  | returnFeed => exact List.prefix_append _ _

/-- A message says that the text is over and the first line of the rest is white space, or it quotes
a piece of the rest. -/
theorem Reports.cases {rest : List Char} {message : String} (h : Reports rest message) :
    message = ended ∧ BlankLine rest
      ∨ ∃ piece, piece ≠ [] ∧ piece <:+: rest ∧ message = quoting piece := by
  cases h with
  | nothing hline htrim => exact .inl ⟨rfl, _, hline, trimmed_nil_iff.1 htrim⟩
  | @excerpt line piece hline htrim hne =>
    exact .inr ⟨piece, hne, htrim.isInfix.trans hline.isPrefix.isInfix, rfl⟩

theorem ReadError.message_eq_ended_iff_blankLine (e : ReadError) :
    e.message = ended ↔ BlankLine e.rest := by
  constructor
  · intro h
    obtain ⟨-, hblank⟩ | ⟨piece, -, -, hpiece⟩ := ((reports_iff e _).2 rfl).cases
    · exact hblank
    · exact absurd (hpiece.symm.trans h) (quoting_ne_ended piece)
  · rintro ⟨line, hline, hblank⟩
    exact ((reports_iff e _).1 (.nothing hline (trimmed_nil_iff.2 hblank))).symm

namespace SExpr

namespace Grammar

/-- There is a rest, but its first line is white space. It begins with white space that is no
layout, or with a carriage return that ends no line. -/
structure Unseen (rest : List Char) : Prop where
  blankLine : BlankLine rest
  start : ∃ c behind, rest = c :: behind
    ∧ (c ∉ [' ', '\t', '\r', '\n'] ∨ c = '\r' ∧ behind.head? ≠ some '\n')

theorem notMem_of_stop {c : Char} {behind : List Char} (h : Stop (c :: behind)) :
    c ∉ [' ', '\t', '\r', '\n'] := by
  rw [← isSpace_iff, (h c rfl).1]
  exact Bool.false_ne_true

theorem BrokenComment.start {cs rest : List Char} (h : BrokenComment cs rest) :
    ∃ behind, rest = '\r' :: behind ∧ behind.head? ≠ some '\n' := by
  cases h with
  | intro _ hrest _ => exact ⟨_, rfl, hrest⟩

/-- Reading stops at the end of the text, at what is no layout, or in a broken comment. -/
theorem Stuck.start {cs : List Char} {c : Char} {behind : List Char} (h : Stuck cs (c :: behind)) :
    c ∉ [' ', '\t', '\r', '\n'] ∨ c = '\r' ∧ behind.head? ≠ some '\n' := by
  cases h with
  | comment h | commentBehind _ _ h =>
    obtain ⟨_, ⟨⟩, hrest⟩ := h.start
    exact .inr ⟨rfl, hrest⟩
  | noDatum hl hcomment => exact .inl (notMem_of_stop (hl.stop hcomment))
  | behind _ _ hl _ hcomment => exact .inl (notMem_of_stop (hl.stop hcomment))

/-- Reading stops at the end of a text that is layout only, and of no other. -/
theorem stuck_nil_iff {cs : List Char} : Stuck cs [] ↔ Layout cs [] := by
  constructor
  · intro h
    cases h with
    | comment h | commentBehind _ _ h =>
      obtain ⟨_, ⟨⟩, -⟩ := h.start
    | noDatum hl => exact hl.layout
    | behind _ _ _ hne => exact absurd rfl hne
  · intro h
    refine .noDatum ⟨h, fun _ _ => Nat.zero_le _⟩ (by simp) fun v behind hv => ?_
    have := hv.reads
    simp at this

end Grammar

open Grammar

/-- The message for a text says that the text is over if and only if the text is layout only, or
reading stops where there is a rest whose first line is white space. Every other message quotes a
piece of the rest. -/
theorem message_eq_ended_iff (text : String) :
    ((∃ e, read text = .error e ∧ e.message = ended) ↔
        Layout text.toList [] ∨ ∃ rest, Stuck text.toList rest ∧ Unseen rest)
      ∧ ∀ e, read text = .error e → e.message ≠ ended →
        ∃ piece, piece ≠ [] ∧ piece <:+: e.rest ∧ e.message = quoting piece := by
  refine ⟨⟨?_, ?_⟩, fun e _ hne => ?_⟩
  · rintro ⟨⟨rest⟩, he, hended⟩
    have hstuck := stuck_of_read he
    cases rest with
    | nil => exact .inl (stuck_nil_iff.1 hstuck)
    | cons c behind =>
      have hblank := (message_eq_ended_iff_blankLine _).1 hended
      exact .inr ⟨c :: behind, hstuck, hblank, c, behind, rfl, hstuck.start⟩
  · rintro (hlayout | ⟨rest, hstuck, hunseen⟩)
    · refine ⟨⟨[]⟩, (stuck_nil_iff.2 hlayout).reads, ?_⟩
      exact (message_eq_ended_iff_blankLine _).2 ⟨[], .text (by simp), by simp⟩
    · exact ⟨⟨rest⟩, hstuck.reads, (message_eq_ended_iff_blankLine _).2 hunseen.blankLine⟩
  · obtain ⟨hended, -⟩ | hpiece := ((reports_iff e _).2 rfl).cases
    · exact absurd hended hne
    · exact hpiece

/-- Behind a number, a vertical tab and a word: what is quoted is the word. -/
theorem message_eq_ended_iff_word :
    let e : ReadError := ⟨"\x0bfoo".toList⟩
    read "5 \x0bfoo" = .error e ∧ e.message ≠ ended
      ∧ ∃ piece, piece ≠ [] ∧ piece <:+: e.rest ∧ e.message = quoting piece := by
  intro e
  have hword : Datum "5 \x0bfoo".toList (.atom "5") " \x0bfoo".toList :=
    .word (word_span (by decide))
  have hl : skipLayout " \x0bfoo".toList = .ok e.rest := rfl
  have hread : read "5 \x0bfoo" = .error e :=
    (Stuck.behind (.none _) hword (longestLayout_of_skipLayout hl).1 (List.cons_ne_nil _ _)
      (by decide)).reads
  have hne : e.message ≠ ended := by decide
  exact ⟨hread, hne, (message_eq_ended_iff "5 \x0bfoo").2 e hread hne⟩

/-- A form feed on its own is no layout, and yet the message for it is that the text is over. -/
theorem message_eq_ended_formFeed :
    (∃ e, read "\x0c" = .error e ∧ e.message = ended) ∧ ¬Layout "\x0c".toList [] := by
  have hskip : skipLayout "\x0c".toList = .ok ['\x0c'] := rfl
  have hnone : datum? ['\x0c'] = none := by
    rw [datum?_cons]
    rfl
  refine ⟨⟨_, read_eq_error_of_datum? hskip hnone, by decide⟩, fun h => ?_⟩
  have := h.skips stop_nil
  rw [hskip] at this
  cases this

end SExpr

end SyntaxChart
