import SyntaxChart.SExpr.Layout
import Mathlib.Data.List.DropRight
import Mathlib.Data.List.TakeWhile

/-!
# What a message quotes

An error's message quotes the first line of the rest of the text without the white space around it,
and if nothing is left of this line it says that the text is over (`Reports`). The rest determines
the message (`reports_iff`).

A line ends with a line feed or with a carriage return and a line feed. A carriage return is white
space, so it does not matter that one in front of the line feed is cut off with the white space, not
with the end of the line.
-/

namespace SyntaxChart

/-- The first line of a text, without its end: a line feed, or a carriage return and a line feed. -/
inductive FirstLine : List Char → List Char → Prop
  | text {cs : List Char} : '\n' ∉ cs → FirstLine cs cs
  | feed {line rest : List Char} :
      '\n' ∉ line → line.getLast? ≠ some '\r' → FirstLine (line ++ '\n' :: rest) line
  | returnFeed {line rest : List Char} :
      '\n' ∉ line → FirstLine (line ++ '\r' :: '\n' :: rest) line

/-- What is left of a line without the white space at its two ends. -/
inductive Trimmed : List Char → List Char → Prop
  | intro {before excerpt behind : List Char} :
      (∀ c ∈ before, Text.isBlank c = true) → (∀ c ∈ behind, Text.isBlank c = true) →
        (∀ c ∈ excerpt.head?, Text.isBlank c = false) →
          (∀ c ∈ excerpt.getLast?, Text.isBlank c = false) →
            Trimmed (before ++ (excerpt ++ behind)) excerpt

/-- The message for the rest of a text. -/
inductive Reports (rest : List Char) : String → Prop
  | nothing {line : List Char} : FirstLine rest line → Trimmed line [] →
      Reports rest "syntax error in s-expression: unexpected end of input"
  | excerpt {line excerpt : List Char} :
      FirstLine rest line → Trimmed line excerpt → excerpt ≠ [] →
        Reports rest ("syntax error in s-expression: unexpected `" ++ String.ofList excerpt ++ "`")

/-! ## Trimming -/

theorem dropWhile_append_eq {p : Char → Bool} {before cs : List Char}
    (hbefore : ∀ c ∈ before, p c = true) (hcs : ∀ c ∈ cs.head?, p c = false) :
    (before ++ cs).dropWhile p = cs := by
  rw [List.dropWhile_append_of_pos hbefore]
  cases cs with
  | nil => rfl
  | cons c cs => rw [List.dropWhile_cons_of_neg (by simp [hcs c rfl])]

theorem rdropWhile_append_eq {p : Char → Bool} {cs behind : List Char}
    (hbehind : ∀ c ∈ behind, p c = true) (hcs : ∀ c ∈ cs.getLast?, p c = false) :
    (cs ++ behind).rdropWhile p = cs := by
  rw [List.rdropWhile, List.reverse_append,
    dropWhile_append_eq (by simpa using hbehind) (by simpa using hcs), List.reverse_reverse]

namespace Trimmed

theorem trim_eq {line excerpt : List Char} (h : Trimmed line excerpt) :
    Text.trim line = excerpt := by
  obtain ⟨hbefore, hbehind, hfirst, hlast⟩ := h
  rename_i before behind
  have hright : (excerpt ++ behind).rdropWhile Text.isBlank = excerpt :=
    rdropWhile_append_eq hbehind hlast
  cases excerpt with
  | nil =>
    have hblank : (before ++ behind).dropWhile Text.isBlank = [] := by
      simpa using fun c hc => (List.mem_append.1 hc).elim (hbefore c) (hbehind c)
    rw [Text.trim, List.nil_append, hblank]
    rfl
  | cons c excerpt =>
    rw [Text.trim, dropWhile_append_eq hbefore (by simpa using hfirst)]
    exact hright

theorem append_return {line excerpt : List Char} (h : Trimmed line excerpt) :
    Trimmed (line ++ ['\r']) excerpt := by
  obtain ⟨hbefore, hbehind, hfirst, hlast⟩ := h
  rw [List.append_assoc, List.append_assoc]
  refine .intro hbefore ?_ hfirst hlast
  rw [List.forall_mem_append]
  exact ⟨hbehind, by simpa using (by decide : Text.isBlank '\r' = true)⟩

end Trimmed

theorem trimmed_trim (line : List Char) : Trimmed line (Text.trim line) := by
  let tail := line.dropWhile Text.isBlank
  have htail : Text.trim line ++ tail.rtakeWhile Text.isBlank = tail :=
    List.rdropWhile_append_rtakeWhile
  have h : Trimmed (line.takeWhile Text.isBlank ++ (Text.trim line ++ tail.rtakeWhile Text.isBlank))
      (Text.trim line) := by
    refine .intro (fun c => List.mem_takeWhile_imp) (fun c => List.mem_rtakeWhile_imp)
      (fun c hc => ?_) fun c hc => ?_
    · have hhead : tail.head? = some c := by
        rw [← htail, List.head?_append, Option.mem_def.1 hc, Option.some_or]
      have := List.head?_dropWhile_not Text.isBlank line
      simpa [tail, hhead] using this
    · obtain ⟨hne, rfl⟩ := List.mem_getLast?_eq_getLast hc
      exact eq_false_of_ne_true (List.rdropWhile_last_not _ _ hne)
  rw [htail] at h
  rwa [List.takeWhile_append_dropWhile] at h

/-! ## The first line -/

theorem bne_of_notMem {line : List Char} (h : '\n' ∉ line) : ∀ c ∈ line, (c != '\n') = true :=
  fun _ hc => bne_iff_ne.2 fun he => h (he ▸ hc)

theorem firstLine_append {line : List Char} (h : '\n' ∉ line) (rest : List Char) :
    Text.firstLine (line ++ '\n' :: rest) = line := by
  rw [Text.firstLine, List.takeWhile_append_of_pos (bne_of_notMem h)]
  simp

theorem FirstLine.trim_eq {rest line : List Char} (h : FirstLine rest line) :
    Text.trim (Text.firstLine rest) = Text.trim line := by
  cases h with
  | text h =>
    rw [Text.firstLine, List.takeWhile_eq_self_iff.2 (bne_of_notMem h)]
  | feed h => rw [firstLine_append h]
  | @returnFeed _ rest h =>
    have hline : line ++ '\r' :: '\n' :: rest = (line ++ ['\r']) ++ '\n' :: rest := by simp
    rw [hline, firstLine_append (by simpa using h)]
    exact (trimmed_trim line).append_return.trim_eq

theorem exists_firstLine (rest : List Char) : ∃ line, FirstLine rest line := by
  by_cases h : '\n' ∈ rest
  · obtain ⟨line, behind, rfl, hline⟩ := List.eq_append_cons_of_mem h
    by_cases hreturn : line.getLast? = some '\r'
    · obtain ⟨line, rfl⟩ := List.getLast?_eq_some_iff.1 hreturn
      rw [List.append_assoc]
      exact ⟨line, .returnFeed fun hmem => hline (List.mem_append_left _ hmem)⟩
    · exact ⟨line, .feed hline hreturn⟩
  · exact ⟨rest, .text h⟩

/-- The message of an error is the one for its rest. -/
theorem reports_iff (e : ReadError) (message : String) :
    Reports e.rest message ↔ message = e.message := by
  constructor
  · rintro (⟨hline, htrim⟩ | ⟨hline, htrim, hne⟩)
    · have hexcerpt : e.excerpt = [] := hline.trim_eq.trans htrim.trim_eq
      rw [ReadError.message, hexcerpt]
    · rename_i line excerpt
      have hexcerpt : e.excerpt = excerpt := hline.trim_eq.trans htrim.trim_eq
      obtain ⟨c, cs, rfl⟩ := List.exists_cons_of_ne_nil hne
      rw [ReadError.message, hexcerpt]
  · rintro rfl
    obtain ⟨line, hline⟩ := exists_firstLine e.rest
    have htrim := trimmed_trim line
    have hexcerpt : e.excerpt = Text.trim line := hline.trim_eq
    rw [ReadError.message, hexcerpt]
    split <;> rename_i heq
    · exact .nothing hline (heq ▸ htrim)
    · exact .excerpt hline htrim (by simpa using heq)

end SyntaxChart
