import SyntaxChart.Source
import SyntaxChart.Proofs.Parsing
import SyntaxChart.Proofs.Reading

/-!
# Programs and forms do not compete

What parses as a program parses as no form, since the keyword of a program is no operator. So a text
holds a script as soon as its s-expression parses as either, and neither the look at the head of the
s-expression nor the order of the two matters (`Script.ofText_unguarded`).

The early end on a blank text loses nothing either. The reader skips fewer characters than are
blank, but on the others it starts no datum (`Grammar.Datum.exists_not_isBlank`).
-/

namespace SyntaxChart

namespace SExpr

namespace Grammar

/-- What a datum starts with is not blank. -/
theorem Datum.exists_not_isBlank {cs rest : List Char} {datum : SExpr} (h : Datum cs datum rest) :
    ∃ c ∈ cs, Text.isBlank c = false := by
  cases h with
  | word h =>
    obtain ⟨rfl, hne, hchars, -⟩ := h
    obtain ⟨c, word, rfl⟩ := List.exists_cons_of_ne_nil hne
    exact ⟨c, List.mem_cons_self, (hchars c List.mem_cons_self).1⟩
  | quote | string => exact ⟨_, List.mem_cons_self, by decide⟩
  | list | dotted => exact ⟨_, List.mem_cons_self, by decide⟩

end Grammar

/-- The reader accepts no blank text. -/
theorem exists_read_eq_error {text : String} (h : text.toList.all Text.isBlank = true) :
    ∃ e, read text = .error e := by
  rcases hr : read text with e | x
  · exact ⟨e, rfl⟩
  · obtain ⟨start, rest, hl, hd, -⟩ := Grammar.document_of_read hr
    obtain ⟨c, hc, hblank⟩ := hd.exists_not_isBlank
    have := List.all_eq_true.1 h c (hl.suffix.subset hc)
    simp [hblank] at this

end SExpr

namespace Script

/-- What begins as a program is no form: as a list it is a program inside of one, and a dotted list
is nothing at all. -/
theorem parse_of_isProgramLike {x : SExpr} (h : isProgramLike x = true) :
    ∃ fault ∈ [Fault.nestedProgram, .dottedExpr],
      Expr.parse x = .error fault ∧ Form.parse x = .error fault := by
  rw [isProgramLike.eq_def] at h
  split at h
  · rename_i head operands
    have hk := of_decide_eq_true h
    have he : Expr.parse (.list (head :: operands)) = .error .nestedProgram := by
      simp only [Expr.parse.eq_def, hk]
    refine ⟨_, by simp, he, ?_⟩
    simp only [Form.parse.eq_def, hk, he, Option.some.injEq, reduceCtorEq, if_false]
    rfl
  · rename_i head operands tail
    have he : Expr.parse (.dotted (head :: operands) tail) = .error .dottedExpr := by
      rw [Expr.parse]
    refine ⟨_, by simp, he, ?_⟩
    rw [Form.parse, he]
    · rfl
    · simp
  · cases h

theorem isProgramLike_of_parseProgram {x : SExpr} {forms : List Form}
    (h : parseProgram x = .ok forms) : isProgramLike x = true := by
  obtain ⟨-, -⟩ := parseProgram_eq_ok_iff.1 h
  exact decide_eq_true (Expr.keyword?_spelling .program)

/-- What an s-expression is, whatever it begins with. -/
inductive ParsesAs (x : SExpr) : Script → Prop
  | program {forms : List Form} : parseProgram x = .ok forms → ParsesAs x (.program forms)
  | form {f : Form} : Form.parse x = .ok f → ParsesAs x (.form f)

theorem parse_ne_ok_of_parseProgram {x : SExpr} {forms : List Form}
    (h : parseProgram x = .ok forms) (f : Form) : Form.parse x ≠ .ok f := by
  obtain ⟨fault, -, -, he⟩ := parse_of_isProgramLike (isProgramLike_of_parseProgram h)
  rw [he]
  exact nofun

theorem ofSExpr_eq_ok_iff {x : SExpr} {s : Script} : ofSExpr x = .ok s ↔ ParsesAs x s := by
  constructor
  · intro h
    rw [ofSExpr] at h
    split_ifs at h <;> split at h <;> cases h
    · exact .program ‹_›
    · exact .form ‹_›
  · intro h
    rw [ofSExpr]
    cases h with
    | program h => rw [if_pos (isProgramLike_of_parseProgram h), h]
    | form h =>
      have hx : ¬isProgramLike x = true := fun hx => by
        obtain ⟨fault, -, -, he⟩ := parse_of_isProgramLike hx
        cases h.symm.trans he
      rw [if_neg hx, h]

theorem ofText_eq_ok_iff {text : String} {s : Script} :
    ofText text = .ok s ↔ ∃ x, SExpr.read text = .ok x ∧ ParsesAs x s := by
  rw [ofText]
  split_ifs with hblank
  · obtain ⟨e, he⟩ := SExpr.exists_read_eq_error hblank
    simp [he]
  · rcases SExpr.read text with e | x
    · simp
    · simp [ofSExpr_eq_ok_iff]

/-! ## Trying both -/

/-- A way to take an s-expression for a script. -/
abbrev Reading := SExpr → Except Fault Script

def asProgram : Reading := fun x => program <$> parseProgram x

def asForm : Reading := fun x => form <$> Form.parse x

/-- The script of a text by one reading, and where that fails by another. -/
def ofTextTrying (first second : Reading) (text : String) : Except String Script :=
  match SExpr.read text with
  | .error _ => .error "wrong syntax"
  | .ok x =>
    match first x with
    | .ok s => .ok s
    | .error _ =>
      match second x with
      | .ok s => .ok s
      | .error _ => .error "wrong syntax"

theorem asProgram_eq_ok_iff {x : SExpr} {s : Script} :
    asProgram x = .ok s ↔ ∃ forms, parseProgram x = .ok forms ∧ s = program forms := by
  rw [asProgram]
  cases parseProgram x <;> simp [Functor.map, Except.map, eq_comm]

theorem asForm_eq_ok_iff {x : SExpr} {s : Script} :
    asForm x = .ok s ↔ ∃ f, Form.parse x = .ok f ∧ s = form f := by
  rw [asForm]
  cases Form.parse x <;> simp [Functor.map, Except.map, eq_comm]

theorem parsesAs_iff {x : SExpr} {s : Script} :
    ParsesAs x s ↔ asProgram x = .ok s ∨ asForm x = .ok s := by
  rw [asProgram_eq_ok_iff, asForm_eq_ok_iff]
  constructor
  · rintro (h | h)
    · exact .inl ⟨_, h, rfl⟩
    · exact .inr ⟨_, h, rfl⟩
  · rintro (⟨forms, h, rfl⟩ | ⟨f, h, rfl⟩)
    · exact .program h
    · exact .form h

/-- Where the second reading takes nothing that the first takes, trying both takes what either
takes. -/
theorem ofTextTrying_eq_ok_iff {first second : Reading}
    (h : ∀ x s s', first x = .ok s → second x ≠ .ok s') {text : String} {s : Script} :
    ofTextTrying first second text = .ok s ↔
      ∃ x, SExpr.read text = .ok x ∧ (first x = .ok s ∨ second x = .ok s) := by
  rw [ofTextTrying]
  rcases SExpr.read text with e | x
  · simp
  · rcases hf : first x with e | s'
    · rcases hs : second x with e' | s' <;> simp [hf, hs]
    · simp [hf, h x s' s hf]

theorem message_of_ofTextTrying_eq_error {first second : Reading} {text message : String}
    (h : ofTextTrying first second text = .error message) : message = "wrong syntax" := by
  rw [ofTextTrying] at h
  split at h
  · cases h
    rfl
  · split at h
    · cases h
    · split at h <;> cases h
      rfl

/-- Results that are the same scripts, and otherwise the same words, are the same. -/
theorem mapError_ofText_eq {text : String} {result : Except String Script}
    (hok : ∀ s, result = .ok s ↔ ofText text = .ok s)
    (herror : ∀ message, result = .error message → message = "wrong syntax") :
    (ofText text).mapError Rejection.message = result := by
  rcases hr : result with message | s
  · obtain rfl := herror message hr
    rcases ht : ofText text with e | s
    · rfl
    · cases hr.symm.trans ((hok s).2 ht)
  · rw [(hok s).1 hr]
    rfl

/-- What parses as a program begins as one, and what begins as one is neither an expression nor a
form. So a text holds what its s-expression parses as, and any other text is rejected with the same
words; trying a program first and a form where that fails gives the same, and so does trying them
the other way round. A blank text is none that the reader accepts. -/
theorem ofText_unguarded :
    (∀ x forms, parseProgram x = .ok forms →
      isProgramLike x = true ∧ ∀ f, Form.parse x ≠ .ok f)
      ∧ (∀ x, isProgramLike x = true → ∃ fault ∈ [Fault.nestedProgram, .dottedExpr],
        Expr.parse x = .error fault ∧ Form.parse x = .error fault)
      ∧ (∀ text s, ofText text = .ok s ↔ ∃ x, SExpr.read text = .ok x ∧ ParsesAs x s)
      ∧ (∀ text, (¬∃ x s, SExpr.read text = .ok x ∧ ParsesAs x s) →
        (ofText text).mapError Rejection.message = .error "wrong syntax")
      ∧ (∀ text, (ofText text).mapError Rejection.message = ofTextTrying asProgram asForm text
        ∧ (ofText text).mapError Rejection.message = ofTextTrying asForm asProgram text)
      ∧ ∀ text : String, text.toList.all Text.isBlank = true →
        ∃ e, SExpr.read text = .error e := by
  -- no s-expression is taken both ways, whichever comes first
  have hexclusive : ∀ x s s', asProgram x = .ok s → asForm x ≠ .ok s' := fun x s s' h h' => by
    obtain ⟨forms, hp, -⟩ := asProgram_eq_ok_iff.1 h
    obtain ⟨f, hf, -⟩ := asForm_eq_ok_iff.1 h'
    exact parse_ne_ok_of_parseProgram hp f hf
  refine ⟨fun x forms h => ⟨isProgramLike_of_parseProgram h, parse_ne_ok_of_parseProgram h⟩,
    fun x => parse_of_isProgramLike, fun text s => ofText_eq_ok_iff, fun text h => ?_,
    fun text => ⟨?_, ?_⟩, fun text => SExpr.exists_read_eq_error⟩
  · rcases ht : ofText text with e | s
    · rfl
    · obtain ⟨x, hx⟩ := ofText_eq_ok_iff.1 ht
      exact absurd ⟨x, s, hx⟩ h
  · refine mapError_ofText_eq (fun s => ?_) fun _ => message_of_ofTextTrying_eq_error
    simp only [ofTextTrying_eq_ok_iff hexclusive, ofText_eq_ok_iff, parsesAs_iff]
  · refine mapError_ofText_eq (fun s => ?_) fun _ => message_of_ofTextTrying_eq_error
    simp only [ofTextTrying_eq_ok_iff fun x s s' h h' => hexclusive x s' s h' h, ofText_eq_ok_iff,
      parsesAs_iff, or_comm]

/-- A program, a dotted list that begins as one, and a text of blanks that are no layout. -/
theorem ofText_unguarded_program :
    let x := SExpr.list [.atom "L4", .string "a"]
    let y := SExpr.dotted [.atom "L4"] (.string "a")
    let blank := "\x0b\u00a0"
    parseProgram x = .ok [.expression (.string "a")]
      ∧ (∀ f, Form.parse x ≠ .ok f) ∧ isProgramLike y = true
      ∧ (∃ fault ∈ [Fault.nestedProgram, .dottedExpr],
        Expr.parse y = .error fault ∧ Form.parse y = .error fault)
      ∧ (∃ e, SExpr.read blank = .error e)
      ∧ (ofText blank).mapError Rejection.message = .error "wrong syntax" := by
  intro x y blank
  have hx : parseProgram x = .ok [.expression (.string "a")] :=
    parseProgram_eq_ok_iff.2 (.intro (.cons (.expression (.string "a")) .nil) (by simp))
  have hy : isProgramLike y = true := by decide
  obtain ⟨hprogram, hlike, -, hwrong, -, hblank⟩ := ofText_unguarded
  obtain ⟨e, he⟩ := hblank blank (by decide)
  exact ⟨hx, (hprogram x _ hx).2, hy, hlike y hy, ⟨e, he⟩, hwrong blank (by simp [he])⟩

end Script

end SyntaxChart
