import SyntaxChart.Proofs.Unparsing
import Mathlib.Tactic.TFAE

/-!
# Which words can be bound, referred to and assigned to

A word can be defined, be a parameter and be bound by a `let` exactly when it reads as a reference.
An assignment asks for less: its target may be a primitive operator too, though that reads as one and
nothing can bind it (`Expr.parse_assignment_iff`). This is the only gap: no accepted expression
assigns to a word that reads as a number or a boolean, or that is a keyword.
-/

namespace SyntaxChart

namespace Word

/-- A primitive operator passes every check that an assignment makes of its target. -/
theorem isTarget_of_mem_primitives {word : String} (h : word ∈ primitives) : IsTarget word := by
  have hall : ∀ word ∈ primitives, word ∉ reserved ∧ word ≠ "." ∧ word.toList.head? ≠ some '#' := by
    decide
  obtain ⟨hr, hd, hh⟩ := hall word h
  exact ⟨hr, (ofNumeral?_of_mem_primitives word h).1, hd, hh⟩

theorem isTarget_iff {word : String} : IsTarget word ↔ IsVariable word ∨ word ∈ primitives := by
  constructor
  · intro h
    by_cases hp : word ∈ primitives
    · exact .inr hp
    · exact .inl ⟨h, hp⟩
  · rintro (h | h)
    · exact h.toIsTarget
    · exact isTarget_of_mem_primitives h

end Word

namespace Expr

/-- An assignment to the name stands in the expression. -/
inductive Assigns (name : String) : Expr → Prop
  | target (value : Expr) : Assigns name (.assignment name value)
  | value (target : String) {value : Expr} :
      Assigns name value → Assigns name (.assignment target value)
  | lambda (params : List String) {body : List Expr} {e : Expr} :
      e ∈ body → Assigns name e → Assigns name (.lambda params body)
  | test {test : Expr} (consequent alternative : Expr) :
      Assigns name test → Assigns name (.conditional test consequent alternative)
  | consequent (test : Expr) {consequent : Expr} (alternative : Expr) :
      Assigns name consequent → Assigns name (.conditional test consequent alternative)
  | alternative (test consequent : Expr) {alternative : Expr} :
      Assigns name alternative → Assigns name (.conditional test consequent alternative)
  | operator {operator : Expr} (operands : List Expr) :
      Assigns name operator → Assigns name (.application operator operands)
  | operand (operator : Expr) {operands : List Expr} {e : Expr} :
      e ∈ operands → Assigns name e → Assigns name (.application operator operands)
  | bound (kind : LetKind) {bindings : List (Binding Expr)} (body : List Expr) {b : Binding Expr} :
      b ∈ bindings → Assigns name b.value → Assigns name (.letIn kind bindings body)
  | letBody (kind : LetKind) (bindings : List (Binding Expr)) {body : List Expr} {e : Expr} :
      e ∈ body → Assigns name e → Assigns name (.letIn kind bindings body)

theorem Assigns.isTarget {name : String} {e : Expr} (h : e.Assigns name) (he : e.WellFormed) :
    Word.IsTarget name := by
  induction h with
  | target value =>
    cases he with
    | assignment ht => exact ht
  | value target _ ih =>
    cases he with
    | assignment _ hv => exact ih hv
  | lambda params hmem _ ih =>
    cases he with
    | lambda _ _ hbody => exact ih (hbody _ hmem)
  | test consequent alternative _ ih =>
    cases he with
    | conditional ht => exact ih ht
  | consequent test alternative _ ih =>
    cases he with
    | conditional _ hc => exact ih hc
  | alternative test consequent _ ih =>
    cases he with
    | conditional _ _ ha => exact ih ha
  | operator operands _ ih =>
    cases he with
    | application ho => exact ih ho
  | operand operator hmem _ ih =>
    cases he with
    | application _ hos => exact ih (hos _ hmem)
  | bound kind body hmem _ ih =>
    cases he with
    | letIn _ _ hvalues => exact ih (hvalues _ hmem)
  | letBody kind bindings hmem _ ih =>
    cases he with
    | letIn _ _ _ _ hbody => exact ih (hbody _ hmem)

/-! ## What each form asks of a word -/

theorem parse_atom_eq_reference_iff {word : String} :
    parse (.atom word) = .ok (.reference word) ↔ Word.IsVariable word := by
  rw [parse_eq_ok_iff]
  constructor
  · rintro ⟨⟩
    assumption
  · exact .reference

theorem parse_atom_eq_primitive_iff {word : String} :
    parse (.atom word) = .ok (.primitive word) ↔ word ∈ Word.primitives := by
  rw [parse_eq_ok_iff]
  constructor
  · rintro ⟨⟩
    assumption
  · exact .primitive

variable {word : String} {x : SExpr} {value : Expr}

theorem exists_parse_definition_iff (h : parse x = .ok value) :
    (∃ f, Form.parse (.list [.atom "define", .atom word, x]) = .ok f) ↔ Word.IsVariable word := by
  have hk : keyword? (.atom "define") = some .define := keyword?_spelling .define
  simp only [Form.parse, if_pos hk, h, bind_eq_ok, pure_eq_ok, boundName_eq_ok_iff]
  grind

theorem exists_parse_lambda_iff (h : parse x = .ok value) :
    (∃ e, parse (.list [.atom "lambda", .list [.atom word], x]) = .ok e)
      ↔ Word.IsVariable word := by
  have hk : keyword? (.atom "lambda") = some .lambda := keyword?_spelling .lambda
  simp only [parse.eq_def (.list _), hk, h, parseAll, boundNames, bind_eq_ok, pure_eq_ok,
    boundName_eq_ok_iff]
  grind

theorem exists_parse_letIn_iff (h : parse x = .ok value) (kind : LetKind) :
    (∃ e, parse (.list [.atom kind.word, .list [.list [.atom word, x]], x]) = .ok e)
      ↔ Word.IsVariable word := by
  have hk : keyword? (.atom kind.word) = some (.letIn kind) := by cases kind <;> rfl
  simp only [parse.eq_def (.list _), hk, h, parseAll, parseBindings, bind_eq_ok, pure_eq_ok,
    boundName_eq_ok_iff]
  grind

theorem exists_parse_assignment_iff (h : parse x = .ok value) :
    (∃ e, parse (.list [.atom "set!", .atom word, x]) = .ok e) ↔ Word.IsTarget word := by
  have hk : keyword? (.atom "set!") = some .assign := keyword?_spelling .assign
  simp only [parse.eq_def (.list _), hk, h, bind_eq_ok, pure_eq_ok, targetName_eq_ok_iff]
  grind

/-- Words that read as references are those that can be defined, be a parameter or be bound by a
`let`. An assignment takes these and the words that read as primitive operators, and an accepted
expression has no assignment to any other word. -/
theorem parse_assignment_iff (h : parse x = .ok value) (word : String) (kind : LetKind) :
    [parse (.atom word) = .ok (.reference word),
      ∃ f, Form.parse (.list [.atom "define", .atom word, x]) = .ok f,
      ∃ e, parse (.list [.atom "lambda", .list [.atom word], x]) = .ok e,
      ∃ e, parse (.list [.atom kind.word, .list [.list [.atom word, x]], x]) = .ok e].TFAE
    ∧ ((∃ e, parse (.list [.atom "set!", .atom word, x]) = .ok e) ↔
      parse (.atom word) = .ok (.reference word) ∨ parse (.atom word) = .ok (.primitive word))
    ∧ ∀ name, value.Assigns name →
      parse (.atom name) = .ok (.reference name) ∨ parse (.atom name) = .ok (.primitive name) := by
  simp only [parse_atom_eq_reference_iff, parse_atom_eq_primitive_iff, exists_parse_definition_iff h,
    exists_parse_lambda_iff h, exists_parse_letIn_iff h, exists_parse_assignment_iff h,
    ← Word.isTarget_iff, true_and]
  refine ⟨?_, fun name hname => hname.isTarget (parse_eq_ok_iff.1 h).wellFormed⟩
  tfae_finish

/-- An assignment inside an assignment to `car`, which no `letrec` can bind. -/
theorem parse_assignment_iff_nested :
    (∃ e, parse (.list [.atom "set!", .atom "car",
      .list [.atom "set!", .atom "y", .atom "x"]]) = .ok e)
    ∧ (¬∃ e, parse (.list [.atom "letrec", .list [.list [.atom "car",
      .list [.atom "set!", .atom "y", .atom "x"]]],
      .list [.atom "set!", .atom "y", .atom "x"]]) = .ok e)
    ∧ (parse (.atom "y") = .ok (.reference "y") ∨ parse (.atom "y") = .ok (.primitive "y")) := by
  have hx : Word.IsVariable "x" := ⟨⟨by decide, by decide, by decide, by decide⟩, by decide⟩
  have hy : Word.IsTarget "y" := ⟨by decide, by decide, by decide, by decide⟩
  have h := parse_assignment_iff (Derives.assignment hy (.reference hx)).parse_eq "car" .recursive
  have hcar : parse (.atom "car") = .ok (.primitive "car") :=
    parse_atom_eq_primitive_iff.2 (by decide)
  refine ⟨h.2.1.2 (.inr hcar), fun hlet => ?_, h.2.2 "y" (.target _)⟩
  have := (h.1.out 3 0).1 hlet
  rw [hcar] at this
  cases this

/-- The operator `car` can be assigned to, though it reads as no reference and can neither be defined
nor bound. -/
theorem parse_assignment_ne_reference_car :
    parse (.atom "x") = .ok (.reference "x")
    ∧ (∃ e, parse (.list [.atom "set!", .atom "car", .atom "x"]) = .ok e)
    ∧ parse (.atom "car") ≠ .ok (.reference "car")
    ∧ (¬∃ f, Form.parse (.list [.atom "define", .atom "car", .atom "x"]) = .ok f)
    ∧ (¬∃ e, parse (.list [.atom "lambda", .list [.atom "car"], .atom "x"]) = .ok e)
    ∧ ¬∃ e, parse (.list [.atom "let", .list [.list [.atom "car", .atom "x"]], .atom "x"])
      = .ok e := by
  have hx : parse (.atom "x") = .ok (.reference "x") :=
    parse_atom_eq_reference_iff.2 ⟨⟨by decide, by decide, by decide, by decide⟩, by decide⟩
  have hcar : ¬Word.IsVariable "car" := fun h => h.notMem_primitives (by decide)
  have htarget : Word.IsTarget "car" := Word.isTarget_of_mem_primitives (by decide)
  exact ⟨hx, (exists_parse_assignment_iff hx).2 htarget, mt parse_atom_eq_reference_iff.1 hcar,
    mt (exists_parse_definition_iff hx).1 hcar, mt (exists_parse_lambda_iff hx).1 hcar,
    mt (exists_parse_letIn_iff hx .plain).1 hcar⟩

end Expr

end SyntaxChart
