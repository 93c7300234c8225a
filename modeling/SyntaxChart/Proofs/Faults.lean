import SyntaxChart.Proofs.Parsing

/-!
# All faults of an s-expression

The parser stops at the first fault. What it stops at can be told from all the faults there are,
collected without ever stopping (`Expr.faults`, `Form.faults`, `Script.faults`): a form that is out
of shape has this one fault, and any other form has those of its parts, from left to right. The
parser succeeds exactly where there are none, and otherwise reports the first
(`parse_reports_first_fault`).
-/

namespace SyntaxChart

namespace Word

/-- What keeps a word from being a name. -/
def nameFaults (word : String) : List Fault :=
  (if word ∈ reserved then [.reservedName word] else [])
    ++ if word.toList.head? = some '#' ∨ word = "." ∨ (Binary64.ofNumeral? word).isSome then
        [.invalidName word]
      else []

/-- What keeps a word from being bound. -/
def boundFaults (word : String) : List Fault :=
  (if word ∈ primitives then [.primitiveBound word] else []) ++ nameFaults word

/-- What keeps a word from being an expression. -/
def exprFaults (word : String) : List Fault :=
  if (Binary64.ofNumeral? word).isSome ∨ word = "#t" ∨ word = "#f" ∨ word ∈ primitives then []
  else nameFaults word

end Word

namespace Expr

def boundFaults : SExpr → List Fault
  | .atom word => Word.boundFaults word
  | _ => [.nameExpected]

def targetFaults : SExpr → List Fault
  | .atom word => Word.nameFaults word
  | _ => [.assignTarget]

mutual

/-- All that is wrong with an s-expression as an expression. -/
def faults : SExpr → List Fault
  | .atom word => Word.exprFaults word
  | .string _ => []
  | .dotted _ _ => [.dottedExpr]
  | .list [] => [.emptyApplication]
  | .list [.atom "quote", _] => []
  | .list (.atom "quote" :: _) => [.quoteArity]
  | .list (.atom "lambda" :: .list params :: first :: body) =>
    params.flatMap boundFaults ++ (faults first ++ faultsEach body)
  | .list (.atom "lambda" :: _) => [.lambdaShape]
  | .list [.atom "if", test, consequent, alternative] =>
    faults test ++ (faults consequent ++ faults alternative)
  | .list (.atom "if" :: operands) => [.conditionalArity operands.length]
  | .list (.atom "let" :: .list bindings :: first :: body)
  | .list (.atom "letrec" :: .list bindings :: first :: body) =>
    bindingFaults bindings ++ (faults first ++ faultsEach body)
  | .list (.atom "let" :: _) | .list (.atom "letrec" :: _) => [.letShape]
  | .list [.atom "set!", target, value] => targetFaults target ++ faults value
  | .list (.atom "set!" :: operands) => [.assignArity operands.length]
  | .list (.atom "define" :: _) => [.nestedDefine]
  | .list (.atom "L4" :: _) => [.nestedProgram]
  | .list (head :: operands) => faults head ++ faultsEach operands

def faultsEach : List SExpr → List Fault
  | [] => []
  | x :: items => faults x ++ faultsEach items

/-- All that is wrong with s-expressions as the bindings of a `let`. -/
def bindingFaults : List SExpr → List Fault
  | [] => []
  | .list [name, value] :: items => boundFaults name ++ (faults value ++ bindingFaults items)
  | _ :: items => .bindingShape :: bindingFaults items

end

end Expr

/-- All that is wrong with an s-expression as a form. -/
def Form.faults : SExpr → List Fault
  | .list [.atom "define", name, value] => Expr.boundFaults name ++ Expr.faults value
  | .list (.atom "define" :: operands) => [.defineArity operands.length]
  | x => Expr.faults x

/-- All that is wrong with an s-expression as a program. -/
def Script.faults : SExpr → List Fault
  | .list [.atom "L4"] => [.programEmpty]
  | .list (.atom "L4" :: items) => items.flatMap Form.faults
  | _ => [.programShape]

/-! ## Stopping at the first fault -/

/-- A success where there are no faults, and otherwise the first of them. -/
inductive StopsAtFirst {α : Type} : List Fault → Except Fault α → Prop
  | ok (a : α) : StopsAtFirst [] (.ok a)
  | error (fault : Fault) (rest : List Fault) : StopsAtFirst (fault :: rest) (.error fault)

namespace StopsAtFirst

variable {α β : Type} {faults more : List Fault} {x : Except Fault α}

/-- One part behind the other: the faults of the second count when the first has none. -/
theorem bind (h : StopsAtFirst faults x) {f : α → Except Fault β}
    (hf : ∀ a, StopsAtFirst more (f a)) : StopsAtFirst (faults ++ more) (x >>= f) := by
  cases h with
  | ok a => exact hf a
  | error fault rest => exact .error fault (rest ++ more)

theorem bind_pure (h : StopsAtFirst faults x) (f : α → β) :
    StopsAtFirst faults (x >>= fun a => pure (f a)) := by
  have hpure (a : α) : StopsAtFirst [] (pure (f a) : Except Fault β) := .ok (f a)
  have := h.bind hpure
  rwa [List.append_nil] at this

theorem map (h : StopsAtFirst faults x) (f : α → β) : StopsAtFirst faults (f <$> x) := by
  cases h with
  | ok a => exact .ok (f a)
  | error fault rest => exact .error fault rest

end StopsAtFirst

namespace Word

theorem stopsAtFirst_checkName (word : String) :
    StopsAtFirst (nameFaults word) (checkName word) := by
  rw [nameFaults, checkName]
  simp only [← isReserved_iff]
  split_ifs
  · exact .error _ _
  · exact .error _ _
  · exact .error _ _
  · exact .ok ()

theorem stopsAtFirst_checkBound (word : String) :
    StopsAtFirst (boundFaults word) (checkBound word) := by
  rw [boundFaults, checkBound]
  simp only [← isPrimitive_iff]
  split_ifs
  · exact .error _ _
  · exact stopsAtFirst_checkName word

end Word

namespace Expr

theorem stopsAtFirst_ofWord (word : String) :
    StopsAtFirst (Word.exprFaults word) (ofWord word) := by
  rw [Word.exprFaults, ofWord]
  rcases hn : Binary64.ofNumeral? word with _ | n
  · rcases hb : Word.bool? word with _ | b
    · have hne (b : Bool) : word ≠ if b then "#t" else "#f" := fun h => by
        rw [Word.bool?_eq_some_iff.2 h] at hb
        cases hb
      have ht : word ≠ "#t" := hne true
      have hf : word ≠ "#f" := hne false
      simp only [ht, hf, ← Word.isPrimitive_iff, Option.isSome_none, Bool.false_eq_true, false_or]
      split_ifs
      · exact .ok _
      · exact (Word.stopsAtFirst_checkName word).bind_pure _
    · have hword : word = "#t" ∨ word = "#f" := by
        have := Word.bool?_eq_some_iff.1 hb
        cases b
        · exact .inr this
        · exact .inl this
      rw [if_pos (.inr (or_assoc.1 (.inl hword)))]
      exact .ok _
  · rw [if_pos (.inl rfl)]
    exact .ok _

theorem stopsAtFirst_boundName (x : SExpr) : StopsAtFirst (boundFaults x) (boundName x) := by
  cases x with
  | atom word => exact (Word.stopsAtFirst_checkBound word).bind_pure fun _ => word
  | _ => exact .error _ _

theorem stopsAtFirst_targetName (x : SExpr) : StopsAtFirst (targetFaults x) (targetName x) := by
  cases x with
  | atom word => exact (Word.stopsAtFirst_checkName word).bind_pure fun _ => word
  | _ => exact .error _ _

theorem stopsAtFirst_boundNames (items : List SExpr) :
    StopsAtFirst (items.flatMap boundFaults) (boundNames items) := by
  induction items with
  | nil => exact .ok []
  | cons x items ih => exact (stopsAtFirst_boundName x).bind fun _ => ih.bind_pure _

theorem faults_application {head : SExpr} (h : keyword? head = none) (operands : List SExpr) :
    faults (.list (head :: operands)) = faults head ++ faultsEach operands := by
  have hne (k : Keyword) : head ≠ .atom k.spelling := fun he => by
    rw [keyword?_eq_some_iff.2 he] at h
    cases h
  rw [faults]
  · exact fun _ he _ => hne .quote he
  · exact hne .quote
  · exact fun _ _ _ he _ => hne .lambda he
  · exact hne .lambda
  · exact fun _ _ _ he _ => hne .conditional he
  · exact hne .conditional
  · exact fun _ _ _ he _ => hne (.letIn .plain) he
  · exact fun _ _ _ he _ => hne (.letIn .recursive) he
  · exact hne (.letIn .plain)
  · exact hne (.letIn .recursive)
  · exact fun _ _ he _ => hne .assign he
  · exact hne .assign
  · exact hne .define
  · exact hne .program

theorem faults_letIn (kind : LetKind) (bindings : List SExpr) (first : SExpr)
    (body : List SExpr) :
    faults (.list (.atom (Keyword.letIn kind).spelling :: .list bindings :: first :: body))
      = bindingFaults bindings ++ (faults first ++ faultsEach body) := by
  cases kind <;> rw [Keyword.spelling, faults]

theorem faults_letIn_of_ne (kind : LetKind) {operands : List SExpr}
    (hne : ∀ bindings first body, operands ≠ .list bindings :: first :: body) :
    faults (.list (.atom (Keyword.letIn kind).spelling :: operands)) = [.letShape] := by
  cases kind <;> rw [Keyword.spelling, faults] <;> exact hne

mutual

theorem stopsAtFirst_parse : ∀ x : SExpr, StopsAtFirst (faults x) (parse x)
  | .atom word => by
    rw [faults, parse]
    exact stopsAtFirst_ofWord word
  | .string text => by
    rw [faults, parse]
    exact .ok _
  | .dotted items tail => by
    rw [faults, parse]
    exact .error _ _
  | .list [] => by
    rw [faults, parse]
    exact .error _ _
  | .list (head :: operands) => by
    rcases hk : keyword? head with _ | k
    -- without a keyword there is no shape to be out of
    · rw [faults_application hk, parse.eq_def]
      simp only [hk]
      exact (stopsAtFirst_parse head).bind fun _ => (stopsAtFirst_parseAll operands).bind_pure _
    obtain rfl := keyword?_eq_some_iff.1 hk
    rw [parse.eq_def]
    simp only [hk]
    cases k with
    | quote =>
      simp only [Keyword.spelling]
      split
      · rw [faults]
        exact .ok _
      · rw [faults]
        · exact .error _ _
        · assumption
    | lambda =>
      simp only [Keyword.spelling]
      split
      · rw [faults]
        exact (stopsAtFirst_boundNames _).bind fun _ => (stopsAtFirst_parse _).bind fun _ =>
          (stopsAtFirst_parseAll _).bind_pure _
      · rw [faults]
        · exact .error _ _
        · assumption
    | conditional =>
      simp only [Keyword.spelling]
      split
      · rw [faults]
        exact (stopsAtFirst_parse _).bind fun _ => (stopsAtFirst_parse _).bind fun _ =>
          (stopsAtFirst_parse _).bind_pure _
      · rw [faults]
        · exact .error _ _
        · assumption
    | letIn kind =>
      dsimp only
      split
      · rw [faults_letIn]
        exact (stopsAtFirst_parseBindings _).bind fun _ => (stopsAtFirst_parse _).bind fun _ =>
          (stopsAtFirst_parseAll _).bind_pure _
      · rw [faults_letIn_of_ne]
        · exact .error _ _
        · assumption
    | assign =>
      simp only [Keyword.spelling]
      split
      · rw [faults]
        exact (stopsAtFirst_targetName _).bind fun _ => (stopsAtFirst_parse _).bind_pure _
      · rw [faults]
        · exact .error _ _
        · assumption
    | define =>
      simp only [Keyword.spelling]
      rw [faults]
      exact .error _ _
    | program =>
      simp only [Keyword.spelling]
      rw [faults]
      exact .error _ _

theorem stopsAtFirst_parseAll : ∀ items : List SExpr,
    StopsAtFirst (faultsEach items) (parseAll items)
  | [] => by
    rw [faultsEach, parseAll]
    exact .ok []
  | x :: items => by
    rw [faultsEach, parseAll]
    exact (stopsAtFirst_parse x).bind fun _ => (stopsAtFirst_parseAll items).bind_pure _

theorem stopsAtFirst_parseBindings : ∀ items : List SExpr,
    StopsAtFirst (bindingFaults items) (parseBindings items)
  | [] => by
    rw [bindingFaults, parseBindings]
    exact .ok []
  | x :: items => by
    rw [parseBindings.eq_def]
    split
    · rename_i heq
      cases heq
    · rename_i heq
      cases heq
      rw [bindingFaults]
      exact (stopsAtFirst_boundName _).bind fun _ => (stopsAtFirst_parse _).bind fun _ =>
        (stopsAtFirst_parseBindings _).bind_pure _
    · rename_i hne heq
      cases heq
      rw [bindingFaults]
      · exact .error _ _
      · exact hne

end

end Expr

namespace Form

theorem faults_of_ne {x : SExpr} (h : ∀ operands, x ≠ .list (.atom "define" :: operands)) :
    faults x = Expr.faults x := by
  rw [faults]
  · exact fun _ _ => h _
  · exact h

theorem stopsAtFirst_parse (x : SExpr) : StopsAtFirst (faults x) (parse x) := by
  rw [parse.eq_def]
  split
  · rename_i head operands
    split_ifs with hk
    · obtain rfl := Expr.keyword?_eq_some_iff.1 hk
      simp only [Keyword.spelling]
      split
      · rw [faults]
        exact (Expr.stopsAtFirst_boundName _).bind fun _ => (Expr.stopsAtFirst_parse _).bind_pure _
      · rw [faults]
        · exact .error _ _
        · assumption
    · rw [faults_of_ne]
      · exact (Expr.stopsAtFirst_parse _).map _
      · rintro _ ⟨⟩
        exact hk (Expr.keyword?_spelling .define)
  · rename_i hne
    rw [faults_of_ne fun operands => hne _ operands]
    exact (Expr.stopsAtFirst_parse _).map _

theorem stopsAtFirst_parseAll (items : List SExpr) :
    StopsAtFirst (items.flatMap faults) (parseAll items) := by
  induction items with
  | nil => exact .ok []
  | cons x items ih => exact (stopsAtFirst_parse x).bind fun _ => ih.bind_pure _

end Form

namespace Script

theorem faults_of_ne {x : SExpr} (h : ∀ items, x ≠ .list (.atom "L4" :: items)) :
    faults x = [.programShape] := by
  rw [faults]
  · exact h []
  · exact h

theorem stopsAtFirst_parseProgram (x : SExpr) : StopsAtFirst (faults x) (parseProgram x) := by
  rw [parseProgram.eq_def]
  split
  · rename_i head items
    split_ifs with hk
    · obtain rfl := Expr.keyword?_eq_some_iff.1 hk
      simp only [Keyword.spelling]
      split
      · exact .error _ _
      · rw [faults]
        · exact Form.stopsAtFirst_parseAll items
        · assumption
    · rw [faults_of_ne]
      · exact .error _ _
      · rintro _ ⟨⟩
        exact hk (Expr.keyword?_spelling .program)
  · rename_i hne
    rw [faults_of_ne fun items => hne _ items]
    exact .error _ _

end Script

/-- A result there is exactly where there are no faults, and an error that is the first of them. -/
structure ReportsFirst {α : Type} (faults : List Fault) (x : Except Fault α) : Prop where
  ok_iff : (∃ a, x = .ok a) ↔ faults = []
  error_iff (fault : Fault) : x = .error fault ↔ faults.head? = some fault
  message_iff (message : String) :
    (∃ fault, x = .error fault ∧ fault.message = message)
      ↔ (faults.map Fault.message).head? = some message

theorem StopsAtFirst.reportsFirst {α : Type} {faults : List Fault} {x : Except Fault α}
    (h : StopsAtFirst faults x) : ReportsFirst faults x := by
  have herror (fault : Fault) : x = .error fault ↔ faults.head? = some fault := by
    cases h <;> simp
  refine ⟨?_, herror, fun message => ?_⟩
  · cases h <;> simp
  · simp only [herror, List.head?_map, Option.map_eq_some_iff]

/-- Whatever s-expression is parsed, as an expression, as a form or as a program: parsing succeeds
exactly where it has no faults at all, and otherwise reports the first of them, in its words. -/
theorem parse_reports_first_fault (x : SExpr) :
    ReportsFirst (Expr.faults x) (Expr.parse x)
      ∧ ReportsFirst (Form.faults x) (Form.parse x)
      ∧ ReportsFirst (Script.faults x) (Script.parseProgram x) :=
  ⟨(Expr.stopsAtFirst_parse x).reportsFirst, (Form.stopsAtFirst_parse x).reportsFirst,
    (Script.stopsAtFirst_parseProgram x).reportsFirst⟩

/-- A nested program and an empty list behind a name, and the second of two bindings is none. -/
example : Expr.faults (.list [.atom "let",
      .list [.list [.atom "car", .list [.atom "L4"]], .atom "y"], .list []])
    = [.primitiveBound "car", .nestedProgram, .bindingShape, .emptyApplication] := by
  decide

end SyntaxChart

