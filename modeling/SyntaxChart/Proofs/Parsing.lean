import SyntaxChart.Expr.Parser
import SyntaxChart.Proofs.Derivation
import Mathlib.Data.Set.Subsingleton
import Mathlib.Tactic.SplitIfs

/-!
# The parser accepts exactly its grammar

An s-expression parses as an expression, a form or a program when and only when it derives one
(`Expr.parse_eq_ok_iff`, `Form.parse_eq_ok_iff`, `Script.parseProgram_eq_ok_iff`). The parser goes
by the keyword in front and by what a word is first; the grammar has no order. No reading is lost,
because what is tried first excludes what is tried later: a numeral, a boolean or a primitive
operator is no name, and a keyword is no operator of an application
(`Expr.Derives.keyword?_eq_none`).
-/

namespace SyntaxChart

section

variable {ε α β : Type}

theorem bind_eq_ok {x : Except ε α} {f : α → Except ε β} {b : β} :
    x >>= f = .ok b ↔ ∃ a, x = .ok a ∧ f a = .ok b := by
  cases x <;> simp [bind, Except.bind]

theorem pure_eq_ok {a b : α} : (pure a : Except ε α) = .ok b ↔ a = b := by
  simp [pure, Except.pure]

end

namespace Word

theorem isReserved_iff {word : String} : isReserved word = true ↔ word ∈ reserved := by
  rw [isReserved, Option.isSome_iff_exists]
  simp only [Keyword.ofWord?_eq_some_iff]
  constructor
  · rintro ⟨k, rfl⟩
    rcases k with _ | _ | _ | _ | _ | _ | _ | _ <;> decide
  · simp only [reserved, List.mem_cons, List.not_mem_nil, or_false]
    rintro (rfl | rfl | rfl | rfl | rfl | rfl | rfl | rfl)
    exacts [⟨.program, rfl⟩, ⟨.define, rfl⟩, ⟨.lambda, rfl⟩, ⟨.conditional, rfl⟩,
      ⟨.letIn .plain, rfl⟩, ⟨.letIn .recursive, rfl⟩, ⟨.assign, rfl⟩, ⟨.quote, rfl⟩]

theorem checkName_eq_ok_iff {word : String} {u : Unit} :
    checkName word = .ok u ↔ IsTarget word := by
  rw [checkName]
  split
  · rename_i h
    simp only [reduceCtorEq, false_iff]
    exact fun ht => ht.notMem_reserved (isReserved_iff.1 h)
  · rename_i hr
    split
    · rename_i h
      simp only [reduceCtorEq, false_iff]
      rintro ⟨-, hn, hd, hh⟩
      simp [hn, hd, hh] at h
    · rename_i h
      simp only [not_or, Option.not_isSome_iff_eq_none] at h
      simp only [true_iff]
      exact ⟨fun hm => hr (isReserved_iff.2 hm), h.2.2, h.2.1, h.1⟩

theorem isPrimitive_iff {word : String} : isPrimitive word = true ↔ word ∈ primitives := by
  simp [isPrimitive]

theorem checkBound_eq_ok_iff {word : String} {u : Unit} :
    checkBound word = .ok u ↔ IsVariable word := by
  rw [checkBound]
  split
  · rename_i h
    simp only [reduceCtorEq, false_iff]
    exact fun hv => hv.notMem_primitives (isPrimitive_iff.1 h)
  · rename_i h
    rw [checkName_eq_ok_iff]
    exact ⟨fun ht => ⟨ht, fun hm => h (isPrimitive_iff.2 hm)⟩, fun hv => hv.toIsTarget⟩

theorem bool?_eq_some_iff {word : String} {b : Bool} :
    bool? word = some b ↔ word = if b then "#t" else "#f" := by
  rw [bool?]
  split_ifs <;> simp_all

theorem ofNumeral?_bool (b : Bool) : Binary64.ofNumeral? (if b then "#t" else "#f") = none := by
  cases b <;> decide

theorem ofNumeral?_of_mem_primitives :
    ∀ word ∈ primitives, Binary64.ofNumeral? word = none ∧ bool? word = none := by
  decide

/-- A boolean begins with a hash sign, so it is no target. -/
theorem IsTarget.bool?_eq_none {word : String} (h : IsTarget word) : bool? word = none := by
  rw [Option.eq_none_iff_forall_ne_some]
  intro b hb
  rw [bool?_eq_some_iff] at hb
  subst hb
  exact h.head_ne (by cases b <;> decide)

end Word

namespace Datum

theorem derives_ofWord (word : String) : Derives (.atom word) (ofWord word) := by
  rw [ofWord]
  split
  · rename_i x hx
    exact .number hx
  · rename_i hx
    split
    · rename_i b hb
      rw [Word.bool?_eq_some_iff.1 hb]
      exact .boolean b
    · rename_i hb
      have hne (b : Bool) : word ≠ if b then "#t" else "#f" := fun h => by
        rw [Word.bool?_eq_some_iff.2 h] at hb
        cases hb
      exact .symbol hx (hne true) (hne false)

mutual

theorem derives_ofSExpr : ∀ x : SExpr, Derives x (ofSExpr x)
  | .atom word => by
    rw [ofSExpr]
    exact derives_ofWord word
  | .string text => by
    rw [ofSExpr]
    exact .string text
  | .list items => by
    rw [ofSExpr, ofItems_eq]
    exact .list (derives_map_ofSExpr items)
  | .dotted items tail => by
    rw [ofSExpr, ofItems_eq]
    exact .dotted (derives_map_ofSExpr items) (derives_ofSExpr tail)

theorem derives_map_ofSExpr : ∀ items : List SExpr,
    List.Forall₂ Derives items (items.map ofSExpr)
  | [] => .nil
  | x :: items => .cons (derives_ofSExpr x) (derives_map_ofSExpr items)

end

mutual

theorem Derives.ofSExpr_eq : ∀ {x : SExpr} {d : Datum}, Derives x d → ofSExpr x = d
  | _, _, .number h => by simp only [ofSExpr, ofWord, h]
  | _, _, .boolean b => by
    simp only [ofSExpr, ofWord, Word.ofNumeral?_bool, Word.bool?_eq_some_iff.2 rfl]
  | _, _, .symbol hn ht hf => by simp [ofSExpr, ofWord, hn, Word.bool?, ht, hf]
  | _, _, .string _ => by rw [ofSExpr]
  | _, _, .list h => by rw [ofSExpr, ofItems_eq, map_ofSExpr_eq h]
  | _, _, .dotted h ht => by rw [ofSExpr, ofItems_eq, map_ofSExpr_eq h, ht.ofSExpr_eq]

theorem map_ofSExpr_eq : ∀ {items : List SExpr} {values : List Datum},
    List.Forall₂ Derives items values → items.map ofSExpr = values
  | _, _, .nil => rfl
  | _, _, .cons h hs => by rw [List.map_cons, h.ofSExpr_eq, map_ofSExpr_eq hs]

end

theorem ofSExpr_eq_iff {x : SExpr} {d : Datum} : ofSExpr x = d ↔ Derives x d :=
  ⟨fun h => h ▸ derives_ofSExpr x, Derives.ofSExpr_eq⟩

end Datum

namespace Expr

theorem keyword?_eq_some_iff {head : SExpr} {k : Keyword} :
    keyword? head = some k ↔ head = .atom k.spelling := by
  cases head <;> simp [keyword?, SExpr.word?, Keyword.ofWord?_eq_some_iff]

theorem boundName_eq_ok_iff {x : SExpr} {name : String} :
    boundName x = .ok name ↔ x = .atom name ∧ Word.IsVariable name := by
  cases x with
  | atom word =>
    simp only [boundName, bind_eq_ok, pure_eq_ok, Word.checkBound_eq_ok_iff, exists_const,
      SExpr.atom.injEq]
    rw [and_comm]
    exact and_congr_right fun h => by rw [h]
  | _ => simp [boundName]

theorem targetName_eq_ok_iff {x : SExpr} {name : String} :
    targetName x = .ok name ↔ x = .atom name ∧ Word.IsTarget name := by
  cases x with
  | atom word =>
    simp only [targetName, bind_eq_ok, pure_eq_ok, Word.checkName_eq_ok_iff, exists_const,
      SExpr.atom.injEq]
    rw [and_comm]
    exact and_congr_right fun h => by rw [h]
  | _ => simp [targetName]

theorem boundNames_eq_ok_iff : ∀ {items : List SExpr} {names : List String},
    boundNames items = .ok names ↔ items = names.map .atom ∧ ∀ name ∈ names, Word.IsVariable name
  | [], names => by
    simp only [boundNames, Except.ok.injEq]
    constructor
    · rintro rfl
      simp
    · rintro ⟨h, -⟩
      simpa using h
  | item :: items, names => by
    simp only [boundNames, bind_eq_ok, pure_eq_ok, boundName_eq_ok_iff, boundNames_eq_ok_iff]
    constructor
    · rintro ⟨name, ⟨rfl, hname⟩, names, ⟨rfl, hnames⟩, rfl⟩
      simpa using ⟨hname, hnames⟩
    · rintro ⟨h, hnames⟩
      obtain _ | ⟨name, names⟩ := names
      · cases h
      · simp only [List.map_cons, List.cons.injEq] at h
        simp only [List.mem_cons, forall_eq_or_imp] at hnames
        exact ⟨name, ⟨h.1, hnames.1⟩, names, ⟨h.2, hnames.2⟩, rfl⟩

theorem derives_of_ofWord {word : String} {e : Expr} (h : ofWord word = .ok e) :
    Derives (.atom word) e := by
  rw [ofWord] at h
  split at h
  · rename_i x hx
    cases h
    exact .number hx
  · split at h
    · rename_i b hb
      cases h
      rw [Word.bool?_eq_some_iff.1 hb]
      exact .boolean b
    · split at h
      · rename_i hp
        cases h
        exact .primitive (Word.isPrimitive_iff.1 hp)
      · rename_i hp
        simp only [bind_eq_ok, pure_eq_ok, Word.checkName_eq_ok_iff, exists_const] at h
        obtain ⟨ht, rfl⟩ := h
        exact .reference ⟨ht, fun hm => hp (Word.isPrimitive_iff.2 hm)⟩

theorem ofWord_reference {word : String} (h : Word.IsVariable word) :
    ofWord word = .ok (reference word) := by
  have hp : ¬Word.isPrimitive word = true := fun hp =>
    h.notMem_primitives (Word.isPrimitive_iff.1 hp)
  have hn : Word.checkName word = .ok () := Word.checkName_eq_ok_iff.2 h.toIsTarget
  simp only [ofWord, h.not_numeral, h.bool?_eq_none, if_neg hp, hn]
  rfl

/-- A keyword is no expression. -/
theorem ofWord_spelling (k : Keyword) :
    ofWord k.spelling = .error (.reservedName k.spelling) := by
  rcases k with _ | _ | _ | _ | _ | _ | _ | _ <;> rfl

mutual

theorem derives_of_parse : ∀ {x : SExpr} {e : Expr}, parse x = .ok e → Derives x e
  | .atom word, e, h => derives_of_ofWord (by rwa [parse] at h)
  | .string text, e, h => by
    rw [parse] at h
    cases h
    exact .string text
  | .dotted items tail, e, h => by simp [parse] at h
  | .list [], e, h => by simp [parse] at h
  | .list (head :: operands), e, h => by
    rw [parse.eq_def] at h
    rcases hk : keyword? head with _ | k
    -- without a keyword the list can only be an application
    · simp only [hk, bind_eq_ok, pure_eq_ok] at h
      obtain ⟨operator, hf, es, hes, rfl⟩ := h
      exact .application (derives_of_parse hf) (derives_of_parseAll hes)
    obtain rfl := keyword?_eq_some_iff.1 hk
    cases k with
    | quote =>
      simp only [hk] at h
      split at h <;> cases h
      exact .quotation (Datum.derives_ofSExpr _)
    | lambda =>
      simp only [hk] at h
      split at h
      · simp only [bind_eq_ok, pure_eq_ok, boundNames_eq_ok_iff] at h
        obtain ⟨params, ⟨rfl, hparams⟩, e, he, es, hes, rfl⟩ := h
        exact .lambda hparams (.cons (derives_of_parse he) (derives_of_parseAll hes)) (by simp)
      · cases h
    | conditional =>
      simp only [hk] at h
      split at h
      · simp only [bind_eq_ok, pure_eq_ok] at h
        obtain ⟨test, ht, consequent, hc, alternative, ha, rfl⟩ := h
        exact .conditional (derives_of_parse ht) (derives_of_parse hc) (derives_of_parse ha)
      · cases h
    | letIn kind =>
      simp only [hk] at h
      split at h
      · simp only [bind_eq_ok, pure_eq_ok] at h
        obtain ⟨bindings, hb, e, he, es, hes, rfl⟩ := h
        have hbindings := derives_of_parseBindings hb
        have hbody := List.Forall₂.cons (derives_of_parse he) (derives_of_parseAll hes)
        cases kind with
        | plain => exact .letIn .plain hbindings hbody (by simp)
        | recursive => exact .letIn .recursive hbindings hbody (by simp)
      · cases h
    | assign =>
      simp only [hk] at h
      split at h
      · simp only [bind_eq_ok, pure_eq_ok, targetName_eq_ok_iff] at h
        obtain ⟨target, ⟨rfl, ht⟩, value, hv, rfl⟩ := h
        exact .assignment ht (derives_of_parse hv)
      · cases h
    | define => simp only [hk, reduceCtorEq] at h
    | program => simp only [hk, reduceCtorEq] at h
termination_by x => sizeOf x

theorem derives_of_parseAll : ∀ {items : List SExpr} {es : List Expr},
    parseAll items = .ok es → List.Forall₂ Derives items es
  | [], es, h => by
    rw [parseAll] at h
    cases h
    exact .nil
  | x :: items, es, h => by
    simp only [parseAll, bind_eq_ok, pure_eq_ok] at h
    obtain ⟨e, he, es, hes, rfl⟩ := h
    exact .cons (derives_of_parse he) (derives_of_parseAll hes)
termination_by items => sizeOf items

theorem derives_of_parseBindings : ∀ {items : List SExpr} {bindings : List (Binding Expr)},
    parseBindings items = .ok bindings → List.Forall₂ Binding.Derives items bindings
  | [], bindings, h => by
    rw [parseBindings] at h
    cases h
    exact .nil
  | x :: items, bindings, h => by
    rw [parseBindings.eq_def] at h
    split at h <;> rename_i heq <;> cases heq
    · simp only [bind_eq_ok, pure_eq_ok, boundName_eq_ok_iff] at h
      obtain ⟨name, ⟨rfl, hname⟩, value, hv, bindings, hb, rfl⟩ := h
      exact .cons (.intro hname (derives_of_parse hv)) (derives_of_parseBindings hb)
    · cases h
termination_by items => sizeOf items

end

/-- What a word derives is what the parser takes the word for. -/
theorem Derives.ofWord_eq {x : SExpr} {e : Expr} (h : Derives x e) {word : String}
    (hx : x = .atom word) : ofWord word = .ok e := by
  cases h with
  | number h =>
    cases hx
    simp only [ofWord, h]
  | boolean b =>
    cases hx
    simp only [ofWord, Word.ofNumeral?_bool, Word.bool?_eq_some_iff.2 rfl]
  | primitive h =>
    cases hx
    obtain ⟨hn, hb⟩ := Word.ofNumeral?_of_mem_primitives _ h
    simp only [ofWord, hn, hb, if_pos (Word.isPrimitive_iff.2 h)]
  | reference h =>
    cases hx
    exact ofWord_reference h
  | _ => cases hx

/-- A keyword derives no expression, so it is no operator. -/
theorem Derives.keyword?_eq_none {x : SExpr} {e : Expr} (h : Derives x e) : keyword? x = none := by
  rw [Option.eq_none_iff_forall_ne_some]
  intro k hk
  have := h.ofWord_eq (keyword?_eq_some_iff.1 hk)
  rw [ofWord_spelling] at this
  cases this

theorem keyword?_spelling (k : Keyword) : keyword? (.atom k.spelling) = some k :=
  keyword?_eq_some_iff.2 rfl

mutual

theorem Derives.parse_eq : ∀ {x : SExpr} {e : Expr}, Derives x e → parse x = .ok e
  | _, _, .number h => by
    rw [parse]
    exact (Derives.number h).ofWord_eq rfl
  | _, _, .boolean b => by
    rw [parse]
    exact (Derives.boolean b).ofWord_eq rfl
  | _, _, .string text => by rw [parse]
  | _, _, .primitive h => by
    rw [parse]
    exact (Derives.primitive h).ofWord_eq rfl
  | _, _, .reference h => by
    rw [parse]
    exact (Derives.reference h).ofWord_eq rfl
  | _, _, .lambda _ .nil hne => absurd rfl hne
  | _, _, .lambda hparams (.cons h hs) _ => by
    have hk : keyword? (.atom "lambda") = some .lambda := keyword?_spelling .lambda
    have hp := boundNames_eq_ok_iff.2 ⟨rfl, hparams⟩
    rw [parse.eq_def]
    simp only [hk, hp, h.parse_eq, parseAll_eq hs]
    rfl
  | _, _, .conditional ht hc ha => by
    have hk : keyword? (.atom "if") = some .conditional := keyword?_spelling .conditional
    rw [parse.eq_def]
    simp only [hk, ht.parse_eq, hc.parse_eq, ha.parse_eq]
    rfl
  | _, _, .letIn _ _ .nil hne => absurd rfl hne
  | _, _, .letIn kind hb (.cons h hs) _ => by
    have hk : keyword? (.atom kind.word) = some (.letIn kind) := by cases kind <;> rfl
    rw [parse.eq_def]
    simp only [hk, h.parse_eq, parseAll_eq hs, parseBindings_eq hb]
    rfl
  | _, _, .assignment ht hv => by
    have hk : keyword? (.atom "set!") = some .assign := keyword?_spelling .assign
    rw [parse.eq_def]
    simp only [hk, targetName_eq_ok_iff.2 ⟨rfl, ht⟩, hv.parse_eq]
    rfl
  | _, _, .quotation h => by
    have hk : keyword? (.atom "quote") = some .quote := keyword?_spelling .quote
    rw [parse.eq_def]
    simp only [hk, h.ofSExpr_eq]
  | _, _, .application h hs => by
    -- the operator derives an expression, so there is no keyword in front
    rw [parse.eq_def]
    simp only [h.keyword?_eq_none, h.parse_eq, parseAll_eq hs]
    rfl

theorem parseAll_eq : ∀ {items : List SExpr} {es : List Expr}, List.Forall₂ Derives items es →
    parseAll items = .ok es
  | _, _, .nil => by rw [parseAll]
  | _, _, .cons h hs => by
    simp only [parseAll, h.parse_eq, parseAll_eq hs]
    rfl

theorem parseBindings_eq : ∀ {items : List SExpr} {bindings : List (Binding Expr)},
    List.Forall₂ Binding.Derives items bindings → parseBindings items = .ok bindings
  | _, _, .nil => by rw [parseBindings]
  | _, _, .cons (.intro hname h) hs => by
    simp only [parseBindings, boundName_eq_ok_iff.2 ⟨rfl, hname⟩, h.parse_eq, parseBindings_eq hs]
    rfl

end

theorem parse_eq_ok_iff {x : SExpr} {e : Expr} : parse x = .ok e ↔ Derives x e :=
  ⟨derives_of_parse, Derives.parse_eq⟩

end Expr

namespace Form

theorem map_expression_eq_ok_iff {x : Except Fault Expr} {f : Form} :
    expression <$> x = .ok f ↔ ∃ e, x = .ok e ∧ f = expression e := by
  cases x <;> simp [Functor.map, Except.map, eq_comm]

theorem derives_of_parse {x : SExpr} {f : Form} (h : parse x = .ok f) : Derives x f := by
  have hexpression {y : SExpr} (h : expression <$> Expr.parse y = .ok f) : Derives y f := by
    obtain ⟨e, he, rfl⟩ := map_expression_eq_ok_iff.1 h
    exact .expression (Expr.derives_of_parse he)
  rw [parse.eq_def] at h
  split at h
  · split_ifs at h with hk
    · obtain rfl := Expr.keyword?_eq_some_iff.1 hk
      split at h
      · simp only [bind_eq_ok, pure_eq_ok, Expr.boundName_eq_ok_iff] at h
        obtain ⟨name, ⟨rfl, hname⟩, value, hv, rfl⟩ := h
        exact .definition hname (Expr.derives_of_parse hv)
      · cases h
    · exact hexpression h
  · exact hexpression h

/-- A definition is no expression, so what derives an expression is parsed as one. -/
theorem parse_of_derives_expr {x : SExpr} {e : Expr} (h : Expr.Derives x e) :
    parse x = .ok (expression e) := by
  have he : expression <$> Expr.parse x = .ok (expression e) :=
    map_expression_eq_ok_iff.2 ⟨e, h.parse_eq, rfl⟩
  rw [parse.eq_def]
  split
  · rename_i head operands
    split_ifs with hk
    · obtain rfl := Expr.keyword?_eq_some_iff.1 hk
      have := h.parse_eq
      simp only [Expr.parse.eq_def, hk, reduceCtorEq] at this
    · exact he
  · exact he

theorem Derives.parse_eq {x : SExpr} {f : Form} (h : Derives x f) : parse x = .ok f := by
  cases h with
  | @definition name x value hname hv =>
    have hk : Expr.keyword? (.atom "define") = some .define := Expr.keyword?_spelling .define
    rw [parse, if_pos hk]
    simp only [Expr.boundName_eq_ok_iff.2 ⟨rfl, hname⟩, hv.parse_eq]
    rfl
  | expression h => exact parse_of_derives_expr h

theorem parse_eq_ok_iff {x : SExpr} {f : Form} : parse x = .ok f ↔ Derives x f :=
  ⟨derives_of_parse, Derives.parse_eq⟩

theorem parseAll_eq_ok_iff : ∀ {items : List SExpr} {forms : List Form},
    parseAll items = .ok forms ↔ List.Forall₂ Derives items forms
  | [], forms => by
    rw [parseAll, Except.ok.injEq, eq_comm, List.forall₂_nil_left_iff]
  | x :: items, forms => by
    simp only [parseAll, bind_eq_ok, pure_eq_ok, parse_eq_ok_iff, parseAll_eq_ok_iff]
    constructor
    · rintro ⟨f, hf, forms, hforms, rfl⟩
      exact .cons hf hforms
    · intro h
      cases h with
      | cons hf hforms => exact ⟨_, hf, _, hforms, rfl⟩

end Form

namespace Script

theorem parseProgram_eq_ok_iff {x : SExpr} {forms : List Form} :
    parseProgram x = .ok forms ↔ DerivesProgram x forms := by
  constructor
  · intro h
    rw [parseProgram.eq_def] at h
    split at h
    · split_ifs at h with hk
      obtain rfl := Expr.keyword?_eq_some_iff.1 hk
      split at h
      · cases h
      · rename_i hne
        have hforms := Form.parseAll_eq_ok_iff.1 h
        refine .intro hforms ?_
        rintro rfl
        exact hne (List.forall₂_nil_right_iff.1 hforms)
    · cases h
  · rintro ⟨hforms, hne⟩
    have hk : Expr.keyword? (.atom "L4") = some .program := Expr.keyword?_spelling .program
    rw [parseProgram.eq_def]
    simp only [if_pos hk]
    cases hforms with
    | nil => exact absurd rfl hne
    | cons hf hforms => exact Form.parseAll_eq_ok_iff.2 (.cons hf hforms)

end Script

/-- The parser accepts exactly what derives an expression, a form or a program, and gives what it
derives. So nothing derives two things of one kind, and a dotted list derives none. -/
theorem parse_eq_ok_iff_derives :
    (∀ x e, Expr.parse x = .ok e ↔ Expr.Derives x e)
      ∧ (∀ x f, Form.parse x = .ok f ↔ Form.Derives x f)
      ∧ (∀ x forms, Script.parseProgram x = .ok forms ↔ Script.DerivesProgram x forms)
      ∧ (∀ x, {e | Expr.Derives x e}.Subsingleton ∧ {f | Form.Derives x f}.Subsingleton
        ∧ {forms | Script.DerivesProgram x forms}.Subsingleton)
      ∧ ∀ items tail, (¬∃ e, Expr.Derives (.dotted items tail) e)
        ∧ (¬∃ f, Form.Derives (.dotted items tail) f)
        ∧ ¬∃ forms, Script.DerivesProgram (.dotted items tail) forms := by
  refine ⟨fun _ _ => Expr.parse_eq_ok_iff, fun _ _ => Form.parse_eq_ok_iff,
    fun _ _ => Script.parseProgram_eq_ok_iff, fun x => ⟨?_, ?_, ?_⟩, fun items tail => ⟨?_, ?_, ?_⟩⟩
  · intro e he e' he'
    exact Except.ok.inj (he.parse_eq.symm.trans he'.parse_eq)
  · intro f hf f' hf'
    exact Except.ok.inj (hf.parse_eq.symm.trans hf'.parse_eq)
  · intro forms h forms' h'
    have := (Script.parseProgram_eq_ok_iff.2 h).symm.trans (Script.parseProgram_eq_ok_iff.2 h')
    exact Except.ok.inj this
  · rintro ⟨e, ⟨⟩⟩
  · rintro ⟨f, ⟨⟩ | ⟨⟨⟩⟩⟩
  · rintro ⟨forms, ⟨⟩⟩

end SyntaxChart
