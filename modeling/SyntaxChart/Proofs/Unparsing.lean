import SyntaxChart.Proofs.Parsing

/-!
# Parsing undoes unparsing

Syntax is unparsed form by form, a number as any word that denotes it and a chain of pairs as the
list it spells (`Expr.Unparses`). What is unparsed parses as what it was if the syntax is well
formed: no name is taken for something else, no body is empty, and every number has a word. The
parser gives no other syntax, so what is asked for is no more than has to be.
-/

namespace SyntaxChart

/-- Some word denotes the number. -/
def Binary64.HasNumeral (x : Binary64) : Prop :=
  ∃ word, ofNumeral? word = some x

/-- No symbol is a word for a number or a boolean. -/
inductive Datum.WellFormed : Datum → Prop
  | empty : WellFormed .empty
  | symbol {name : String} :
      Binary64.ofNumeral? name = none → name ≠ "#t" → name ≠ "#f" → WellFormed (.symbol name)
  | pair {first rest : Datum} : WellFormed first → WellFormed rest → WellFormed (.pair first rest)
  | number {x : Binary64} : x.HasNumeral → WellFormed (.number x)
  | boolean (b : Bool) : WellFormed (.boolean b)
  | string (text : String) : WellFormed (.string text)

inductive Expr.WellFormed : Expr → Prop
  | number {x : Binary64} : x.HasNumeral → WellFormed (.number x)
  | boolean (b : Bool) : WellFormed (.boolean b)
  | string (text : String) : WellFormed (.string text)
  | primitive {name : String} : name ∈ Word.primitives → WellFormed (.primitive name)
  | reference {name : String} : Word.IsVariable name → WellFormed (.reference name)
  | lambda {params : List String} {body : List Expr} :
      (∀ name ∈ params, Word.IsVariable name) → body ≠ [] → (∀ e ∈ body, WellFormed e) →
        WellFormed (.lambda params body)
  | conditional {test consequent alternative : Expr} :
      WellFormed test → WellFormed consequent → WellFormed alternative →
        WellFormed (.conditional test consequent alternative)
  | application {operator : Expr} {operands : List Expr} :
      WellFormed operator → (∀ e ∈ operands, WellFormed e) →
        WellFormed (.application operator operands)
  | letIn (kind : LetKind) {bindings : List (Binding Expr)} {body : List Expr} :
      (∀ b ∈ bindings, Word.IsVariable b.name) → (∀ b ∈ bindings, WellFormed b.value) →
        body ≠ [] → (∀ e ∈ body, WellFormed e) → WellFormed (.letIn kind bindings body)
  | quotation {datum : Datum} : datum.WellFormed → WellFormed (.quotation datum)
  | assignment {target : String} {value : Expr} :
      Word.IsTarget target → WellFormed value → WellFormed (.assignment target value)

inductive Form.WellFormed : Form → Prop
  | definition {name : String} {value : Expr} :
      Word.IsVariable name → value.WellFormed → WellFormed (.definition name value)
  | expression {e : Expr} : e.WellFormed → WellFormed (.expression e)

/-- An item in front of what spells the rest of a chain. -/
def SExpr.chain (first : SExpr) : SExpr → SExpr
  | .list items => .list (first :: items)
  | .dotted items tail => .dotted (first :: items) tail
  | tail => .dotted [first] tail

/-- What a datum is written as behind a quote. -/
inductive Datum.Unparses : Datum → SExpr → Prop
  | empty : Unparses .empty (.list [])
  | symbol (name : String) : Unparses (.symbol name) (.atom name)
  | pair {first rest : Datum} {x y : SExpr} :
      Unparses first x → Unparses rest y → Unparses (.pair first rest) (.chain x y)
  | number {x : Binary64} {word : String} :
      Binary64.ofNumeral? word = some x → Unparses (.number x) (.atom word)
  | boolean (b : Bool) : Unparses (.boolean b) (.atom (if b then "#t" else "#f"))
  | string (text : String) : Unparses (.string text) (.string text)

mutual

/-- What an expression is written as: each form behind its keyword. -/
inductive Expr.Unparses : Expr → SExpr → Prop
  | number {x : Binary64} {word : String} :
      Binary64.ofNumeral? word = some x → Expr.Unparses (.number x) (.atom word)
  | boolean (b : Bool) : Expr.Unparses (.boolean b) (.atom (if b then "#t" else "#f"))
  | string (text : String) : Expr.Unparses (.string text) (.string text)
  | primitive (name : String) : Expr.Unparses (.primitive name) (.atom name)
  | reference (name : String) : Expr.Unparses (.reference name) (.atom name)
  | lambda (params : List String) {body : List Expr} {items : List SExpr} :
      List.Forall₂ Expr.Unparses body items →
        Expr.Unparses (.lambda params body)
          (.list (.atom "lambda" :: .list (params.map .atom) :: items))
  | conditional {test consequent alternative : Expr} {x y z : SExpr} :
      Expr.Unparses test x → Expr.Unparses consequent y → Expr.Unparses alternative z →
        Expr.Unparses (.conditional test consequent alternative) (.list [.atom "if", x, y, z])
  | application {operator : Expr} {operands : List Expr} {head : SExpr} {items : List SExpr} :
      Expr.Unparses operator head → List.Forall₂ Expr.Unparses operands items →
        Expr.Unparses (.application operator operands) (.list (head :: items))
  | letIn (kind : LetKind) {bindings : List (Binding Expr)} {body : List Expr}
      {items inner : List SExpr} :
      List.Forall₂ Binding.Unparses bindings items → List.Forall₂ Expr.Unparses body inner →
        Expr.Unparses (.letIn kind bindings body)
          (.list (.atom kind.word :: .list items :: inner))
  | quotation {datum : Datum} {x : SExpr} :
      datum.Unparses x → Expr.Unparses (.quotation datum) (.list [.atom "quote", x])
  | assignment (target : String) {value : Expr} {x : SExpr} :
      Expr.Unparses value x →
        Expr.Unparses (.assignment target value) (.list [.atom "set!", .atom target, x])

inductive Binding.Unparses : Binding Expr → SExpr → Prop
  | intro (name : String) {value : Expr} {x : SExpr} :
      Expr.Unparses value x → Binding.Unparses ⟨name, value⟩ (.list [.atom name, x])

end

inductive Form.Unparses : Form → SExpr → Prop
  | definition (name : String) {value : Expr} {x : SExpr} :
      value.Unparses x → Unparses (.definition name value) (.list [.atom "define", .atom name, x])
  | expression {e : Expr} {x : SExpr} : e.Unparses x → Unparses (.expression e) x

inductive Script.UnparsesProgram : List Form → SExpr → Prop
  | intro {forms : List Form} {items : List SExpr} :
      List.Forall₂ Form.Unparses forms items → UnparsesProgram forms (.list (.atom "L4" :: items))

/-! ## What is parsed is well formed -/

namespace Datum

theorem wellFormed_ofList {values : List Datum} {rest : Datum} (h : ∀ d ∈ values, d.WellFormed)
    (hrest : rest.WellFormed) : (ofList values rest).WellFormed := by
  induction values with
  | nil => exact hrest
  | cons d values ih =>
    simp only [List.mem_cons, forall_eq_or_imp] at h
    exact .pair h.1 (ih h.2)

mutual

theorem Derives.wellFormed : ∀ {x : SExpr} {d : Datum}, Derives x d → d.WellFormed
  | _, _, .number h => .number ⟨_, h⟩
  | _, _, .boolean b => .boolean b
  | _, _, .symbol hn ht hf => .symbol hn ht hf
  | _, _, .string text => .string text
  | _, _, .list h => wellFormed_ofList (wellFormed_of_derives h) .empty
  | _, _, .dotted h ht => wellFormed_ofList (wellFormed_of_derives h) ht.wellFormed

theorem wellFormed_of_derives : ∀ {items : List SExpr} {values : List Datum},
    List.Forall₂ Derives items values → ∀ d ∈ values, d.WellFormed
  | _, _, .nil => by simp
  | _, _, .cons h hs => by
    simpa using ⟨h.wellFormed, wellFormed_of_derives hs⟩

end

end Datum

namespace Expr

mutual

theorem Derives.wellFormed : ∀ {x : SExpr} {e : Expr}, Derives x e → e.WellFormed
  | _, _, .number h => .number ⟨_, h⟩
  | _, _, .boolean b => .boolean b
  | _, _, .string text => .string text
  | _, _, .primitive h => .primitive h
  | _, _, .reference h => .reference h
  | _, _, .lambda hparams h hne => .lambda hparams hne (wellFormed_of_derives h)
  | _, _, .conditional ht hc ha => .conditional ht.wellFormed hc.wellFormed ha.wellFormed
  | _, _, .letIn kind hb h hne =>
    .letIn kind (bindings_of_derives hb).1 (bindings_of_derives hb).2 hne (wellFormed_of_derives h)
  | _, _, .assignment ht hv => .assignment ht hv.wellFormed
  | _, _, .quotation h => .quotation h.wellFormed
  | _, _, .application h hs => .application h.wellFormed (wellFormed_of_derives hs)

theorem wellFormed_of_derives : ∀ {items : List SExpr} {es : List Expr},
    List.Forall₂ Derives items es → ∀ e ∈ es, e.WellFormed
  | _, _, .nil => by simp
  | _, _, .cons h hs => by
    simpa using ⟨h.wellFormed, wellFormed_of_derives hs⟩

theorem bindings_of_derives : ∀ {items : List SExpr} {bindings : List (Binding Expr)},
    List.Forall₂ Binding.Derives items bindings →
      (∀ b ∈ bindings, Word.IsVariable b.name) ∧ ∀ b ∈ bindings, b.value.WellFormed
  | _, _, .nil => by simp
  | _, _, .cons (.intro hname h) hs => by
    have hbindings := bindings_of_derives hs
    simpa using ⟨⟨hname, hbindings.1⟩, h.wellFormed, hbindings.2⟩

end

end Expr

theorem Form.Derives.wellFormed {x : SExpr} {f : Form} (h : Form.Derives x f) : f.WellFormed := by
  cases h with
  | definition hname hv => exact .definition hname hv.wellFormed
  | expression h => exact .expression h.wellFormed

theorem Form.wellFormed_of_derives {items : List SExpr} {forms : List Form}
    (h : List.Forall₂ Form.Derives items forms) : ∀ f ∈ forms, f.WellFormed := by
  have hforms : List.Forall₂ (fun f x => f.WellFormed ∧ Form.Derives x f) forms items :=
    h.flip.imp fun _ _ hf => ⟨hf.wellFormed, hf⟩
  exact ((List.forall₂_and_left _ _).1 hforms).1

/-! ## What is well formed parses back -/

namespace Datum

theorem ofSExpr_chain (x y : SExpr) : ofSExpr (x.chain y) = pair (ofSExpr x) (ofSExpr y) := by
  cases y <;> simp [SExpr.chain, ofSExpr, ofItems]

theorem Unparses.ofSExpr_eq {d : Datum} {x : SExpr} (h : d.Unparses x) (hd : d.WellFormed) :
    ofSExpr x = d := by
  induction h with
  | empty => rw [ofSExpr, ofItems]
  | symbol name =>
    cases hd with
    | symbol hn ht hf => exact (Derives.symbol hn ht hf).ofSExpr_eq
  | pair _ _ ih ih' =>
    cases hd with
    | pair hfirst hrest => rw [ofSExpr_chain, ih hfirst, ih' hrest]
  | number h => exact (Derives.number h).ofSExpr_eq
  | boolean b => exact (Derives.boolean b).ofSExpr_eq
  | string text => rw [ofSExpr]

theorem WellFormed.exists_unparses {d : Datum} (h : d.WellFormed) : ∃ x, d.Unparses x := by
  induction h with
  | empty => exact ⟨_, .empty⟩
  | symbol => exact ⟨_, .symbol _⟩
  | pair _ _ ih ih' =>
    obtain ⟨x, hx⟩ := ih
    obtain ⟨y, hy⟩ := ih'
    exact ⟨_, .pair hx hy⟩
  | number h =>
    obtain ⟨word, hw⟩ := h
    exact ⟨_, .number hw⟩
  | boolean b => exact ⟨_, .boolean b⟩
  | string text => exact ⟨_, .string text⟩

end Datum

namespace Expr

mutual

theorem Unparses.derives : ∀ {e : Expr} {x : SExpr}, e.Unparses x → e.WellFormed → Derives x e
  | _, _, .number h, _ => .number h
  | _, _, .boolean b, _ => .boolean b
  | _, _, .string text, _ => .string text
  | _, _, .primitive _, .primitive h => .primitive h
  | _, _, .reference _, .reference h => .reference h
  | _, _, .lambda _ hbody, .lambda hparams hne h =>
    .lambda hparams (derives_of_unparses hbody h) hne
  | _, _, .conditional ht hc ha, .conditional wt wc wa =>
    .conditional (ht.derives wt) (hc.derives wc) (ha.derives wa)
  | _, _, .application hf hes, .application wf wes =>
    .application (hf.derives wf) (derives_of_unparses hes wes)
  | _, _, .letIn kind hb hbody, .letIn _ hnames hvalues hne h =>
    .letIn kind (bindings_of_unparses hb hnames hvalues) (derives_of_unparses hbody h) hne
  | _, _, .quotation h, .quotation hd => .quotation (Datum.ofSExpr_eq_iff.1 (h.ofSExpr_eq hd))
  | _, _, .assignment _ hv, .assignment ht wv => .assignment ht (hv.derives wv)

theorem derives_of_unparses : ∀ {es : List Expr} {items : List SExpr},
    List.Forall₂ Unparses es items → (∀ e ∈ es, e.WellFormed) → List.Forall₂ Derives items es
  | _, _, .nil, _ => .nil
  | _, _, .cons h hs, hes => by
    simp only [List.mem_cons, forall_eq_or_imp] at hes
    exact .cons (h.derives hes.1) (derives_of_unparses hs hes.2)

theorem bindings_of_unparses : ∀ {bindings : List (Binding Expr)} {items : List SExpr},
    List.Forall₂ Binding.Unparses bindings items → (∀ b ∈ bindings, Word.IsVariable b.name) →
      (∀ b ∈ bindings, b.value.WellFormed) → List.Forall₂ Binding.Derives items bindings
  | _, _, .nil, _, _ => .nil
  | _, _, .cons (.intro _ h) hs, hnames, hvalues => by
    simp only [List.mem_cons, forall_eq_or_imp] at hnames hvalues
    exact .cons (.intro hnames.1 (h.derives hvalues.1)) (bindings_of_unparses hs hnames.2 hvalues.2)

end

end Expr

/-- Where each of a list is related to something, the list is. -/
theorem exists_forall₂ {α β : Type} {R : α → β → Prop} : ∀ {as : List α}, (∀ a ∈ as, ∃ b, R a b) →
    ∃ bs, List.Forall₂ R as bs
  | [], _ => ⟨[], .nil⟩
  | a :: as, h => by
    simp only [List.mem_cons, forall_eq_or_imp] at h
    obtain ⟨b, hb⟩ := h.1
    obtain ⟨bs, hbs⟩ := exists_forall₂ h.2
    exact ⟨b :: bs, .cons hb hbs⟩

theorem Expr.WellFormed.exists_unparses {e : Expr} (h : e.WellFormed) : ∃ x, e.Unparses x := by
  induction h with
  | number h =>
    obtain ⟨word, hw⟩ := h
    exact ⟨_, .number hw⟩
  | boolean b => exact ⟨_, .boolean b⟩
  | string text => exact ⟨_, .string text⟩
  | primitive => exact ⟨_, .primitive _⟩
  | reference => exact ⟨_, .reference _⟩
  | lambda _ _ _ ih =>
    obtain ⟨items, h⟩ := exists_forall₂ ih
    exact ⟨_, .lambda _ h⟩
  | conditional _ _ _ ih ih' ih'' =>
    obtain ⟨x, hx⟩ := ih
    obtain ⟨y, hy⟩ := ih'
    obtain ⟨z, hz⟩ := ih''
    exact ⟨_, .conditional hx hy hz⟩
  | application _ _ ih ihs =>
    obtain ⟨x, hx⟩ := ih
    obtain ⟨items, h⟩ := exists_forall₂ ihs
    exact ⟨_, .application hx h⟩
  | letIn kind _ _ _ _ ihb ih =>
    have hbinding : ∀ b ∈ _, ∃ x, Binding.Unparses b x := fun b hb => by
      obtain ⟨x, hx⟩ := ihb b hb
      exact ⟨_, .intro b.name hx⟩
    obtain ⟨items, hb⟩ := exists_forall₂ hbinding
    obtain ⟨inner, h⟩ := exists_forall₂ ih
    exact ⟨_, .letIn kind hb h⟩
  | quotation h =>
    obtain ⟨x, hx⟩ := h.exists_unparses
    exact ⟨_, .quotation hx⟩
  | assignment _ _ ih =>
    obtain ⟨x, hx⟩ := ih
    exact ⟨_, .assignment _ hx⟩

namespace Form

theorem Unparses.derives {f : Form} {x : SExpr} (h : f.Unparses x) (hf : f.WellFormed) :
    Derives x f := by
  cases h with
  | definition name h =>
    cases hf with
    | definition hname hv => exact .definition hname (h.derives hv)
  | expression h =>
    cases hf with
    | expression he => exact .expression (h.derives he)

theorem derives_of_unparses {forms : List Form} {items : List SExpr}
    (h : List.Forall₂ Unparses forms items) (hforms : ∀ f ∈ forms, f.WellFormed) :
    List.Forall₂ Derives items forms := by
  have hboth := (List.forall₂_and_left _ _).2 ⟨hforms, h⟩
  exact (hboth.imp fun _ _ hf => hf.2.derives hf.1).flip

theorem WellFormed.exists_unparses {f : Form} (h : f.WellFormed) : ∃ x, f.Unparses x := by
  cases h with
  | definition _ hv =>
    obtain ⟨x, hx⟩ := hv.exists_unparses
    exact ⟨_, .definition _ hx⟩
  | expression he =>
    obtain ⟨x, hx⟩ := he.exists_unparses
    exact ⟨x, .expression hx⟩

end Form

/-- What parses as a form is well formed, and a well-formed form can be unparsed and then parses as
itself, however its numbers are written. The same holds of programs, which are the lists of
well-formed forms that are not empty. -/
theorem parse_unparses :
    (∀ x f, Form.parse x = .ok f → f.WellFormed)
      ∧ (∀ f : Form, f.WellFormed → (∃ x, f.Unparses x)
        ∧ ∀ x, f.Unparses x → Form.parse x = .ok f)
      ∧ (∀ x forms, Script.parseProgram x = .ok forms →
        forms ≠ [] ∧ ∀ f ∈ forms, f.WellFormed)
      ∧ ∀ forms, forms ≠ [] → (∀ f ∈ forms, f.WellFormed) →
        (∃ x, Script.UnparsesProgram forms x)
          ∧ ∀ x, Script.UnparsesProgram forms x → Script.parseProgram x = .ok forms := by
  refine ⟨fun x f h => (Form.derives_of_parse h).wellFormed,
    fun f hf => ⟨hf.exists_unparses, fun x hx => (hx.derives hf).parse_eq⟩,
    fun x forms h => ?_, fun forms hne hforms => ⟨?_, fun x hx => ?_⟩⟩
  · obtain ⟨hforms, hne⟩ := Script.parseProgram_eq_ok_iff.1 h
    exact ⟨hne, Form.wellFormed_of_derives hforms⟩
  · obtain ⟨items, h⟩ := exists_forall₂ fun f hf => (hforms f hf).exists_unparses
    exact ⟨_, .intro h⟩
  · obtain ⟨h⟩ := hx
    exact Script.parseProgram_eq_ok_iff.2 (.intro (Form.derives_of_unparses h hforms) hne)

/-- One is written as `1` and as `+10e-1`, and a chain that does not end in the empty datum with a
dot. The operator `car` can be assigned to, though not bound. -/
theorem parse_unparses_define :
    let one : Binary64 := ⟨false, 0x3FF0000000000000, by decide⟩
    let chain := Datum.pair (.number one) (.symbol "a")
    let body := [Expr.assignment "car" (.quotation chain), .number one]
    Form.parse (.list [.atom "define", .atom "f", .list [.atom "lambda", .list [.atom "x"],
      .list [.atom "set!", .atom "car", .list [.atom "quote", .dotted [.atom "1"] (.atom "a")]],
      .atom "+10e-1"]]) = .ok (.definition "f" (.lambda ["x"] body)) := by
  intro one chain body
  have hone : Binary64.ofNumeral? "1" = some one := by decide +kernel
  have hten : Binary64.ofNumeral? "+10e-1" = some one := by decide +kernel
  have hf : Word.IsVariable "f" := ⟨⟨by decide, by decide, by decide, by decide⟩, by decide⟩
  have hx : Word.IsVariable "x" := ⟨⟨by decide, by decide, by decide, by decide⟩, by decide⟩
  have hcar : Word.IsTarget "car" := ⟨by decide, by decide, by decide, by decide⟩
  have hchain : chain.WellFormed :=
    .pair (.number ⟨_, hone⟩) (.symbol (by decide) (by decide) (by decide))
  have hbody : ∀ e ∈ body, e.WellFormed := by
    simp only [body, List.mem_cons, List.not_mem_nil, or_false, forall_eq_or_imp, forall_eq]
    exact ⟨.assignment hcar (.quotation hchain), .number ⟨_, hone⟩⟩
  have hform : (Form.definition "f" (.lambda ["x"] body)).WellFormed :=
    .definition hf (.lambda (by simpa using hx) (by simp [body]) hbody)
  have hdotted : chain.Unparses (.dotted [.atom "1"] (.atom "a")) :=
    .pair (.number hone) (.symbol "a")
  exact (parse_unparses.2.1 _ hform).2 _ (.definition _ (.lambda _
    (.cons (.assignment _ (.quotation hdotted)) (.cons (.number hten) .nil))))

end SyntaxChart
