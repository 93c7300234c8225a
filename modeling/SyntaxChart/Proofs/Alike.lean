import SyntaxChart.Proofs.Decoding
import SyntaxChart.Proofs.Unfolding

/-!
# Scripts with the same text

Two scripts are alike if they differ in numbers only, and these have the same text. The tree of a
script determines it up to this (`Script.alike_of_tree_eq`), the chart determines the tree, and the
text of the chart determines the chart where no text of the script has a line feed in it. So scripts
that are not alike never get the same text (`Script.tree_eq_of_text_eq`), whatever else their strings
and names hold.
-/

namespace SyntaxChart

inductive Datum.Alike : Datum → Datum → Prop
  | empty : Alike .empty .empty
  | symbol (name : String) : Alike (.symbol name) (.symbol name)
  | pair {first first' rest rest' : Datum} :
      Alike first first' → Alike rest rest' → Alike (.pair first rest) (.pair first' rest')
  | number {x y : Binary64} : x.text = y.text → Alike (.number x) (.number y)
  | boolean (b : Bool) : Alike (.boolean b) (.boolean b)
  | string (text : String) : Alike (.string text) (.string text)

/-- Expressions that differ in numbers only, where these have the same text. -/
inductive Expr.Alike : Expr → Expr → Prop
  | number {x y : Binary64} : x.text = y.text → Alike (.number x) (.number y)
  | boolean (b : Bool) : Alike (.boolean b) (.boolean b)
  | string (text : String) : Alike (.string text) (.string text)
  | primitive (name : String) : Alike (.primitive name) (.primitive name)
  | reference (name : String) : Alike (.reference name) (.reference name)
  | lambda (params : List String) {body body' : List Expr} :
      List.Forall₂ Alike body body' → Alike (.lambda params body) (.lambda params body')
  | conditional {test test' consequent consequent' alternative alternative' : Expr} :
      Alike test test' → Alike consequent consequent' → Alike alternative alternative' →
        Alike (.conditional test consequent alternative)
          (.conditional test' consequent' alternative')
  | application {operator operator' : Expr} {operands operands' : List Expr} :
      Alike operator operator' → List.Forall₂ Alike operands operands' →
        Alike (.application operator operands) (.application operator' operands')
  | letIn (kind : LetKind) {bindings bindings' : List (Binding Expr)} {body body' : List Expr} :
      bindings.map Binding.name = bindings'.map Binding.name →
        List.Forall₂ Alike (bindings.map Binding.value) (bindings'.map Binding.value) →
          List.Forall₂ Alike body body' →
            Alike (.letIn kind bindings body) (.letIn kind bindings' body')
  | quotation {datum datum' : Datum} :
      datum.Alike datum' → Alike (.quotation datum) (.quotation datum')
  | assignment (target : String) {value value' : Expr} :
      Alike value value' → Alike (.assignment target value) (.assignment target value')

inductive Form.Alike : Form → Form → Prop
  | definition (name : String) {value value' : Expr} :
      value.Alike value' → Alike (.definition name value) (.definition name value')
  | expression {e e' : Expr} : e.Alike e' → Alike (.expression e) (.expression e')

inductive Script.Alike : Script → Script → Prop
  | program {forms forms' : List Form} :
      List.Forall₂ Form.Alike forms forms' → Alike (.program forms) (.program forms')
  | form {f f' : Form} : f.Alike f' → Alike (.form f) (.form f')

/-! ## The tree determines the script -/

namespace Tree

theorem listing_inj {kind : String} {ts ts' : List Tree} :
    listing kind ts = listing kind ts' ↔ ts = ts' := by
  simp only [listing, node.injEq, true_and]
  exact List.map_inj_right fun t t' h => (Prod.mk.inj h).2

theorem showing_inj {kind text text' : String} :
    showing kind text = showing kind text' ↔ text = text' := by
  simp [showing]

theorem map_showing_inj {kind : String} {texts texts' : List String} :
    texts.map (showing kind) = texts'.map (showing kind) ↔ texts = texts' :=
  List.map_inj_right fun _ _ => showing_inj.1

end Tree

open SyntaxChart.Tree

theorem bool_text_inj {b b' : Bool} :
    ((if b then "#t" else "#f") = if b' then "#t" else "#f") ↔ b = b' := by
  cases b <;> cases b' <;> simp

namespace Datum

theorem alike_of_tree_eq : ∀ {d d' : Datum}, d.tree = d'.tree → d.Alike d'
  | empty, d', h => by
    cases d' <;> simp [tree, named, showing] at h
    exact .empty
  | symbol name, d', h => by
    cases d' <;> simp [tree, named, showing] at h
    exact h ▸ .symbol name
  | pair first rest, d', h => by
    cases d' <;> simp [tree, named, showing] at h
    exact .pair (alike_of_tree_eq h.1) (alike_of_tree_eq h.2)
  | number x, d', h => by
    cases d' <;> simp [tree, named, showing] at h
    exact .number h
  | boolean b, d', h => by
    cases d' <;> simp [tree, named, showing, bool_text_inj] at h
    exact h ▸ .boolean b
  | string text, d', h => by
    cases d' <;> simp [tree, named, showing] at h
    exact h ▸ .string text

end Datum

theorem LetKind.treeName_inj {kind kind' : LetKind} :
    kind.treeName = kind'.treeName ↔ kind = kind' := by
  cases kind <;> cases kind' <;> simp [treeName]

namespace Expr

mutual

theorem alike_of_tree_eq : ∀ {e e' : Expr}, e.tree = e'.tree → e.Alike e'
  | number x, e', h => by
    cases e' <;> simp [tree, named, showing] at h
    exact .number h
  | boolean b, e', h => by
    cases e' <;> simp [tree, named, showing, bool_text_inj] at h
    exact h ▸ .boolean b
  | string text, e', h => by
    cases e' <;> simp [tree, named, showing] at h
    exact h ▸ .string text
  | primitive name, e', h => by
    cases e' <;> simp [tree, named, showing] at h
    exact h ▸ .primitive name
  | reference name, e', h => by
    cases e' <;> simp [tree, named, showing] at h
    exact h ▸ .reference name
  | lambda params body, e', h => by
    cases e' <;> simp [tree, named, showing, listing_inj, map_showing_inj] at h
    exact h.1 ▸ .lambda params (alike_of_trees_eq h.2)
  | conditional test consequent alternative, e', h => by
    cases e' <;> simp [tree, named, showing] at h
    exact .conditional (alike_of_tree_eq h.1) (alike_of_tree_eq h.2.1) (alike_of_tree_eq h.2.2)
  | application operator operands, e', h => by
    cases e' <;> simp [tree, named, showing, listing_inj] at h
    exact .application (alike_of_tree_eq h.1) (alike_of_trees_eq h.2)
  | letIn kind bindings body, e', h => by
    cases e' <;> simp [tree, named, showing, listing_inj, LetKind.treeName_inj] at h
    obtain ⟨hnames, hvalues⟩ := alike_of_bindingTrees_eq h.2.1
    exact h.1 ▸ .letIn kind hnames hvalues (alike_of_trees_eq h.2.2)
  | quotation datum, e', h => by
    cases e' <;> simp [tree, named, showing] at h
    exact .quotation (Datum.alike_of_tree_eq h)
  | assignment target value, e', h => by
    cases e' <;> simp [tree, named, showing] at h
    exact h.1 ▸ .assignment target (alike_of_tree_eq h.2)

theorem alike_of_trees_eq : ∀ {es es' : List Expr}, trees es = trees es' →
    List.Forall₂ Alike es es'
  | [], [], _ => .nil
  | [], _ :: _, h | _ :: _, [], h => by simp [trees] at h
  | e :: es, e' :: es', h => by
    rw [trees, trees, List.cons.injEq] at h
    exact .cons (alike_of_tree_eq h.1) (alike_of_trees_eq h.2)

theorem alike_of_bindingTrees_eq : ∀ {bs bs' : List (Binding Expr)},
    bindingTrees bs = bindingTrees bs' → bs.map Binding.name = bs'.map Binding.name
      ∧ List.Forall₂ Alike (bs.map Binding.value) (bs'.map Binding.value)
  | [], [], _ => ⟨rfl, .nil⟩
  | [], _ :: _, h | _ :: _, [], h => by simp [bindingTrees] at h
  | ⟨name, value⟩ :: bs, ⟨name', value'⟩ :: bs', h => by
    simp only [bindingTrees, named, List.cons.injEq, node.injEq, Prod.mk.injEq, true_and,
      showing_inj, and_true] at h
    obtain ⟨⟨hname, hvalue⟩, hrest⟩ := h
    obtain ⟨hnames, hvalues⟩ := alike_of_bindingTrees_eq hrest
    exact ⟨by simp [hname, hnames], .cons (alike_of_tree_eq hvalue) hvalues⟩

end

end Expr

theorem Form.alike_of_tree_eq : ∀ {f f' : Form}, f.tree = f'.tree → f.Alike f'
  | definition name value, definition name' value', h => by
    simp [tree, named, showing_inj] at h
    exact h.1 ▸ .definition name (Expr.alike_of_tree_eq h.2)
  | expression _, expression _, h => .expression (Expr.alike_of_tree_eq h)
  | definition _ _, expression e, h | expression e, definition _ _, h => by
    cases e <;> simp [tree, Expr.tree, named, showing] at h

theorem Script.alike_of_tree_eq : ∀ {p q : Script}, p.tree = q.tree → p.Alike q
  | program forms, program forms', h => by
    simp only [tree, named, node.injEq, List.cons.injEq, Prod.mk.injEq, true_and, and_true,
      listing_inj] at h
    rw [← List.forall₂_eq_eq_eq, List.forall₂_map_left_iff, List.forall₂_map_right_iff] at h
    exact .program (h.imp fun _ _ => Form.alike_of_tree_eq)
  | form _, form _, h => .form (Form.alike_of_tree_eq h)
  | program _, form (.definition _ _), h | form (.definition _ _), program _, h => by
    simp [tree, Form.tree, named] at h
  | program _, form (.expression e), h | form (.expression e), program _, h => by
    cases e <;> simp [tree, Form.tree, Expr.tree, named, showing] at h

/-! ## Alike scripts have the same outline -/

theorem Datum.Alike.outline_eq {d d' : Datum} (h : d.Alike d') : d.outline = d'.outline := by
  induction h with
  | pair _ _ ih1 ih2 => rw [outline, outline, ih1, ih2]
  | number h => rw [outline, outline, h]
  | _ => rfl

namespace Expr

mutual

theorem Alike.outline_eq : ∀ {e e' : Expr}, e.Alike e' → e.outline = e'.outline
  | _, _, .number h => by rw [outline, outline, h]
  | _, _, .boolean _ | _, _, .string _ | _, _, .primitive _ | _, _, .reference _ => rfl
  | _, _, .lambda _ hb => by rw [outline, outline, outlines_eq hb]
  | _, _, .conditional ht hc ha => by
    rw [outline, outline, ht.outline_eq, hc.outline_eq, ha.outline_eq]
  | _, _, .application hf hes => by rw [outline, outline, hf.outline_eq, outlines_eq hes]
  | _, _, .letIn _ hnames hvalues hb => by
    rw [outline, outline, bindingOutlines_eq hnames hvalues, outlines_eq hb]
  | _, _, .quotation hd => by rw [outline, outline, hd.outline_eq]
  | _, _, .assignment _ hv => by rw [outline, outline, hv.outline_eq]

theorem outlines_eq : ∀ {es es' : List Expr}, List.Forall₂ Alike es es' →
    outlines es = outlines es'
  | _, _, .nil => rfl
  | _, _, .cons h hs => by rw [outlines, outlines, h.outline_eq, outlines_eq hs]

theorem bindingOutlines_eq : ∀ {bs bs' : List (Binding Expr)},
    bs.map Binding.name = bs'.map Binding.name →
    List.Forall₂ Alike (bs.map Binding.value) (bs'.map Binding.value) →
      bindingOutlines bs = bindingOutlines bs'
  | [], [], _, _ => rfl
  | [], _ :: _, h, _ | _ :: _, [], h, _ => by simp at h
  | ⟨name, value⟩ :: bs, ⟨name', value'⟩ :: bs', hn, .cons h hs => by
    rw [List.map_cons, List.map_cons, List.cons.injEq] at hn
    obtain ⟨rfl, hn⟩ := hn
    rw [bindingOutlines, bindingOutlines, h.outline_eq, bindingOutlines_eq hn hs]

end

end Expr

theorem Form.Alike.outline_eq {f f' : Form} (h : f.Alike f') : f.outline = f'.outline := by
  cases h with
  | definition name h => rw [outline, outline, h.outline_eq]
  | expression h => exact h.outline_eq

namespace Script

theorem map_outline_eq : ∀ {forms forms' : List Form}, List.Forall₂ Form.Alike forms forms' →
    forms.map Form.outline = forms'.map Form.outline
  | _, _, .nil => rfl
  | _, _, .cons h hs => by rw [List.map_cons, List.map_cons, h.outline_eq, map_outline_eq hs]

theorem Alike.outline_eq {p q : Script} (h : p.Alike q) : p.outline = q.outline := by
  cases h with
  | program h => rw [outline, outline, map_outline_eq h]
  | form h => exact h.outline_eq

/-! ## The text determines the script -/

theorem chart_eq_of_outline_eq {p q : Script} (h : p.outline = q.outline) (d : Direction) :
    p.chart d = q.chart d := by
  have hdrawing : p.drawing = q.drawing := by
    have := p.draw_outline_eq
    rw [h, q.draw_outline_eq] at this
    exact (Except.ok.inj this).symm
  rw [chart, chart, hdrawing, h]

theorem tree_eq_of_text_eq {p q : Script} {d e : Direction} (hp : ∀ t ∈ p.texts, OneLine t)
    (hq : ∀ t ∈ q.texts, OneLine t) (h : (p.chart d).text = (q.chart e).text) :
    d = e ∧ p.tree = q.tree := by
  obtain ⟨nodes, hdp⟩ := p.exists_draws
  obtain ⟨nodes', hdq⟩ := q.exists_draws
  obtain ⟨hd, hroot, hnodes, hedges⟩ := drawing_eq_of_text_eq hdp hdq hp hq h
  have hunfolds : (q.chart e).Unfolds q.rootNode.id p.tree := by
    rw [← hroot]
    refine (hdp.unfolds d).of_edges_eq (by rw [hdp.chart_edges, hdq.chart_edges, hedges]) ?_
    intro id n hn
    have hmem : n ∈ p.rootNode :: nodes := hdp.chart_nodes d ▸ List.mem_of_find?_eq_some hn
    have hid : n.id = id := by simpa using List.find?_some hn
    rw [hroot, (hnodes.cons q.rootNode).mem_iff] at hmem
    exact hid ▸ hdq.chart_node? e hmem
  exact ⟨hd, hunfolds.unique (hdq.unfolds e)⟩

/-- Where no string, name, symbol or operator of two scripts has a line feed in it, their charts
have the same text if and only if they have the same direction and the scripts are alike. -/
theorem text_eq_iff_alike {p q : Script} (hp : ∀ t ∈ p.texts, OneLine t)
    (hq : ∀ t ∈ q.texts, OneLine t) (d e : Direction) :
    (p.chart d).text = (q.chart e).text ↔ d = e ∧ p.Alike q := by
  refine ⟨fun h => ?_, ?_⟩
  · obtain ⟨hd, htree⟩ := tree_eq_of_text_eq hp hq h
    exact ⟨hd, alike_of_tree_eq htree⟩
  · rintro ⟨rfl, h⟩
    rw [chart_eq_of_outline_eq h.outline_eq]

/-- A name that holds what ends a label and begins a line is not read as either. -/
theorem text_eq_iff_alike_delimiters :
    let p := form (.expression (.reference "f)\"] -->|rands| Rands_1[:"))
    let q := form (.expression (.application (.reference "f") []))
    (∀ t ∈ p.texts, OneLine t) ∧ (∀ t ∈ q.texts, OneLine t)
      ∧ (p.chart .topDown).text ≠ (q.chart .topDown).text := by
  intro p q
  have hp : ∀ t ∈ p.texts, OneLine t := by
    simp [p, texts, Form.texts, Expr.texts, OneLine]
  have hq : ∀ t ∈ q.texts, OneLine t := by
    simp [q, texts, Form.texts, Expr.texts, Expr.listTexts, OneLine]
  refine ⟨hp, hq, fun h => ?_⟩
  obtain ⟨-, h⟩ := (text_eq_iff_alike hp hq _ _).1 h
  simp only [p, q] at h
  cases h with
  | form h => cases h with
    | expression h => cases h

end Script

end SyntaxChart
