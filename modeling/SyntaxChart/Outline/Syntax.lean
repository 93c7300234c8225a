import SyntaxChart.Binary64.Shortest
import SyntaxChart.Expr
import SyntaxChart.Outline

/-!
# The outline of a syntax tree

Which nodes and roles the chart of a datum, an expression, a form and a script has. A let and a
letrec differ in the category of their node only. Every outline built here is well grouped
(`Script.wellGrouped_outline`).
-/

namespace SyntaxChart

open Outline

namespace Datum

def outline : Datum → Outline
  | empty => named .emptyDatum []
  | symbol name =>
    named .symbolDatum [.leaf "val" .stringDatum (Category.stringDatum.labelWith name)]
  | pair first rest =>
    named .pairDatum [.one "val1" first.outline, .one "val2" rest.outline]
  | number x => showing .numberDatum x.text
  | boolean b => showing .booleanDatum (Word.ofBool b)
  | string text => showing .stringDatum text

end Datum

/-- The outline of a name where it is bound. -/
def declarationOutline (name : String) : Outline :=
  showing .declaration name

namespace LetKind

def category : LetKind → Category
  | plain => .letPlain
  | recursive => .letRecursive

end LetKind

namespace Expr

mutual

def outline : Expr → Outline
  | number x => showing .number x.text
  | boolean b => showing .boolean (Word.ofBool b)
  | string text => showing .string text
  | primitive name => showing .primitive name
  | reference name => showing .reference name
  | lambda params body =>
    named .procedure
      [.group "args" .params (params.map declarationOutline), .group "body" .body (outlines body)]
  | conditional test consequent alternative =>
    named .conditional
      [.one "test" test.outline, .one "then" consequent.outline, .one "alt" alternative.outline]
  | application operator operands =>
    named .application
      [.one "rator" operator.outline, .group "rands" .operands (outlines operands)]
  | letIn kind bindings body =>
    named kind.category
      [.group "bindings" .bindings (bindingOutlines bindings), .group "body" .body (outlines body)]
  | quotation datum => named .quotation [.one "val" datum.outline]
  | assignment target value =>
    named .assignment
      [.leaf "var" .reference (Category.reference.labelWith target), .one "val" value.outline]

def outlines : List Expr → List Outline
  | [] => []
  | e :: es => e.outline :: outlines es

def bindingOutlines : List (Binding Expr) → List Outline
  | [] => []
  | ⟨name, value⟩ :: bindings =>
    named .binding [.one "var" (declarationOutline name), .one "val" value.outline]
      :: bindingOutlines bindings

end

end Expr

def Form.outline : Form → Outline
  | definition name value =>
    named .definition [.one "var" (declarationOutline name), .one "val" value.outline]
  | expression e => e.outline

def Script.outline : Script → Outline
  | program forms => named .program [.group "exps" .forms (forms.map Form.outline)]
  | form f => f.outline

theorem Outline.wellGrouped_node_iff {c : Category} {label : String} {fields : List Field} :
    (Outline.node c label fields).WellGrouped ↔
      ∀ f ∈ fields, f.IsGrouped ∧ ∀ child ∈ f.children, child.WellGrouped := by
  constructor
  · rintro ⟨_, hf, hc⟩ f hm
    exact ⟨hf f hm, fun child hchild => hc child (List.mem_flatMap.2 ⟨f, hm, hchild⟩)⟩
  · intro h
    refine ⟨_, fun f hf => (h f hf).1, fun child hc => ?_⟩
    obtain ⟨f, hf, hc⟩ := List.mem_flatMap.1 hc
    exact (h f hf).2 child hc

theorem Datum.wellGrouped_outline (d : Datum) : d.outline.WellGrouped := by
  induction d <;>
    simp_all [outline, named, showing, wellGrouped_node_iff, Field.IsGrouped, Field.children]

theorem wellGrouped_declarationOutline (name : String) :
    (declarationOutline name).WellGrouped := by
  simp [declarationOutline, showing, wellGrouped_node_iff]

namespace Expr

mutual

theorem wellGrouped_outline (e : Expr) : e.outline.WellGrouped := by
  cases e with
  | lambda params body =>
    have := wellGrouped_outlines body
    simp_all [outline, named, wellGrouped_node_iff, Field.IsGrouped, Field.children,
      Category.isGroup, wellGrouped_declarationOutline]
  | conditional test consequent alternative =>
    have := wellGrouped_outline test
    have := wellGrouped_outline consequent
    have := wellGrouped_outline alternative
    simp_all [outline, named, wellGrouped_node_iff, Field.IsGrouped, Field.children]
  | application operator operands =>
    have := wellGrouped_outline operator
    have := wellGrouped_outlines operands
    simp_all [outline, named, wellGrouped_node_iff, Field.IsGrouped, Field.children,
      Category.isGroup]
  | letIn kind bindings body =>
    have := wellGrouped_bindingOutlines bindings
    have := wellGrouped_outlines body
    simp_all [outline, named, wellGrouped_node_iff, Field.IsGrouped, Field.children,
      Category.isGroup]
  | quotation datum =>
    have := datum.wellGrouped_outline
    simp_all [outline, named, wellGrouped_node_iff, Field.IsGrouped, Field.children]
  | assignment target value =>
    have := wellGrouped_outline value
    simp_all [outline, named, wellGrouped_node_iff, Field.IsGrouped, Field.children]
  | _ => simp [outline, showing, wellGrouped_node_iff]

theorem wellGrouped_outlines (es : List Expr) : ∀ o ∈ outlines es, o.WellGrouped := by
  cases es with
  | nil => simp [outlines]
  | cons e es =>
    have := wellGrouped_outline e
    have := wellGrouped_outlines es
    simp_all [outlines]

theorem wellGrouped_bindingOutlines (bindings : List (Binding Expr)) :
    ∀ o ∈ bindingOutlines bindings, o.WellGrouped := by
  match bindings with
  | [] => simp [bindingOutlines]
  | ⟨name, value⟩ :: bindings =>
    have := wellGrouped_outline value
    have := wellGrouped_bindingOutlines bindings
    simp_all [bindingOutlines, named, wellGrouped_node_iff, Field.IsGrouped, Field.children,
      wellGrouped_declarationOutline]

end

end Expr

theorem Form.wellGrouped_outline (f : Form) : f.outline.WellGrouped := by
  cases f with
  | definition name value =>
    simp [outline, named, wellGrouped_node_iff, Field.IsGrouped, Field.children,
      wellGrouped_declarationOutline, Expr.wellGrouped_outline]
  | expression e => exact e.wellGrouped_outline

theorem Script.wellGrouped_outline (s : Script) : s.outline.WellGrouped := by
  cases s with
  | program forms =>
    simp [outline, named, wellGrouped_node_iff, Field.IsGrouped, Field.children,
      Category.isGroup, Form.wellGrouped_outline]
  | form f => exact f.wellGrouped_outline

end SyntaxChart
