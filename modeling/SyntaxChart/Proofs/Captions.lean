import SyntaxChart.Proofs.Masking

/-!
# Captions

A node's caption is the number, boolean, text or name that it shows of the source. Which nodes have
one depends on their category only, and the captions of a script can be told without its chart, in
the order of the nodes (`Script.captions`). Nothing else in a chart depends on them: scripts that
are equal once all of it is erased have charts with the same identifiers and the same edges, and
with the same labels on the nodes without a caption (`Script.chart_eq_up_to_captions_of_erased_eq`).
-/

namespace SyntaxChart

/-- Whether the nodes of a category show a part of the source. -/
def Category.hasCaption : Category → Bool
  | number | boolean | string | primitive | reference | declaration | numberDatum | booleanDatum
  | stringDatum => true
  | _ => false

/-- The label of the nodes of a category that show nothing of the source. -/
def Category.fixedLabel (c : Category) : String :=
  if c.isGroup then Registry.groupLabel else c.name

/-! ## The captions of a script -/

namespace Datum

/-- What the node of a datum shows. -/
def caption? : Datum → Option String
  | number x => some x.text
  | boolean b => some (Word.ofBool b)
  | string text => some text
  | empty | symbol _ | pair _ _ => none

/-- What the nodes below that of a datum show, in the order of the nodes. -/
def captions : Datum → List (Option String)
  | symbol name => [some name]
  | pair first rest => [first.caption?, rest.caption?] ++ (first.captions ++ rest.captions)
  | empty | number _ | boolean _ | string _ => []

end Datum

namespace Expr

/-- What the node of an expression shows. -/
def caption? : Expr → Option String
  | number x => some x.text
  | boolean b => some (Word.ofBool b)
  | string text | primitive text | reference text => some text
  | _ => none

mutual

/-- What the nodes below that of an expression show, in the order of the nodes: those of its fields,
each group, which shows nothing, followed by its members, and then those below each child. -/
def captions : Expr → List (Option String)
  | number _ | boolean _ | string _ | primitive _ | reference _ => []
  | lambda params body =>
    none :: params.map some ++ (none :: body.map caption?) ++ captionsEach body
  | conditional test consequent alternative =>
    [test.caption?, consequent.caption?, alternative.caption?]
      ++ (test.captions ++ (consequent.captions ++ alternative.captions))
  | application operator operands =>
    operator.caption? :: none :: operands.map caption?
      ++ (operator.captions ++ captionsEach operands)
  | letIn _ bindings body =>
    none :: bindings.map (fun _ => none) ++ (none :: body.map caption?)
      ++ (bindingCaptions bindings ++ captionsEach body)
  | quotation datum => datum.caption? :: datum.captions
  | assignment target value => some target :: value.caption? :: value.captions

def captionsEach : List Expr → List (Option String)
  | [] => []
  | e :: es => e.captions ++ captionsEach es

def bindingCaptions : List (Binding Expr) → List (Option String)
  | [] => []
  | ⟨name, value⟩ :: bindings =>
    some name :: value.caption? :: value.captions ++ bindingCaptions bindings

end

end Expr

namespace Form

def caption? : Form → Option String
  | definition _ _ => none
  | expression e => e.caption?

def captions : Form → List (Option String)
  | definition name value => some name :: value.caption? :: value.captions
  | expression e => e.captions

end Form

/-- What each node of a script shows of it, in the order of the nodes. -/
def Script.captions : Script → List (Option String)
  | program forms => none :: none :: forms.map Form.caption? ++ forms.flatMap Form.captions
  | form f => f.caption? :: f.captions

/-! ## Nodes with their captions -/

/-- A label that shows just this caption, on a node that has one if the category says so. -/
def Entry.Captioned (e : Entry) : Option String → Prop
  | some text => e.category.hasCaption = true ∧ e.label = e.category.labelWith text
  | none => e.category.hasCaption = false ∧ e.label = e.category.fixedLabel

theorem Entry.Captioned.label_eq {e : Entry} {caption : Option String} (h : e.Captioned caption)
    (hc : e.category.hasCaption = false) : e.label = e.category.fixedLabel := by
  cases caption with
  | none => exact h.2
  | some text => simp [h.1] at hc

open Outline

theorem Outline.declared_named (c : Category) (fields : List Field) :
    (named c fields).declared = (fields.flatMap fun f => f.entry :: f.memberEntries)
      ++ (fields.flatMap Field.children).flatMap declared :=
  collect_eq _ _

@[simp]
theorem Outline.entry_showing (c : Category) (text : String) :
    (showing c text).entry = ⟨c, c.labelWith text⟩ :=
  rfl

@[simp]
theorem Outline.declared_showing (c : Category) (text : String) : (showing c text).declared = [] :=
  rfl

theorem captioned_labelWith {c : Category} (hc : c.hasCaption = true) (text : String) :
    Entry.Captioned ⟨c, c.labelWith text⟩ (some text) :=
  ⟨hc, rfl⟩

theorem captioned_named {c : Category} (hc : c.hasCaption = false) (hg : c.isGroup = false)
    (fields : List Field) : (named c fields).entry.Captioned none :=
  ⟨hc, by simp [named, entry, category, label, Category.fixedLabel, hg]⟩

theorem captioned_group {c : Category} (hc : c.isGroup = true) :
    Entry.Captioned ⟨c, Registry.groupLabel⟩ none := by
  refine ⟨?_, by simp [Category.fixedLabel, hc]⟩
  cases c <;> first | rfl | cases hc

theorem captioned_declarations (names : List String) :
    List.Forall₂ Entry.Captioned ((names.map declarationOutline).map Outline.entry)
      (names.map some) := by
  rw [List.map_map, List.forall₂_map_left_iff, List.forall₂_map_right_iff, List.forall₂_same]
  exact fun name _ => captioned_labelWith rfl name

theorem Datum.captioned_entry (d : Datum) : d.outline.entry.Captioned d.caption? := by
  cases d with
  | empty | symbol | pair => exact captioned_named rfl rfl _
  | number | boolean | string => exact captioned_labelWith rfl _

theorem Datum.captioned_declared (d : Datum) :
    List.Forall₂ Entry.Captioned d.outline.declared d.captions := by
  induction d with
  | empty | number | boolean | string => exact .nil
  | symbol name => exact .cons (captioned_labelWith rfl name) .nil
  | pair first rest ih1 ih2 =>
    rw [outline, declared_named]
    simpa [Field.entry, Field.memberEntries, Field.children, captions, first.captioned_entry,
      rest.captioned_entry] using List.rel_append ih1 ih2

namespace Expr

theorem captioned_entry (e : Expr) : e.outline.entry.Captioned e.caption? := by
  cases e with
  | number | boolean | string | primitive | reference => exact captioned_labelWith rfl _
  | letIn kind => cases kind <;> exact captioned_named rfl rfl _
  | lambda | conditional | application | quotation | assignment => exact captioned_named rfl rfl _

theorem captioned_entries (es : List Expr) :
    List.Forall₂ Entry.Captioned ((outlines es).map Outline.entry) (es.map caption?) := by
  induction es with
  | nil => exact .nil
  | cons e es ih => exact .cons e.captioned_entry ih

theorem captioned_bindings (bindings : List (Binding Expr)) :
    List.Forall₂ Entry.Captioned ((bindingOutlines bindings).map Outline.entry)
      (bindings.map fun _ => none) := by
  induction bindings with
  | nil => exact .nil
  | cons binding bindings ih => exact .cons (captioned_named rfl rfl _) ih

theorem flatMap_declared_declarations (names : List String) :
    (names.map declarationOutline).flatMap declared = [] := by
  rw [List.flatMap_map]
  exact List.flatMap_eq_nil_iff.2 fun name _ => declared_showing _ name

mutual

theorem captioned_declared : ∀ e : Expr,
    List.Forall₂ Entry.Captioned e.outline.declared e.captions
  | number _ | boolean _ | string _ | primitive _ | reference _ => .nil
  | lambda params body => by
    have hfields := List.rel_append
      (.cons (captioned_group (c := .params) rfl) (captioned_declarations params))
      (.cons (captioned_group (c := .body) rfl) (captioned_entries body))
    rw [outline, declared_named]
    simpa [Field.entry, Field.memberEntries, Field.children, captions,
      flatMap_declared_declarations] using List.rel_append hfields (captioned_declaredEach body)
  | conditional test consequent alternative => by
    rw [outline, declared_named]
    simpa [Field.entry, Field.memberEntries, Field.children, captions, captioned_entry] using
      List.rel_append (captioned_declared test)
        (List.rel_append (captioned_declared consequent) (captioned_declared alternative))
  | application operator operands => by
    have hfields := List.Forall₂.cons operator.captioned_entry
      (.cons (captioned_group (c := .operands) rfl) (captioned_entries operands))
    rw [outline, declared_named]
    simpa [Field.entry, Field.memberEntries, Field.children, captions] using
      List.rel_append hfields
        (List.rel_append (captioned_declared operator) (captioned_declaredEach operands))
  | letIn kind bindings body => by
    have hfields := List.rel_append
      (.cons (captioned_group (c := .bindings) rfl) (captioned_bindings bindings))
      (.cons (captioned_group (c := .body) rfl) (captioned_entries body))
    rw [outline, declared_named]
    simpa [Field.entry, Field.memberEntries, Field.children, captions] using
      List.rel_append hfields
        (List.rel_append (captioned_bindingDeclared bindings) (captioned_declaredEach body))
  | quotation datum => by
    rw [outline, declared_named]
    simpa [Field.entry, Field.memberEntries, Field.children, captions, datum.captioned_entry] using
      datum.captioned_declared
  | assignment target value => by
    have hfields := List.Forall₂.cons (captioned_labelWith (c := .reference) rfl target)
      (.cons value.captioned_entry .nil)
    rw [outline, declared_named]
    simpa [Field.entry, Field.memberEntries, Field.children, captions] using
      List.rel_append hfields (captioned_declared value)

theorem captioned_declaredEach : ∀ es : List Expr,
    List.Forall₂ Entry.Captioned ((outlines es).flatMap declared) (captionsEach es)
  | [] => .nil
  | e :: es => List.rel_append (captioned_declared e) (captioned_declaredEach es)

theorem captioned_bindingDeclared : ∀ bindings : List (Binding Expr),
    List.Forall₂ Entry.Captioned ((bindingOutlines bindings).flatMap declared)
      (bindingCaptions bindings)
  | [] => .nil
  | ⟨name, value⟩ :: bindings => by
    have hfields := List.Forall₂.cons (captioned_labelWith (c := .declaration) rfl name)
      (.cons value.captioned_entry (captioned_declared value))
    have hbinding := List.rel_append hfields (captioned_bindingDeclared bindings)
    rw [bindingOutlines, List.flatMap_cons, declared_named]
    simpa [Field.entry, Field.memberEntries, Field.children, bindingCaptions, declarationOutline]
      using hbinding

end

end Expr

namespace Form

theorem captioned_entry : ∀ f : Form, f.outline.entry.Captioned f.caption?
  | definition _ _ => captioned_named rfl rfl _
  | expression e => e.captioned_entry

theorem captioned_declared : ∀ f : Form,
    List.Forall₂ Entry.Captioned f.outline.declared f.captions
  | definition name value => by
    have hfields := List.Forall₂.cons (captioned_labelWith (c := .declaration) rfl name)
      (.cons value.captioned_entry value.captioned_declared)
    rw [outline, declared_named]
    simpa [Field.entry, Field.memberEntries, Field.children, captions, declarationOutline]
      using hfields
  | expression e => e.captioned_declared

end Form

theorem Script.captioned_declared : ∀ s : Script,
    List.Forall₂ Entry.Captioned (s.outline.entry :: s.outline.declared) s.captions
  | program forms => by
    have hentries : List.Forall₂ Entry.Captioned ((forms.map Form.outline).map Outline.entry)
        (forms.map Form.caption?) := by
      rw [List.map_map, List.forall₂_map_left_iff, List.forall₂_map_right_iff, List.forall₂_same]
      exact fun f _ => f.captioned_entry
    have hbelow : List.Forall₂ Entry.Captioned ((forms.map Form.outline).flatMap declared)
        (forms.flatMap Form.captions) := by
      rw [List.flatMap_map]
      exact List.rel_flatMap (List.forall₂_same.2 fun _ _ => rfl) fun f _ hf =>
        hf ▸ f.captioned_declared
    rw [outline, declared_named]
    refine .cons (captioned_named rfl rfl _) (.cons (captioned_group rfl) ?_)
    simpa [Field.entry, Field.memberEntries, Field.children, captions] using
      List.rel_append hentries hbelow
  | form f => .cons f.captioned_entry f.captioned_declared

/-! ## Charts without captions -/

/-- Leaves nothing of any number, boolean and text, so that scripts become equal that have the same
syntax. -/
def Mask.erasing : Mask where
  number _ := Binary64.ofBits 0
  boolean _ := false
  text _ := ""
  kind kind := kind

/-- An entry seen without its caption. -/
def Entry.withoutCaption : Entry → Entry :=
  hide Category.hasCaption id

theorem Entry.category_withoutCaption (e : Entry) : e.withoutCaption.category = e.category := by
  rw [withoutCaption, hide]
  split <;> rfl

theorem Entry.withoutCaption_labelWith_eq {c : Category} (hc : c.hasCaption = true)
    (text text' : String) :
    withoutCaption ⟨c, c.labelWith text⟩ = withoutCaption ⟨c, c.labelWith text'⟩ := by
  simp [withoutCaption, hide, hc]

theorem Mask.hidden_erasing : erasing.Hidden Entry.withoutCaption where
  number _ hc _ := Entry.withoutCaption_labelWith_eq (by revert hc; decide +revert) _ _
  boolean _ hc _ := Entry.withoutCaption_labelWith_eq (by revert hc; decide +revert) _ _
  text _ hc _ := Entry.withoutCaption_labelWith_eq (by revert hc; decide +revert) _ _
  kind _ := rfl

namespace Script

theorem Draws.captioned {s : Script} {nodes : List Node} (h : s.Draws nodes) :
    List.Forall₂ (fun n caption => n.entry.Captioned caption) (s.rootNode :: nodes) s.captions := by
  have hentries : (s.rootNode :: nodes).map Node.entry = s.outline.entry :: s.outline.declared := by
    rw [List.map_cons, h.grown.map_entry]
    rfl
  have := s.captioned_declared
  rwa [← hentries, List.forall₂_map_left_iff] at this

theorem Draws.label_eq_fixedLabel {s : Script} {nodes : List Node} (h : s.Draws nodes) {n : Node}
    (hn : n ∈ s.rootNode :: nodes) (hc : n.id.category.hasCaption = false) :
    n.label = n.id.category.fixedLabel := by
  have hlabels := h.captioned.imp fun _ _ hcaption => And.intro hcaption.label_eq hcaption
  exact ((List.forall₂_and_left _ _).1 hlabels).1 n hn hc

theorem Draws.map_id_eq {p q : Script} {nodes nodes' : List Node} (hp : p.Draws nodes)
    (hq : q.Draws nodes')
    (h : p.outline.frame Entry.withoutCaption = q.outline.frame Entry.withoutCaption) :
    (p.rootNode :: nodes).map Node.id = (q.rootNode :: nodes').map Node.id := by
  have hcategory (e e' : Entry) (he : e.withoutCaption = e'.withoutCaption) :
      e'.category = e.category := by
    rw [← e.category_withoutCaption, he, e'.category_withoutCaption]
  have hids := hp.forall₂_id_eq (fun _ => true) (fun e e' he _ => hcategory e e' he) hq h
  exact map_eq_map_iff_forall₂.2 (hids.imp fun _ _ hid => (hid rfl).symm)

theorem Draws.edges_eq {p q : Script} {nodes nodes' : List Node} (hp : p.Draws nodes)
    (hq : q.Draws nodes')
    (h : p.outline.frame Entry.withoutCaption = q.outline.frame Entry.withoutCaption) :
    q.drawing.wiring.edges = p.drawing.wiring.edges := by
  have hids := hp.map_id_eq hq h
  rw [hp.edges_eq_rename hq h (f := id) (by rw [hids, List.map_id])]
  exact List.map_id' _

/-- What the charts of two scripts have in common that are equal once all numbers, booleans and
texts are erased: everything but the captions, and these are the scripts' own. -/
theorem chart_eq_up_to_captions_of_erased_eq (d : Direction) {p q : Script}
    (h : p.mask .erasing = q.mask .erasing) :
    ((∃ n, (p.chart d).content = .atomic n) ↔ ∃ n, (q.chart d).content = .atomic n)
      ∧ (p.chart d).edges = (q.chart d).edges
      ∧ (p.chart d).nodes.map Node.id = (q.chart d).nodes.map Node.id
      ∧ List.Forall₂ (fun n n' => n.id.category.hasCaption = false → n.label = n'.label)
        (p.chart d).nodes (q.chart d).nodes
      ∧ List.Forall₂ (fun n caption => n.entry.Captioned caption) (p.chart d).nodes p.captions
      ∧ List.Forall₂ (fun n caption => n.entry.Captioned caption) (q.chart d).nodes q.captions := by
  obtain ⟨nodes, hp⟩ := p.exists_draws
  obtain ⟨nodes', hq⟩ := q.exists_draws
  have hframe := frame_eq_of_mask_eq Mask.hidden_erasing h
  have hedges := (hp.edges_eq hq hframe).symm
  have hlabels := (hp.forall₂_eq_of_not_hidden (fun _ hc => hc) hq hframe).imp fun n n' hn hc =>
    congrArg Node.label (hn hc).symm
  rw [hp.chart_nodes, hq.chart_nodes, hp.chart_edges, hq.chart_edges]
  exact ⟨by rw [hp.exists_atomic_iff, hq.exists_atomic_iff, hedges], hedges,
    hp.map_id_eq hq hframe, hlabels, hp.captioned, hq.captioned⟩

/-- Two definitions with other names, another number, another boolean and another symbol. -/
theorem chart_eq_up_to_captions_definition :
    let p := form (.definition "f" (.lambda ["x"] [.conditional (.boolean true)
      (.application (.primitive "+") [.reference "x", .number (.ofBits 0x3ff0000000000000)])
      (.quotation (.pair (.symbol "a") .empty))]))
    let q := form (.definition "g" (.lambda ["y"] [.conditional (.boolean false)
      (.application (.primitive "not") [.reference "f", .number (.ofBits 0x4000000000000000)])
      (.quotation (.pair (.symbol "|") .empty))]))
    p.mask .erasing = q.mask .erasing
      ∧ (p.chart .topDown).edges = (q.chart .topDown).edges
      ∧ (p.chart .topDown).nodes.map Node.id = (q.chart .topDown).nodes.map Node.id
      ∧ List.Forall₂ (fun n caption => n.entry.Captioned caption) (q.chart .topDown).nodes
        [none, some "g", none, none, some "y", none, none, some "#f", none, none, some "not", none,
          some "f", some "2", none, none, none, some "|"] := by
  intro p q
  have h : p.mask .erasing = q.mask .erasing := rfl
  have hcaptions : q.captions = [none, some "g", none, none, some "y", none, none, some "#f", none,
      none, some "not", none, some "f", some "2", none, none, none, some "|"] := by decide +kernel
  obtain ⟨-, hedges, hids, -, -, hq⟩ := chart_eq_up_to_captions_of_erased_eq .topDown h
  rw [hcaptions] at hq
  exact ⟨h, hedges, hids, hq⟩

end Script

end SyntaxChart
