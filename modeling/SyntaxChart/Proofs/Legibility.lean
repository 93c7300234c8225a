import SyntaxChart.Outline.Syntax
import SyntaxChart.Proofs.Drawing

/-!
# Labels and roles on one line

Where the texts of a script stand on one line each, so does every label of its chart. No label
begins with a quote, since it begins with the name of its category or is a group's, and a node with
edges below it shows nothing but the name of its category. Roles are letters and digits.
-/

namespace SyntaxChart

/-- A text without a line feed. -/
def OneLine (text : String) : Prop :=
  '\n' ∉ text.toList

theorem oneLine_append {s t : String} : OneLine (s ++ t) ↔ OneLine s ∧ OneLine t := by
  simp [OneLine, String.toList_append]

theorem Category.oneLine_name (c : Category) : OneLine c.name := fun h => by
  have := isAlpha_of_mem_name h
  simp at this

/-! ## The text of a number -/

namespace Decimal

theorem isDigit_of_mem_paddedDigits {width n : Nat} {c : Char} (h : c ∈ paddedDigits width n) :
    c.isDigit := by
  rcases List.mem_append.1 h with h | h
  · rw [List.eq_of_mem_replicate h]
    decide
  · exact Nat.isDigit_of_mem_toDigits (by decide) (by decide) h

theorem mem_of_mem_dropFinalZeros {cs : List Char} {c : Char} (h : c ∈ dropFinalZeros cs) :
    c ∈ cs := by
  rw [dropFinalZeros, List.mem_reverse] at h
  exact List.mem_reverse.1 ((List.dropWhile_suffix _).subset h)

theorem isDigit_or_of_mem_fractionText {places n : Nat} {c : Char} (h : c ∈ fractionText places n) :
    c.isDigit ∨ c = '.' := by
  unfold fractionText at h
  split at h
  · cases h
  · rcases List.mem_cons.1 h with rfl | h
    · exact .inr rfl
    · exact .inl (isDigit_of_mem_paddedDigits (mem_of_mem_dropFinalZeros h))

theorem isDigit_or_of_mem_magnitudeText {digits : Nat} {exponent : Int} {c : Char}
    (h : c ∈ magnitudeText digits exponent) : c.isDigit ∨ c = '.' := by
  cases exponent with
  | ofNat zeros => exact .inl (Nat.isDigit_of_mem_toDigits (by decide) (by decide) h)
  | negSucc n =>
    rcases List.mem_append.1 h with h | h
    · exact .inl (Nat.isDigit_of_mem_toDigits (by decide) (by decide) h)
    · exact isDigit_or_of_mem_fractionText h

/-- A decimal number is written in digits, a point and a minus sign. -/
theorem isDigit_or_of_mem_positional {d : Decimal} {c : Char} (h : c ∈ d.positional) :
    c.isDigit ∨ c = '.' ∨ c = '-' := by
  rcases List.mem_append.1 h with h | h
  · split_ifs at h
    · exact .inr (.inr (List.mem_singleton.1 h))
    · cases h
  · rcases isDigit_or_of_mem_magnitudeText h with h | h
    · exact .inl h
    · exact .inr (.inl h)

end Decimal

theorem Binary64.oneLine_text (x : Binary64) : OneLine x.text := by
  unfold text
  split_ifs
  · intro h
    rw [String.toList_ofList] at h
    have := Decimal.isDigit_or_of_mem_positional h
    revert this
    decide
  all_goals simp [OneLine]

/-! ## The texts of a script -/

def Datum.texts : Datum → List String
  | symbol name => [name]
  | string text => [text]
  | pair first rest => first.texts ++ rest.texts
  | empty | number _ | boolean _ => []

namespace Expr

mutual

def texts : Expr → List String
  | number _ | boolean _ => []
  | string text | primitive text | reference text => [text]
  | lambda params body => params ++ listTexts body
  | conditional test consequent alternative =>
    test.texts ++ consequent.texts ++ alternative.texts
  | application operator operands => operator.texts ++ listTexts operands
  | letIn _ bindings body => bindingTexts bindings ++ listTexts body
  | quotation datum => datum.texts
  | assignment target value => target :: value.texts

def listTexts : List Expr → List String
  | [] => []
  | e :: es => e.texts ++ listTexts es

def bindingTexts : List (Binding Expr) → List String
  | [] => []
  | ⟨name, value⟩ :: bindings => name :: value.texts ++ bindingTexts bindings

end

end Expr

def Form.texts : Form → List String
  | definition name value => name :: value.texts
  | expression e => e.texts

/-- The strings, names, symbols and operators in a script. -/
def Script.texts : Script → List String
  | program forms => forms.flatMap Form.texts
  | form f => f.texts

/-! ## Outlines with plain labels -/

/-- A label that shows its category, and behind it perhaps a text on the same line. -/
def Shows (c : Category) (label : String) : Prop :=
  ∃ text, label = c.name ++ text ∧ OneLine text

/-- A role in letters and digits. -/
def PlainRole (role : String) : Prop :=
  ∀ c ∈ role.toList, c.isAlphanum

/-- A field with a plain role, whose leaf shows its category. -/
def Field.IsPlain : Field → Prop
  | one role _ | group role _ _ => PlainRole role
  | leaf role c label => PlainRole role ∧ Shows c label

/-- Every label of the outline shows its category, and no more where there are fields below it. -/
inductive Outline.Plain : Outline → Prop
  | intro {o : Outline} (label : Shows o.category o.label)
      (named : o.fields ≠ [] → o.label = o.category.name) (fields : ∀ f ∈ o.fields, f.IsPlain)
      (children : ∀ child ∈ o.children, Plain child) : Plain o

theorem shows_labelWith {c : Category} {text : String} (h : OneLine text) :
    Shows c (c.labelWith text) :=
  ⟨"(" ++ (text ++ ")"), by simp [Category.labelWith, String.append_assoc],
    by simpa [oneLine_append] using ⟨by simp [OneLine], h, by simp [OneLine]⟩⟩

namespace Outline

theorem plain_named_iff {c : Category} {fields : List Field} :
    (named c fields).Plain ↔
      ∀ f ∈ fields, f.IsPlain ∧ ∀ child ∈ f.children, child.Plain := by
  constructor
  · rintro ⟨-, -, hf, hc⟩ f hm
    exact ⟨hf f hm, fun child hchild => hc child (List.mem_flatMap.2 ⟨f, hm, hchild⟩)⟩
  · intro h
    refine ⟨⟨"", by simp [named, label, category], by simp [OneLine]⟩, fun _ => rfl,
      fun f hf => (h f hf).1, fun child hc => ?_⟩
    obtain ⟨f, hf, hc⟩ := List.mem_flatMap.1 hc
    exact (h f hf).2 child hc

theorem plain_showing (c : Category) {text : String} (h : OneLine text) :
    (showing c text).Plain :=
  ⟨shows_labelWith h, fun hne => absurd rfl hne, by simp [showing, fields],
    by simp [showing, fields, children]⟩

end Outline

theorem oneLine_ofBool (b : Bool) : OneLine (Word.ofBool b) := by
  cases b <;> simp [OneLine, Word.ofBool]

open Outline

theorem plain_declarationOutline {name : String} (h : OneLine name) :
    (declarationOutline name).Plain :=
  plain_showing _ h

theorem Datum.plain_outline : ∀ {d : Datum}, (∀ t ∈ d.texts, OneLine t) → d.outline.Plain
  | empty, _ => by simp [outline, plain_named_iff]
  | symbol name, h => by
    have := shows_labelWith (c := .stringDatum) (h name (by simp [texts]))
    simpa [outline, plain_named_iff, Field.IsPlain, Field.children, PlainRole]
  | pair first rest, h => by
    have := plain_outline fun t ht => h t (List.mem_append_left _ ht)
    have := plain_outline fun t ht => h t (List.mem_append_right _ ht)
    simp_all [outline, plain_named_iff, Field.IsPlain, Field.children, PlainRole]
  | number x, _ => plain_showing _ x.oneLine_text
  | boolean b, _ => plain_showing _ (oneLine_ofBool b)
  | string text, h => plain_showing _ (h text (by simp [texts]))

namespace Expr

mutual

theorem plain_outline : ∀ {e : Expr}, (∀ t ∈ e.texts, OneLine t) → e.outline.Plain
  | number x, _ => plain_showing _ x.oneLine_text
  | boolean b, _ => plain_showing _ (oneLine_ofBool b)
  | string text, h | primitive text, h | reference text, h =>
    plain_showing _ (h text (by simp [texts]))
  | lambda params body, h => by
    simp only [texts, List.mem_append, or_imp, forall_and] at h
    have hparams : ∀ name ∈ params, (declarationOutline name).Plain := fun name hn =>
      plain_declarationOutline (h.1 name hn)
    have hbody := plain_outlines h.2
    simp_all [outline, plain_named_iff, Field.IsPlain, Field.children, PlainRole]
  | conditional test consequent alternative, h => by
    simp only [texts, List.mem_append, or_imp, forall_and] at h
    have htest := plain_outline h.1.1
    have hthen := plain_outline h.1.2
    have halt := plain_outline h.2
    simp [outline, plain_named_iff, Field.IsPlain, Field.children, PlainRole, htest, hthen, halt]
  | application operator operands, h => by
    simp only [texts, List.mem_append, or_imp, forall_and] at h
    have hrator := plain_outline h.1
    have hrands := plain_outlines h.2
    simpa [outline, plain_named_iff, Field.IsPlain, Field.children, PlainRole, hrator]
  | letIn kind bindings body, h => by
    simp only [texts, List.mem_append, or_imp, forall_and] at h
    have hbindings := plain_bindingOutlines h.1
    have hbody := plain_outlines h.2
    simp_all [outline, plain_named_iff, Field.IsPlain, Field.children, PlainRole]
  | quotation datum, h => by
    have hdatum := datum.plain_outline h
    simpa [outline, plain_named_iff, Field.IsPlain, Field.children, PlainRole]
  | assignment target value, h => by
    simp only [texts, List.mem_cons, forall_eq_or_imp] at h
    have htarget := shows_labelWith (c := .reference) h.1
    have hvalue := plain_outline h.2
    simp [outline, plain_named_iff, Field.IsPlain, Field.children, PlainRole, htarget, hvalue]

theorem plain_outlines : ∀ {es : List Expr}, (∀ t ∈ listTexts es, OneLine t) →
    ∀ o ∈ outlines es, o.Plain
  | [], _ => by simp [outlines]
  | e :: es, h => by
    simp only [listTexts, List.mem_append, or_imp, forall_and] at h
    simpa [outlines] using ⟨plain_outline h.1, plain_outlines h.2⟩

theorem plain_bindingOutlines : ∀ {bindings : List (Binding Expr)},
    (∀ t ∈ bindingTexts bindings, OneLine t) → ∀ o ∈ bindingOutlines bindings, o.Plain
  | [], _ => by simp [bindingOutlines]
  | ⟨name, value⟩ :: bindings, h => by
    simp only [bindingTexts, List.cons_append, List.mem_cons, List.mem_append, or_imp, forall_and,
      forall_eq] at h
    have hname := plain_declarationOutline h.1
    have hvalue := plain_outline h.2.1
    have hrest := plain_bindingOutlines h.2.2
    simpa [bindingOutlines, plain_named_iff, Field.IsPlain, Field.children, PlainRole, hname,
      hvalue]

end

end Expr

theorem Form.plain_outline : ∀ {f : Form}, (∀ t ∈ f.texts, OneLine t) → f.outline.Plain
  | definition name value, h => by
    simp only [texts, List.mem_cons, forall_eq_or_imp] at h
    have hname := plain_declarationOutline h.1
    have hvalue := Expr.plain_outline h.2
    simp [outline, plain_named_iff, Field.IsPlain, Field.children, PlainRole, hname, hvalue]
  | expression e, h => Expr.plain_outline h

theorem Script.plain_outline : ∀ {s : Script}, (∀ t ∈ s.texts, OneLine t) → s.outline.Plain
  | program forms, h => by
    have hforms : ∀ f ∈ forms, f.outline.Plain := fun f hf =>
      Form.plain_outline fun t ht => h t (List.mem_flatMap.2 ⟨f, hf, ht⟩)
    simpa [outline, plain_named_iff, Field.IsPlain, Field.children, PlainRole]
  | form f, h => Form.plain_outline h

/-! ## What grows from a plain outline -/

/-- A label on one line that does not begin with a quote. -/
def Node.IsLegible (n : Node) : Prop :=
  OneLine n.label ∧ n.label.toList.head? ≠ some '"'

def Edge.IsLegible (e : Edge) : Prop :=
  ∀ role ∈ e.role, PlainRole role

theorem Shows.head?_isAlpha {c : Category} {label : String} (h : Shows c label) :
    ∃ x cs, label.toList = x :: cs ∧ x.isAlpha := by
  obtain ⟨text, rfl, -⟩ := h
  rcases hname : c.name.toList with _ | ⟨x, cs⟩
  · cases c <;> simp [Category.name] at hname
  · refine ⟨x, cs ++ text.toList, by simp [String.toList_append, hname], ?_⟩
    exact Category.isAlpha_of_mem_name (hname ▸ List.mem_cons_self)

theorem Shows.isLegible {n : Node} {c : Category} (h : Shows c n.label) : n.IsLegible := by
  obtain ⟨x, cs, hcs, hx⟩ := h.head?_isAlpha
  obtain ⟨text, hlabel, htext⟩ := h
  refine ⟨hlabel ▸ oneLine_append.2 ⟨c.oneLine_name, htext⟩, fun hq => ?_⟩
  rw [hcs, List.head?_cons, Option.some.injEq] at hq
  subst hq
  simp at hx

theorem Outline.Plain.isLegible {o : Outline} {n : Node} (h : o.Plain) (hn : n.StandsFor o) :
    n.IsLegible := by
  cases h with
  | intro label => exact Shows.isLegible (hn.2 ▸ label)

theorem isLegible_some {source target : NodeId} {role : String} (h : PlainRole role) :
    Edge.IsLegible ⟨source, some role, target⟩ := by
  rintro _ ⟨⟩
  exact h

theorem isLegible_of_forall₂ : ∀ {ns : List Node} {os : List Outline},
    List.Forall₂ Node.StandsFor ns os → (∀ o ∈ os, o.Plain) → ∀ n ∈ ns, n.IsLegible
  | [], [], .nil, _ => by simp
  | _ :: _, _ :: _, .cons hn hns, h => by
    rw [List.forall_mem_cons] at h ⊢
    exact ⟨h.1.isLegible hn, isLegible_of_forall₂ hns h.2⟩

theorem Planted.legible {parent : NodeId} {fields : List Field} {b : Branches} {nodes : List Node}
    (h : Planted parent fields b nodes) : (∀ f ∈ fields, f.IsPlain) →
      (∀ child ∈ fields.flatMap Field.children, child.Plain) →
      (∀ n ∈ nodes, n.IsLegible) ∧ ∀ e ∈ b.own ++ b.fanOut, e.IsLegible := by
  induction h with
  | nil => simp
  | one hn _ ih =>
    intro hf hc
    rw [List.forall_mem_cons] at hf
    rw [List.flatMap_cons, List.forall_mem_append] at hc
    obtain ⟨hnodes, hedges⟩ := ih hf.2 hc.2
    simp only [List.cons_append, List.forall_mem_cons]
    have hchild := hc.1 _ List.mem_cons_self
    exact ⟨⟨hchild.isLegible hn, hnodes⟩, isLegible_some hf.1, hedges⟩
  | @group role g members ns fields b nodes hns _ ih =>
    intro hf hc
    rw [List.forall_mem_cons] at hf
    rw [List.flatMap_cons, List.forall_mem_append] at hc
    obtain ⟨hnodes, hedges⟩ := ih hf.2 hc.2
    rw [List.forall_mem_append] at hedges
    simp only [List.cons_append, List.forall_mem_cons, List.forall_mem_append]
    have hgroup : Node.IsLegible ⟨g, Registry.groupLabel⟩ := by
      simp [Node.IsLegible, OneLine, Registry.groupLabel]
    have hmembers := isLegible_of_forall₂ hns hc.1
    have hfan : ∀ e ∈ ns.map (fun n => (⟨g, none, n.id⟩ : Edge)), e.IsLegible := fun e he => by
      obtain ⟨n, -, rfl⟩ := List.mem_map.1 he
      simp [Edge.IsLegible]
    exact ⟨⟨hgroup, hmembers, hnodes⟩, isLegible_some hf.1, hedges.1, hfan, hedges.2⟩
  | leaf _ ih =>
    intro hf hc
    rw [List.forall_mem_cons] at hf
    obtain ⟨hnodes, hedges⟩ := ih hf.2 hc
    simp only [List.cons_append, List.forall_mem_cons]
    exact ⟨⟨hf.1.2.isLegible, hnodes⟩, isLegible_some hf.1.1, hedges⟩

theorem Growth.Grown.legible {g : Growth} (h : g.Grown) : g.outline.Plain →
    (∀ n ∈ g.nodes, n.IsLegible) ∧ ∀ e ∈ g.edges, e.IsLegible := by
  induction h with
  | @intro o root b nodes parts hpl houtlines _ _ ih =>
    rintro ⟨-, -, hfields, hchildren⟩
    obtain ⟨hnodes, hedges⟩ := hpl.legible hfields hchildren
    have hparts : ∀ g ∈ parts, g.outline.Plain := fun g hg =>
      hchildren _ (houtlines ▸ List.mem_map_of_mem hg)
    refine ⟨fun n hn => ?_, fun e he => ?_⟩
    · rcases List.mem_append.1 hn with hn | hn
      · exact hnodes n hn
      · obtain ⟨g, hg, hn⟩ := List.mem_flatMap.1 hn
        exact (ih g hg (hparts g hg)).1 n hn
    · rcases List.mem_append.1 he with he | he
      · exact hedges e he
      · obtain ⟨g, hg, he⟩ := List.mem_flatMap.1 he
        exact (ih g hg (hparts g hg)).2 e he

theorem Growth.Grown.edges_eq_nil {g : Growth} (h : g.Grown) (hf : g.outline.fields = []) :
    g.edges = [] := by
  cases h with
  | @intro o root b nodes parts hpl houtlines =>
    have hparts : parts = [] := by
      simpa [Outline.children, show o.fields = [] from hf] using houtlines
    replace hpl : Planted root [] b nodes := hf ▸ hpl
    cases hpl
    simp [hparts]

namespace Script

variable {s : Script} {nodes : List Node} (h : s.Draws nodes) (ht : ∀ t ∈ s.texts, OneLine t)

include h ht

theorem Draws.legible :
    (∀ n ∈ nodes, n.IsLegible) ∧ ∀ e ∈ s.drawing.wiring.edges, e.IsLegible :=
  h.grown.legible (plain_outline ht)

omit h in
theorem shows_rootNode : Shows s.outline.category s.rootNode.label := by
  obtain ⟨hlabel, -⟩ := plain_outline ht
  exact hlabel

/-- With edges below it, a root shows the name of its category. -/
theorem Draws.label_rootNode (hne : s.drawing.wiring.edges ≠ []) :
    s.rootNode.label = s.outline.category.name := by
  obtain ⟨-, hnamed, -, -⟩ := plain_outline ht
  exact hnamed fun hfields => hne (h.grown.edges_eq_nil hfields)

end Script

end SyntaxChart
