import SyntaxChart.Proofs.Framing

/-!
# Masked scripts

A mask puts something else in the place of the numbers, booleans, texts and kinds of let in a script
and leaves everything else as it is (`Script.mask`). Where a view of the nodes does not tell what a
mask changes (`Mask.Hidden`), the outlines of a script and of the masked script have the same frame.
So two scripts that are equal behind such a mask have outlines with the same frame
(`Script.frame_eq_of_mask_eq`).
-/

namespace SyntaxChart

/-- What comes in the place of each number, boolean, text and kind of let. -/
structure Mask where
  number : Binary64 → Binary64
  boolean : Bool → Bool
  text : String → String
  kind : LetKind → LetKind

def Datum.mask (m : Mask) : Datum → Datum
  | empty => empty
  | symbol name => symbol (m.text name)
  | pair first rest => pair (first.mask m) (rest.mask m)
  | number x => number (m.number x)
  | boolean b => boolean (m.boolean b)
  | string text => string (m.text text)

namespace Expr

mutual

def mask (m : Mask) : Expr → Expr
  | number x => number (m.number x)
  | boolean b => boolean (m.boolean b)
  | string text => string (m.text text)
  | primitive name => primitive (m.text name)
  | reference name => reference (m.text name)
  | lambda params body => lambda (params.map m.text) (maskAll m body)
  | conditional test consequent alternative =>
    conditional (test.mask m) (consequent.mask m) (alternative.mask m)
  | application operator operands => application (operator.mask m) (maskAll m operands)
  | letIn kind bindings body => letIn (m.kind kind) (maskBindings m bindings) (maskAll m body)
  | quotation datum => quotation (datum.mask m)
  | assignment target value => assignment (m.text target) (value.mask m)

def maskAll (m : Mask) : List Expr → List Expr
  | [] => []
  | e :: es => e.mask m :: maskAll m es

def maskBindings (m : Mask) : List (Binding Expr) → List (Binding Expr)
  | [] => []
  | ⟨name, value⟩ :: bindings => ⟨m.text name, value.mask m⟩ :: maskBindings m bindings

end

end Expr

def Form.mask (m : Mask) : Form → Form
  | definition name value => definition (m.text name) (value.mask m)
  | expression e => expression (e.mask m)

def Script.mask (m : Mask) : Script → Script
  | program forms => program (forms.map (Form.mask m))
  | form f => form (f.mask m)

/-- Seen through `k`, no node shows what the mask changes. -/
structure Mask.Hidden (m : Mask) (k : Entry → Entry) : Prop where
  number : ∀ c ∈ [Category.number, .numberDatum], ∀ x : Binary64,
    k ⟨c, c.labelWith (m.number x).text⟩ = k ⟨c, c.labelWith x.text⟩
  boolean : ∀ c ∈ [Category.boolean, .booleanDatum], ∀ b,
    k ⟨c, c.labelWith (Word.ofBool (m.boolean b))⟩ = k ⟨c, c.labelWith (Word.ofBool b)⟩
  text : ∀ c ∈ [Category.string, .primitive, .reference, .declaration, .stringDatum], ∀ text,
    k ⟨c, c.labelWith (m.text text)⟩ = k ⟨c, c.labelWith text⟩
  kind : ∀ kind : LetKind,
    k ⟨(m.kind kind).category, (m.kind kind).category.name⟩ = k ⟨kind.category, kind.category.name⟩

open Outline

section Hidden

variable {m : Mask} {k : Entry → Entry}

theorem Outline.frame_showing_eq {c : Category} {text text' : String}
    (h : k ⟨c, c.labelWith text⟩ = k ⟨c, c.labelWith text'⟩) :
    (showing c text).frame k = (showing c text').frame k := by
  rw [showing, showing, frame, frame, h]

theorem Datum.frame_outline_mask (h : m.Hidden k) (d : Datum) :
    (d.mask m).outline.frame k = d.outline.frame k := by
  induction d with
  | empty => rfl
  | symbol name =>
    simp only [mask, outline, named, frame, fieldFrames, h.text .stringDatum (by simp)]
  | pair first rest ih1 ih2 => simp only [mask, outline, named, frame, fieldFrames, ih1, ih2]
  | number x => exact frame_showing_eq (h.number _ (by simp) x)
  | boolean b => exact frame_showing_eq (h.boolean _ (by simp) b)
  | string text => exact frame_showing_eq (h.text _ (by simp) text)

theorem frame_declarationOutline_mask (h : m.Hidden k) (name : String) :
    (declarationOutline (m.text name)).frame k = (declarationOutline name).frame k :=
  frame_showing_eq (h.text _ (by simp) name)

theorem frames_declarationOutline_mask (h : m.Hidden k) (names : List String) :
    frames k ((names.map m.text).map declarationOutline)
      = frames k (names.map declarationOutline) := by
  rw [frames_eq, frames_eq, List.map_map, List.map_map, List.map_map]
  exact List.map_congr_left fun name _ => frame_declarationOutline_mask h name

namespace Expr

mutual

theorem frame_outline_mask (h : m.Hidden k) : ∀ e : Expr,
    (e.mask m).outline.frame k = e.outline.frame k
  | number x => frame_showing_eq (h.number _ (by simp) x)
  | boolean b => frame_showing_eq (h.boolean _ (by simp) b)
  | string text => frame_showing_eq (h.text _ (by simp) text)
  | primitive name => frame_showing_eq (h.text _ (by simp) name)
  | reference name => frame_showing_eq (h.text _ (by simp) name)
  | lambda params body => by
    simp only [mask, outline, named, frame, fieldFrames, frames_declarationOutline_mask h,
      frames_outlines_maskAll h body]
  | conditional test consequent alternative => by
    simp only [mask, outline, named, frame, fieldFrames, frame_outline_mask h test,
      frame_outline_mask h consequent, frame_outline_mask h alternative]
  | application operator operands => by
    simp only [mask, outline, named, frame, fieldFrames, frame_outline_mask h operator,
      frames_outlines_maskAll h operands]
  | letIn kind bindings body => by
    simp only [mask, outline, named, frame, fieldFrames, h.kind,
      frames_bindingOutlines_maskBindings h bindings, frames_outlines_maskAll h body]
  | quotation datum => by
    simp only [mask, outline, named, frame, fieldFrames, datum.frame_outline_mask h]
  | assignment target value => by
    simp only [mask, outline, named, frame, fieldFrames, h.text .reference (by simp),
      frame_outline_mask h value]

theorem frames_outlines_maskAll (h : m.Hidden k) : ∀ es : List Expr,
    frames k (outlines (maskAll m es)) = frames k (outlines es)
  | [] => rfl
  | e :: es => by
    simp only [maskAll, outlines, frames, frame_outline_mask h e, frames_outlines_maskAll h es]

theorem frames_bindingOutlines_maskBindings (h : m.Hidden k) : ∀ bindings : List (Binding Expr),
    frames k (bindingOutlines (maskBindings m bindings)) = frames k (bindingOutlines bindings)
  | [] => rfl
  | ⟨name, value⟩ :: bindings => by
    simp only [maskBindings, bindingOutlines, named, frames, frame, fieldFrames,
      frame_declarationOutline_mask h, frame_outline_mask h value,
      frames_bindingOutlines_maskBindings h bindings]

end

end Expr

theorem Form.frame_outline_mask (h : m.Hidden k) : ∀ f : Form,
    (f.mask m).outline.frame k = f.outline.frame k
  | definition name value => by
    simp only [mask, outline, named, frame, fieldFrames, frame_declarationOutline_mask h,
      value.frame_outline_mask h]
  | expression e => e.frame_outline_mask h

theorem Script.frame_outline_mask (h : m.Hidden k) : ∀ s : Script,
    (s.mask m).outline.frame k = s.outline.frame k
  | program forms => by
    have hforms : frames k ((forms.map (Form.mask m)).map Form.outline)
        = frames k (forms.map Form.outline) := by
      rw [frames_eq, frames_eq, List.map_map, List.map_map, List.map_map]
      exact List.map_congr_left fun f _ => f.frame_outline_mask h
    simp only [mask, outline, named, frame, fieldFrames, hforms]
  | form f => f.frame_outline_mask h

theorem Script.frame_eq_of_mask_eq (h : m.Hidden k) {p q : Script} (hpq : p.mask m = q.mask m) :
    p.outline.frame k = q.outline.frame k := by
  rw [← p.frame_outline_mask h, hpq, q.frame_outline_mask h]

end Hidden

end SyntaxChart
