import SyntaxChart.Proofs.Captions
import SyntaxChart.Proofs.Declarations

/-!
# Quotes around the source

The serializer decides by the first letters of a label whether to quote it. For the charts of
scripts this is a decision by category: quoted are the labels of the nine categories with a caption,
whatever the caption is, and no other label of a chart begins like one of these
(`Mermaid.QuotedByCategory`). So nothing of the source stands outside quotes: the identifiers and
the edges of a chart give a template of its text (`Mermaid.template`), with places for the captions,
each in quotes, and with nothing else left open. Scripts that differ only in what they name, count
and spell fill the same template (`Script.chart_text_quotes`).
-/

namespace SyntaxChart

namespace Category

theorem hasCaption_iff_name_mem (c : Category) :
    c.hasCaption = true ↔ c.name ∈ Mermaid.quotedNames := by
  cases c <;> decide

theorem fixedLabel_eq_colon_iff (c : Category) : c.fixedLabel = ":" ↔ c.isGroup = true := by
  cases c <;> decide

theorem hasCaption_of_isGroup {c : Category} (hg : c.isGroup = true) : c.hasCaption = false := by
  cases c <;> first | rfl | cases hg

end Category

namespace Mermaid

theorem isQuoted_labelWith {c : Category} (hc : c.hasCaption = true) (text : String) :
    isQuoted (c.labelWith text) = true := by
  refine List.any_eq_true.2 ⟨c.name, c.hasCaption_iff_name_mem.1 hc, ?_⟩
  rw [List.isPrefixOf_iff_prefix, Category.labelWith]
  simp only [String.toList_append, List.append_assoc]
  exact List.prefix_append _ _

/-- No label that shows nothing of the source begins like one that does. -/
theorem isQuoted_fixedLabel {c : Category} (hc : c.hasCaption = false) :
    isQuoted c.fixedLabel = false := by
  revert hc
  cases c <;> decide

/-- A node's label is in quotes exactly if its category has captions, and is the category's own
label otherwise. -/
structure QuotedByCategory (n : Node) : Prop where
  quoted_iff : labelText n.label = "\"" ++ n.label ++ "\"" ↔ n.id.category.hasCaption = true
  bare_iff : labelText n.label = n.label ↔ n.id.category.hasCaption = false
  exists_payload : n.id.category.hasCaption = true →
    ∃ payload, n.label = n.id.category.name ++ "(" ++ payload ++ ")"
  label_eq : n.id.category.hasCaption = false →
    n.label = if n.id.category.isGroup then ":" else n.id.category.name
  colon_iff : n.label = ":" ↔ n.id.category.isGroup = true

theorem quoted_ne (label : String) : "\"" ++ label ++ "\"" ≠ label := fun h => by
  have := congrArg String.length h
  simp only [String.length_append] at this
  have hquote : "\"".length = 1 := rfl
  omega

theorem labelText_eq_quoted_iff {label : String} :
    labelText label = "\"" ++ label ++ "\"" ↔ isQuoted label = true := by
  rw [labelText]
  split_ifs with h
  · exact iff_of_true rfl h
  · exact iff_of_false (quoted_ne label).symm h

theorem labelText_eq_self_iff {label : String} :
    labelText label = label ↔ isQuoted label = false := by
  rw [labelText]
  split_ifs with h
  · exact iff_of_false (quoted_ne label) (by simp [h])
  · exact iff_of_true rfl (by simpa using h)

theorem isQuoted_label {n : Node} {caption : Option String} (h : n.entry.Captioned caption) :
    isQuoted n.label = n.id.category.hasCaption := by
  cases caption with
  | none =>
    obtain ⟨hc, hlabel⟩ : n.id.category.hasCaption = false ∧ n.label = n.id.category.fixedLabel := h
    rw [hc, hlabel, isQuoted_fixedLabel hc]
  | some text =>
    obtain ⟨hc, hlabel⟩ : n.id.category.hasCaption = true
      ∧ n.label = n.id.category.labelWith text := h
    rw [hc, hlabel, isQuoted_labelWith hc]

theorem quotedByCategory {n : Node} {caption : Option String} (h : n.entry.Captioned caption) :
    QuotedByCategory n := by
  refine ⟨?_, ?_, fun hc => ?_, h.label_eq, fun hl => ?_, fun hg => ?_⟩
  · rw [labelText_eq_quoted_iff, isQuoted_label h]
  · rw [labelText_eq_self_iff, isQuoted_label h]
  · cases caption with
    | none => exact absurd (h.1.symm.trans hc) Bool.false_ne_true
    | some text => exact ⟨text, h.2⟩
  -- a colon is not quoted, so the category has no captions
  · have hc : n.id.category.hasCaption = false := by
      rw [← isQuoted_label h, hl]
      decide
    exact (Category.fixedLabel_eq_colon_iff _).1 ((h.label_eq hc).symm.trans hl)
  · have hc : n.id.category.hasCaption = false := Category.hasCaption_of_isGroup hg
    exact (h.label_eq hc).trans ((Category.fixedLabel_eq_colon_iff _).2 hg)

/-! ## Texts with places for captions -/

/-- A part of a text: one that is always the same, or a place for the caption of a node. -/
inductive Piece where
  | fixed (text : String)
  | shown (c : Category) (place : Nat)

/-- The text of pieces, with captions in their places. Each stands in quotes. -/
inductive Fills (captions : List (Option String)) : List Piece → String → Prop
  | nil : Fills captions [] ""
  | fixed (text : String) {pieces : List Piece} {rest : String} :
      Fills captions pieces rest → Fills captions (.fixed text :: pieces) (text ++ rest)
  | shown {c : Category} {place : Nat} {caption : String} {pieces : List Piece} {rest : String} :
      c.hasCaption = true → captions[place]? = some (some caption) → Fills captions pieces rest →
        Fills captions (.shown c place :: pieces) ("[\"" ++ c.labelWith caption ++ "\"]" ++ rest)

variable {captions : List (Option String)}

theorem Fills.append {pieces more : List Piece} {text rest : String}
    (h : Fills captions pieces text) (hrest : Fills captions more rest) :
    Fills captions (pieces ++ more) (text ++ rest) := by
  induction h with
  | nil => rwa [String.empty_append]
  | fixed text _ ih =>
    rw [String.append_assoc]
    exact .fixed text ih
  | shown hc hcaption _ ih =>
    rw [String.append_assoc]
    exact .shown hc hcaption ih

def declarationPieces (ids : List NodeId) (id : NodeId) : List Piece :=
  [.fixed id.text, if id.category.hasCaption then .shown id.category (ids.idxOf id)
    else .fixed ("[" ++ id.category.fixedLabel ++ "]")]

/-- What a line has behind its source. -/
def targetPieces (ids : List NodeId) (e : Edge) : List Piece :=
  .fixed (" -->" ++ roleText e.role) :: declarationPieces ids e.target

/-- The text of a chart with nodes of these identifiers, and with these edges, up to captions. -/
def template (d : Direction) (ids : List NodeId) : List Edge → List Piece
  | [] => []
  | e :: edges =>
    .fixed (header d) :: declarationPieces ids e.source ++ (targetPieces ids e
      ++ edges.flatMap fun f => .fixed ("\n" ++ f.source.text) :: targetPieces ids f)

theorem bracketed_quoted (label : String) :
    "[" ++ ("\"" ++ label ++ "\"") ++ "]" = "[\"" ++ label ++ "\"]" := by
  rw [← String.toList_inj]
  simp

variable {nodes : List Node}

theorem fills_declarationPieces (hnd : (nodes.map Node.id).Nodup)
    (h : List.Forall₂ (fun n caption => n.entry.Captioned caption) nodes captions) {n : Node}
    (hn : n ∈ nodes) :
    Fills captions (declarationPieces (nodes.map Node.id) n.id) (Mention.declaration n).text := by
  obtain ⟨i, hi, rfl⟩ := List.getElem_of_mem hn
  have hi' : i < captions.length := h.length_eq ▸ hi
  have hcaptioned : nodes[i].entry.Captioned captions[i] := h.get hi hi'
  have hplace : (nodes.map Node.id).idxOf nodes[i].id = i := by
    have := hnd.idxOf_getElem i (by simpa using hi)
    rwa [List.getElem_map] at this
  have htext : (Mention.declaration nodes[i]).text
      = nodes[i].id.text ++ ("[" ++ labelText nodes[i].label ++ "]" ++ "") := by
    rw [Mention.text, String.append_empty, String.append_assoc, String.append_assoc,
      String.append_assoc]
  rw [htext, declarationPieces, hplace]
  refine .fixed _ ?_
  rcases hcaption : captions[i] with _ | text <;> rw [hcaption] at hcaptioned
  · obtain ⟨hc, hlabel⟩ : nodes[i].id.category.hasCaption = false
      ∧ nodes[i].label = nodes[i].id.category.fixedLabel := hcaptioned
    rw [if_neg (by simp [hc]), labelText_eq_self_iff.2 (hlabel ▸ isQuoted_fixedLabel hc), hlabel]
    exact .fixed _ .nil
  · obtain ⟨hc, hlabel⟩ : nodes[i].id.category.hasCaption = true
      ∧ nodes[i].label = nodes[i].id.category.labelWith text := hcaptioned
    rw [if_pos hc, labelText_eq_quoted_iff.2 (hlabel ▸ isQuoted_labelWith hc text), hlabel,
      bracketed_quoted]
    exact .shown hc (by rw [List.getElem?_eq_getElem hi', hcaption]) .nil

theorem intercalate_cons (separator line : String) (lines : List String) :
    separator.intercalate (line :: lines) = line ++ String.join (lines.map (separator ++ ·)) := by
  induction lines generalizing line with
  | nil => simp
  | cons next lines ih =>
    rw [String.intercalate_cons_cons, ih, List.map_cons, String.join_cons]
    simp only [String.append_assoc]

/-- What a line that declares its target has behind its source. -/
def targetText (step : Edge × Node) : String :=
  " -->" ++ roleText step.1.role ++ (Mention.declaration step.2).text

theorem edgeText_eq (source : Mention) (step : Edge × Node) :
    edgeText source step.1.role (.declaration step.2) = source.text ++ targetText step := by
  rw [edgeText, targetText, String.append_assoc, String.append_assoc, String.append_assoc]

theorem fills_lines {ids : List NodeId} : ∀ steps : List (Edge × Node),
    (∀ step ∈ steps, Fills captions (targetPieces ids step.1) (targetText step)) →
      Fills captions
        ((steps.map Prod.fst).flatMap fun e => .fixed ("\n" ++ e.source.text) :: targetPieces ids e)
        (String.join ((steps.map declaringLine).map ("\n" ++ ·)))
  | [], _ => .nil
  | step :: steps, h => by
    have hstep := h step List.mem_cons_self
    have hsteps := fills_lines steps fun other hother => h other (List.mem_cons_of_mem _ hother)
    have hline : "\n" ++ declaringLine step = "\n" ++ step.1.source.text ++ targetText step := by
      rw [declaringLine, edgeText_eq, Mention.text, String.append_assoc]
    simp only [List.map_cons, List.flatMap_cons, String.join_cons, hline]
    exact (Fills.fixed _ hstep).append hsteps

end Mermaid

namespace Script

open Mermaid

theorem Draws.fills_template {s : Script} {nodes : List Node} (h : s.Draws nodes) (d : Direction)
    (hne : s.drawing.wiring.edges ≠ []) :
    Fills s.captions (template d ((s.rootNode :: nodes).map Node.id) s.drawing.wiring.edges)
      (s.chart d).text := by
  obtain ⟨first, rest, he, htarget, hperm, htext⟩ := h.chart_text d hne
  have hsource : first.1.source = s.rootNode.id := by
    have hcon := h.connected
    rw [he] at hcon
    exact List.mem_singleton.1 hcon.1
  have hdeclaration {n : Node} (hn : n ∈ s.rootNode :: nodes) :=
    fills_declarationPieces h.nodup h.captioned hn
  have htargets (step : Edge × Node) (hstep : step ∈ first :: rest) :
      Fills s.captions (targetPieces ((s.rootNode :: nodes).map Node.id) step.1)
        (targetText step) := by
    rw [targetPieces, htarget step hstep]
    exact .fixed _ (hdeclaration (List.mem_cons_of_mem _
      (hperm.mem_iff.1 (List.mem_map_of_mem hstep))))
  rw [htext, he, List.map_cons (f := Prod.fst), template, hsource, intercalate_cons, edgeText_eq,
    String.append_assoc]
  have hlines := fills_lines rest fun step hstep => htargets step (List.mem_cons_of_mem _ hstep)
  exact .fixed _ ((hdeclaration List.mem_cons_self).append
    ((htargets first List.mem_cons_self).append hlines))

/-- Whatever characters the names, strings and symbols of a script have, the labels in its chart are
quoted by category. The chart's text is the template of its identifiers and edges, filled with the
captions of its nodes, each in quotes of the serializer. All scripts of the same syntax share the
template. -/
theorem chart_text_quotes (s : Script) (d : Direction) {nodes : List Node} {edges : List Edge}
    (h : (s.chart d).content = .compound nodes edges) :
    (∀ n ∈ nodes, QuotedByCategory n)
      ∧ List.Forall₂ (fun n caption => n.entry.Captioned caption) nodes s.captions
      ∧ Fills s.captions (template d (nodes.map Node.id) edges) (s.chart d).text
      ∧ ∀ q : Script, q.mask .erasing = s.mask .erasing →
        Fills q.captions (template d (nodes.map Node.id) edges) (q.chart d).text := by
  obtain ⟨below, hs, rfl, rfl, hne⟩ := exists_draws_of_compound h
  refine ⟨?_, hs.captioned, hs.fills_template d hne, fun q hq => ?_⟩
  · have hquoted := hs.captioned.imp fun _ _ hc => And.intro (quotedByCategory hc) hc
    exact ((List.forall₂_and_left _ _).1 hquoted).1
  · obtain ⟨below', hdraws⟩ := q.exists_draws
    have hframe := frame_eq_of_mask_eq Mask.hidden_erasing hq.symm
    rw [hs.map_id_eq hdraws hframe, ← hs.edges_eq hdraws hframe]
    exact hdraws.fills_template d (hs.edges_eq hdraws hframe ▸ hne)

/-- A string that closes its own quotes and draws an edge of its own. -/
theorem chart_text_quotes_string :
    let s := form (.expression (.application (.primitive "+") [.string "\"] --> x[\""]))
    ∃ nodes edges, (s.chart .topDown).content = .compound nodes edges
      ∧ nodes.length = 4
      ∧ (∀ n ∈ nodes, QuotedByCategory n)
      ∧ List.Forall₂ (fun n caption => n.entry.Captioned caption) nodes s.captions
      ∧ Fills s.captions (template .topDown (nodes.map Node.id) edges) (s.chart .topDown).text
      ∧ ∀ q : Script, q.mask .erasing = s.mask .erasing →
        Fills q.captions (template .topDown (nodes.map Node.id) edges) (q.chart .topDown).text :=
  ⟨_, _, rfl, rfl, chart_text_quotes _ _ rfl⟩

end Script

end SyntaxChart
