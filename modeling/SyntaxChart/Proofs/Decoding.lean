import SyntaxChart.Proofs.Declarations
import SyntaxChart.Proofs.Legibility

/-!
# Decoding the text of a chart

Nothing in the text of a chart is escaped, so a label can hold every delimiter of the notation. The
text is still that of one drawing only, because each line has one label of the source at most and
has it at the end: up to there an identifier ends at a blank or a bracket and a role at a bar, which
neither of them contains (`Mermaid.declaringLine_inj`). The lines themselves are told apart by the
line feeds, of which a legible label has none.
-/

namespace SyntaxChart

namespace Mermaid

theorem toList_declaration (n : Node) :
    (Mention.declaration n).text.toList
      = n.id.text.toList ++ '[' :: ((labelText n.label).toList ++ [']']) := by
  simp [Mention.text]

theorem toList_edgeText (source target : Mention) (role : Option String) :
    (edgeText source role target).toList
      = source.text.toList
        ++ ' ' :: '-' :: '-' :: '>' :: ((roleText role).toList ++ target.text.toList) := by
  simp [edgeText]

/-! ## What a line tells -/

theorem toList_labelText_of_isQuoted {label : String} (h : isQuoted label = true) :
    (labelText label).toList = '"' :: (label.toList ++ ['"']) := by
  rw [labelText, if_pos h]
  simp

theorem toList_labelText_of_not_isQuoted {label : String} (h : ¬isQuoted label = true) :
    (labelText label).toList = label.toList := by
  rw [labelText, if_neg h]

/-- A label is quoted or not, and what is not quoted does not begin with a quote. -/
theorem labelText_inj {a b : String} (ha : a.toList.head? ≠ some '"')
    (hb : b.toList.head? ≠ some '"') (h : (labelText a).toList = (labelText b).toList) :
    a = b := by
  by_cases hqa : isQuoted a = true <;> by_cases hqb : isQuoted b = true
  · rw [toList_labelText_of_isQuoted hqa, toList_labelText_of_isQuoted hqb, List.cons.injEq] at h
    exact String.toList_inj.1 (List.append_cancel_right h.2)
  · rw [toList_labelText_of_isQuoted hqa, toList_labelText_of_not_isQuoted hqb] at h
    exact absurd (by rw [← h, List.head?_cons]) hb
  · rw [toList_labelText_of_not_isQuoted hqa, toList_labelText_of_isQuoted hqb] at h
    exact absurd (by rw [h, List.head?_cons]) ha
  · rw [toList_labelText_of_not_isQuoted hqa, toList_labelText_of_not_isQuoted hqb] at h
    exact String.toList_inj.1 h

theorem declaration_inj {m n : Node} (hm : m.IsLegible) (hn : n.IsLegible)
    (h : (Mention.declaration m).text.toList = (Mention.declaration n).text.toList) : m = n := by
  rw [toList_declaration, toList_declaration] at h
  obtain ⟨hid, hlabel⟩ := NodeId.text_append_inj (by decide) h
  have hlabel := labelText_inj hm.2 hn.2 (List.append_cancel_right hlabel)
  cases m
  cases n
  simp_all

theorem bar_notMem {role : String} (h : PlainRole role) : '|' ∉ role.toList := fun hb =>
  absurd (h _ hb) (by decide)

/-- A role ends at its second bar; without a role there is no bar. -/
theorem roleText_append_inj : ∀ {r r' : Option String} {cs ds : List Char},
    (∀ role ∈ r, PlainRole role) → (∀ role ∈ r', PlainRole role) →
    (roleText r).toList ++ cs = (roleText r').toList ++ ds → r = r' ∧ cs = ds
  | none, none, _, _, _, _, h => ⟨rfl, List.append_cancel_left h⟩
  | none, some role, _, _, _, _, h | some role, none, _, _, _, _, h => by
    simp [roleText] at h
  | some role, some role', cs, ds, hr, hr', h => by
    simp only [roleText, String.toList_append, List.append_assoc] at h
    obtain ⟨hrole, h⟩ := append_cons_inj (bar_notMem (hr role rfl)) (bar_notMem (hr' role' rfl))
      (List.append_cancel_left h)
    exact ⟨congrArg some (String.toList_inj.1 hrole), (List.cons.inj h).2⟩

/-- A step whose line can be decoded: its edge leads to its node, and both are legible. -/
structure Legible (step : Edge × Node) : Prop where
  target : step.1.target = step.2.id
  role : step.1.IsLegible
  label : step.2.IsLegible

theorem step_eq {s t : Edge × Node} (hs : Legible s) (ht : Legible t)
    (hsource : s.1.source = t.1.source)
    (h : (roleText s.1.role).toList ++ (Mention.declaration s.2).text.toList
      = (roleText t.1.role).toList ++ (Mention.declaration t.2).text.toList) : s = t := by
  obtain ⟨hrole, htext⟩ := roleText_append_inj hs.role ht.role h
  have hnode := declaration_inj hs.label ht.label htext
  have htarget : s.1.target = t.1.target := by rw [hs.target, ht.target, hnode]
  obtain ⟨⟨_, _, _⟩, _⟩ := s
  obtain ⟨⟨_, _, _⟩, _⟩ := t
  simp_all

theorem declaringLine_inj {s t : Edge × Node} (hs : Legible s) (ht : Legible t)
    (h : declaringLine s = declaringLine t) : s = t := by
  have h := congrArg String.toList h
  rw [declaringLine, declaringLine, toList_edgeText, toList_edgeText] at h
  obtain ⟨hsource, h⟩ := NodeId.text_append_inj (by decide) h
  simp only [List.cons.injEq, true_and] at h
  exact step_eq hs ht hsource h

/-- The first line tells the root too, where that shows the name of its category. -/
theorem firstLine_inj {m n : Node} {s t : Edge × Node} (hm : m.label = m.id.category.name)
    (hn : n.label = n.id.category.name) (hs : Legible s) (ht : Legible t)
    (hsource : s.1.source = m.id) (hsource' : t.1.source = n.id)
    (h : edgeText (.declaration m) s.1.role (.declaration s.2)
      = edgeText (.declaration n) t.1.role (.declaration t.2)) : m = n ∧ s = t := by
  have h := congrArg String.toList h
  rw [toList_edgeText, toList_edgeText] at h
  -- the labels of the roots are known from the identifiers, so they need not be taken apart
  have hroot : m.id = n.id := by
    rw [toList_declaration m, toList_declaration n, List.append_assoc, List.append_assoc,
      List.cons_append, List.cons_append] at h
    exact (NodeId.text_append_inj (by decide) h).1
  obtain rfl : m = n := by
    obtain ⟨mid, ml⟩ := m
    obtain ⟨nid, nl⟩ := n
    simp_all
  have h := List.append_cancel_left h
  simp only [List.cons.injEq, true_and] at h
  exact ⟨rfl, step_eq hs ht (hsource.trans hsource'.symm) h⟩

/-! ## Lines and headers -/

theorem oneLine_id (id : NodeId) : OneLine id.text := fun h =>
  absurd (NodeId.isAlphanum_of_mem_text h) (by decide)

theorem oneLine_declaration {n : Node} (h : OneLine n.label) :
    OneLine (Mention.declaration n).text := by
  unfold OneLine at h
  have hid := oneLine_id n.id
  unfold OneLine at hid ⊢
  rw [toList_declaration]
  by_cases hq : isQuoted n.label = true
  · simp [toList_labelText_of_isQuoted hq, h, hid]
  · simp [toList_labelText_of_not_isQuoted hq, h, hid]

theorem oneLine_roleText {role : Option String} (h : ∀ r ∈ role, PlainRole r) :
    OneLine (roleText role) := by
  cases role with
  | none => simp [OneLine, roleText]
  | some r =>
    have hr : '\n' ∉ r.toList := fun hm => absurd (h r rfl _ hm) (by decide)
    simp [OneLine, roleText, hr]

theorem oneLine_edgeText {source target : Mention} {role : Option String}
    (hs : OneLine source.text) (hr : ∀ r ∈ role, PlainRole r) (ht : OneLine target.text) :
    OneLine (edgeText source role target) := by
  have hr := oneLine_roleText hr
  unfold OneLine at *
  rw [toList_edgeText]
  simp [hs, hr, ht]

/-- Lines without line feeds can be told from the text they make. -/
theorem intercalate_inj {ls ms : List String} (hl : ∀ l ∈ ls, OneLine l)
    (hm : ∀ m ∈ ms, OneLine m) (hls : ls ≠ []) (hms : ms ≠ [])
    (h : "\n".intercalate ls = "\n".intercalate ms) : ls = ms := by
  have hsplit : ∀ ns : List String, (∀ n ∈ ns, OneLine n) → ns ≠ [] →
      ("\n".intercalate ns).toList.splitOn '\n' = ns.map String.toList := fun ns hn hns => by
    rw [String.toList_intercalate]
    refine List.splitOn_intercalate '\n' (fun l hl => ?_) (by simpa using hns)
    obtain ⟨n, hmem, rfl⟩ := List.mem_map.1 hl
    exact hn n hmem
  have heq : ls.map String.toList = ms.map String.toList := by
    rw [← hsplit ls hl hls, ← hsplit ms hm hms, h]
  exact List.map_injective_iff.2 (fun _ _ => String.toList_inj.1) heq

theorem header_append_inj {d e : Direction} {s t : String}
    (h : header d ++ s = header e ++ t) : d = e ∧ s = t := by
  have h := congrArg String.toList h
  cases d <;> cases e <;> simp [header, Direction.code] at h ⊢ <;> exact String.toList_inj.1 h

theorem map_declaringLine_inj : ∀ {ss ts : List (Edge × Node)}, (∀ s ∈ ss, Legible s) →
    (∀ t ∈ ts, Legible t) → ss.map declaringLine = ts.map declaringLine → ss = ts
  | [], [], _, _, _ => rfl
  | [], _ :: _, _, _, h | _ :: _, [], _, _, h => by simp at h
  | s :: ss, t :: ts, hs, ht, h => by
    rw [List.forall_mem_cons] at hs ht
    rw [List.map_cons, List.map_cons, List.cons.injEq] at h
    rw [declaringLine_inj hs.1 ht.1 h.1, map_declaringLine_inj hs.2 ht.2 h.2]

end Mermaid

/-! ## What the text of a script's chart tells -/

namespace Script

open Mermaid

theorem toList_text_rootNode (s : Script) :
    s.rootNode.id.text.toList = s.outline.category.name.toList ++ ['_', '1'] := by
  rw [NodeId.toList_text]
  show _ ++ '_' :: Nat.toDigits 10 1 = _
  rw [Nat.toDigits_of_lt_base (by decide)]
  rfl

theorem text_of_atomic {s : Script} {d : Direction} {n : Node}
    (h : (s.chart d).content = .atomic n) :
    (s.chart d).text = header d ++ (n.id.text ++ n.label) := by
  rw [Chart.text, h, ← String.append_assoc]
  rfl

/-- Behind the root's identifier there is a bracket if the chart has edges, and else a letter. -/
theorem atomic_ne_lines {s t : Script} (hs : ∀ x ∈ s.texts, OneLine x) {line : String}
    {lines : List String} (hline : ∃ cs, line.toList = t.rootNode.id.text.toList ++ '[' :: cs) :
    s.rootNode.id.text ++ s.rootNode.label ≠ "\n".intercalate (line :: lines) := fun h => by
  obtain ⟨cs, hcs⟩ := hline
  obtain ⟨behind, hbehind⟩ : ∃ behind, "\n".intercalate (line :: lines) = line ++ behind := by
    cases lines with
    | nil => exact ⟨"", by simp⟩
    | cons l lines => exact ⟨"\n" ++ "\n".intercalate (l :: lines), by simp [String.append_assoc]⟩
  obtain ⟨x, xs, hx, halpha⟩ := (shows_rootNode hs).head?_isAlpha
  have h := congrArg String.toList (h.trans hbehind)
  simp only [String.toList_append, toList_text_rootNode, hcs, hx, List.append_assoc,
    List.cons_append, List.nil_append] at h
  obtain ⟨-, h⟩ := Category.name_append_inj h
  simp only [List.cons.injEq, true_and] at h
  rw [h.1] at halpha
  cases halpha

theorem rootNode_eq {s t : Script} (hc : s.outline.category = t.outline.category)
    (hl : s.rootNode.label = t.rootNode.label) : s.rootNode = t.rootNode := by
  have hl : s.outline.label = t.outline.label := hl
  rw [rootNode, rootNode, hc, hl]

theorem rootNode_eq_of_atomic {s t : Script} (h : s.rootNode.id.text ++ s.rootNode.label
    = t.rootNode.id.text ++ t.rootNode.label) : s.rootNode = t.rootNode := by
  have h := congrArg String.toList h
  simp only [String.toList_append, toList_text_rootNode, List.append_assoc, List.cons_append,
    List.nil_append] at h
  obtain ⟨hcategory, hlabel⟩ := Category.name_append_inj h
  simp only [List.cons.injEq, true_and] at hlabel
  exact rootNode_eq hcategory (String.toList_inj.1 hlabel)

/-- The lines of a chart with edges, each of which can be decoded. -/
structure Lines (s : Script) (d : Direction) (nodes : List Node) (first : Edge × Node)
    (rest : List (Edge × Node)) : Prop where
  edges : s.drawing.wiring.edges = (first :: rest).map Prod.fst
  nodes : ((first :: rest).map Prod.snd).Perm nodes
  root : s.rootNode.label = s.rootNode.id.category.name
  source : first.1.source = s.rootNode.id
  legible : ∀ step ∈ first :: rest, Legible step
  text : (s.chart d).text = header d ++ "\n".intercalate
    (edgeText (.declaration s.rootNode) first.1.role (.declaration first.2)
      :: rest.map declaringLine)

theorem Draws.exists_lines {s : Script} {nodes : List Node} (h : s.Draws nodes)
    (ht : ∀ t ∈ s.texts, OneLine t) (d : Direction) (hne : s.drawing.wiring.edges ≠ []) :
    ∃ first rest, s.Lines d nodes first rest := by
  obtain ⟨first, rest, he, htarget, hperm, htext⟩ := h.chart_text d hne
  obtain ⟨hnodes, hedges⟩ := h.legible ht
  have hcon : Connected [s.rootNode.id] ((first :: rest).map Prod.fst) := he ▸ h.connected
  refine ⟨first, rest, he, hperm, h.label_rootNode ht hne, List.mem_singleton.1 hcon.1,
    fun step hstep => ⟨htarget step hstep, hedges _ ?_, hnodes _ ?_⟩, htext⟩
  · exact he ▸ List.mem_map_of_mem hstep
  · exact hperm.mem_iff.1 (List.mem_map_of_mem hstep)

theorem Lines.oneLine {s : Script} {d : Direction} {nodes : List Node} {first : Edge × Node}
    {rest : List (Edge × Node)} (h : s.Lines d nodes first rest) :
    ∀ line ∈ edgeText (.declaration s.rootNode) first.1.role (.declaration first.2)
      :: rest.map declaringLine, OneLine line := by
  have hlegible := h.legible
  rw [List.forall_mem_cons] at hlegible
  rw [List.forall_mem_cons, List.forall_mem_map]
  refine ⟨oneLine_edgeText (oneLine_declaration ?_) hlegible.1.role
    (oneLine_declaration hlegible.1.label.1), fun step hstep => ?_⟩
  · rw [h.root]
    exact Category.oneLine_name _
  · have hs := hlegible.2 step hstep
    exact oneLine_edgeText (oneLine_id _) hs.role (oneLine_declaration hs.label.1)

theorem Lines.toList_first {s : Script} {d : Direction} {nodes : List Node} {first : Edge × Node}
    {rest : List (Edge × Node)} (_ : s.Lines d nodes first rest) :
    ∃ cs, (edgeText (.declaration s.rootNode) first.1.role (.declaration first.2)).toList
      = s.rootNode.id.text.toList ++ '[' :: cs := by
  rw [toList_edgeText, toList_declaration s.rootNode, List.append_assoc, List.cons_append]
  exact ⟨_, rfl⟩

/-- From an equal text, two scripts with their texts on one line were drawn in one direction and
have the same root, nodes and edges. -/
theorem drawing_eq_of_text_eq {p q : Script} {nodes nodes' : List Node} {d e : Direction}
    (hp : p.Draws nodes) (hq : q.Draws nodes') (htp : ∀ t ∈ p.texts, OneLine t)
    (htq : ∀ t ∈ q.texts, OneLine t) (h : (p.chart d).text = (q.chart e).text) :
    d = e ∧ p.rootNode = q.rootNode ∧ nodes.Perm nodes'
      ∧ p.drawing.wiring.edges = q.drawing.wiring.edges := by
  rcases hp.chart_content d with ⟨hep, hnp, hcp⟩ | ⟨hep, -⟩ <;>
    rcases hq.chart_content e with ⟨heq, hnq, hcq⟩ | ⟨heq, -⟩
  · rw [text_of_atomic hcp, text_of_atomic hcq] at h
    obtain ⟨hd, h⟩ := header_append_inj h
    exact ⟨hd, rootNode_eq_of_atomic h, hnp ▸ hnq ▸ .nil, hep.trans heq.symm⟩
  · obtain ⟨first, rest, hl⟩ := hq.exists_lines htq e heq
    rw [text_of_atomic hcp, hl.text] at h
    exact absurd (header_append_inj h).2 (atomic_ne_lines htp hl.toList_first)
  · obtain ⟨first, rest, hl⟩ := hp.exists_lines htp d hep
    rw [text_of_atomic hcq, hl.text] at h
    exact absurd (header_append_inj h).2.symm (atomic_ne_lines htq hl.toList_first)
  · obtain ⟨first, rest, hl⟩ := hp.exists_lines htp d hep
    obtain ⟨first', rest', hl'⟩ := hq.exists_lines htq e heq
    rw [hl.text, hl'.text] at h
    obtain ⟨hd, h⟩ := header_append_inj h
    have h := intercalate_inj hl.oneLine hl'.oneLine (by simp) (by simp) h
    rw [List.cons.injEq] at h
    have hlegible := hl.legible
    have hlegible' := hl'.legible
    rw [List.forall_mem_cons] at hlegible hlegible'
    obtain ⟨hroot, rfl⟩ := firstLine_inj hl.root hl'.root hlegible.1 hlegible'.1 hl.source
      hl'.source h.1
    obtain rfl := map_declaringLine_inj hlegible.2 hlegible'.2 h.2
    exact ⟨hd, hroot, hl.nodes.symm.trans hl'.nodes, hl.edges.trans hl'.edges.symm⟩

end Script

end SyntaxChart
