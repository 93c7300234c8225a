import SyntaxChart.Chart.Mermaid
import SyntaxChart.Proofs.Drawing

/-!
# Declarations in the text of a chart

The text of a script's chart declares a node exactly where it is reached: the first line declares the
root as well as its target, every later line starts from a node that a line above declared, and
declares its target (`Script.chart_text_declares`).

A node is declared where it is mentioned first, so this is a fact about the order of the edges: they
leave only nodes reached before, and reach each node once.
-/

namespace SyntaxChart

namespace Mermaid

theorem getElem?_insert_nodes (nodes : List Node) (id : NodeId) :
    ∀ found : Std.HashMap NodeId Node,
      (nodes.foldl (fun found node => found.insert node.id node) found)[id]?
        = (nodes.reverse.find? fun node => node.id = id).or found[id]? := by
  induction nodes with
  | nil => simp
  | cons node nodes ih =>
    intro found
    rw [List.foldl_cons, ih, Std.HashMap.getElem?_insert, List.reverse_cons, List.find?_append]
    by_cases h : node.id = id <;> cases nodes.reverse.find? _ <;> simp [h]

/-- Of several nodes with one identifier, the last is found. -/
theorem getElem?_declarations (nodes : List Node) (id : NodeId) :
    (declarations nodes)[id]? = nodes.reverse.find? fun node => node.id = id := by
  rw [declarations, getElem?_insert_nodes]
  simp

theorem getElem?_declarations_of_mem {nodes : List Node} (hnd : (nodes.map Node.id).Nodup)
    {n : Node} (hn : n ∈ nodes) : (declarations nodes)[n.id]? = some n := by
  have hsome : (nodes.reverse.find? fun node => node.id = n.id).isSome := by
    rw [List.find?_isSome]
    exact ⟨n, List.mem_reverse.2 hn, by simp⟩
  obtain ⟨m, hm⟩ := Option.isSome_iff_exists.1 hsome
  have hid : m.id = n.id := by simpa using List.find?_some hm
  have hmem : m ∈ nodes := List.mem_reverse.1 (List.mem_of_find?_eq_some hm)
  rw [getElem?_declarations, hm, List.inj_on_of_nodup_map hnd hmem hn hid]

variable {found : Std.HashMap NodeId Node} {seen : Std.HashSet NodeId} {id : NodeId} {n : Node}

theorem mention_of_mem (h : id ∈ seen) : mention found seen id = (.reference id, seen) := by
  have h := Std.HashSet.mem_iff_contains.1 h
  unfold mention
  split
  · rw [if_pos h]
  · rfl

theorem mention_of_notMem (hn : found[n.id]? = some n) (h : n.id ∉ seen) :
    mention found seen n.id = (.declaration n, seen.insert n.id) := by
  have h : ¬ seen.contains n.id = true := fun hc => h (Std.HashSet.mem_iff_contains.2 hc)
  rw [mention, hn]
  exact if_neg h

theorem mem_insert_iff {known : List NodeId} (h : ∀ id, id ∈ seen ↔ id ∈ known) (new id : NodeId) :
    id ∈ seen.insert new ↔ id ∈ new :: known := by
  rw [Std.HashSet.mem_insert, List.mem_cons, h, beq_iff_eq, eq_comm]

/-- A line that refers to its source and declares its target. -/
def declaringLine (step : Edge × Node) : String :=
  edgeText (.reference step.1.source) step.1.role (.declaration step.2)

/-- From the nodes seen on, edges that leave only nodes reached before and reach new ones, each once,
are lines that declare their targets. -/
theorem edgeLines_eq : ∀ {steps : List (Edge × Node)} {known : List NodeId}
    {seen : Std.HashSet NodeId}, (∀ id, id ∈ seen ↔ id ∈ known) →
    Connected known (steps.map Prod.fst) →
    (∀ step ∈ steps, step.1.target = step.2.id ∧ found[step.2.id]? = some step.2) →
    (steps.map fun step => step.2.id).Nodup → (∀ step ∈ steps, step.2.id ∉ known) →
    edgeLines found seen (steps.map Prod.fst) = steps.map declaringLine
  | [], _, _, _, _, _, _, _ => rfl
  | (e, n) :: steps, known, seen, hseen, hcon, htarget, hnd, hnew => by
    rw [List.map_cons] at hcon
    obtain ⟨hsource, hcon⟩ := hcon
    have ht : e.target = n.id := (htarget _ List.mem_cons_self).1
    have hfound : found[n.id]? = some n := (htarget _ List.mem_cons_self).2
    rw [List.map_cons, List.nodup_cons] at hnd
    have hn : n.id ∉ seen := fun hm => hnew _ List.mem_cons_self ((hseen _).1 hm)
    have hrest := edgeLines_eq (mem_insert_iff hseen n.id) (ht ▸ hcon)
      (fun step h => htarget step (List.mem_cons_of_mem _ h)) hnd.2 fun step h => by
        rw [List.mem_cons, not_or]
        refine ⟨fun heq => hnd.1 (heq ▸ List.mem_map_of_mem h), ?_⟩
        exact hnew step (List.mem_cons_of_mem _ h)
    simp only [List.map_cons, edgeLines, mention_of_mem ((hseen _).2 hsource), ht,
      mention_of_notMem hfound hn, hrest, declaringLine]

/-- From an empty start, the first line declares its source too. -/
theorem edgeLines_cons {root : Node} {first : Edge × Node} {rest : List (Edge × Node)}
    (hcon : Connected [root.id] ((first :: rest).map Prod.fst))
    (hroot : found[root.id]? = some root)
    (htarget : ∀ step ∈ first :: rest,
      step.1.target = step.2.id ∧ found[step.2.id]? = some step.2)
    (hnd : (root.id :: (first :: rest).map fun step => step.2.id).Nodup) :
    edgeLines found ∅ ((first :: rest).map Prod.fst)
      = edgeText (.declaration root) first.1.role (.declaration first.2)
        :: rest.map declaringLine := by
  obtain ⟨e, n⟩ := first
  obtain ⟨hsource, hcon⟩ := hcon
  have hs : e.source = root.id := List.mem_singleton.1 hsource
  have ht : e.target = n.id := (htarget _ List.mem_cons_self).1
  have hfound : found[n.id]? = some n := (htarget _ List.mem_cons_self).2
  simp only [List.map_cons, List.nodup_cons, List.mem_cons, not_or] at hnd
  obtain ⟨⟨hne, hroot'⟩, hn, hnd⟩ := hnd
  have hseen : ∀ id, id ∈ (∅ : Std.HashSet NodeId).insert root.id ↔ id ∈ [root.id] :=
    mem_insert_iff (by simp) root.id
  have hnseen : n.id ∉ (∅ : Std.HashSet NodeId).insert root.id := by
    simpa [hseen, eq_comm] using hne
  have hrest := edgeLines_eq (mem_insert_iff hseen n.id) (ht ▸ hcon)
    (fun step h => htarget step (List.mem_cons_of_mem _ h)) hnd fun step h => by
      simp only [List.mem_cons, List.not_mem_nil, or_false, not_or]
      exact ⟨fun heq => hn (heq ▸ List.mem_map_of_mem h),
        fun heq => hroot' (heq ▸ List.mem_map_of_mem h)⟩
  simp only [List.map_cons, edgeLines, hs, mention_of_notMem hroot Std.HashSet.not_mem_empty, ht,
    mention_of_notMem hfound hnseen, hrest]

end Mermaid

theorem exists_steps {nodes : List Node} : ∀ {edges : List Edge},
    (∀ e ∈ edges, e.target ∈ nodes.map Node.id) →
    ∃ steps : List (Edge × Node), steps.map Prod.fst = edges
      ∧ ∀ step ∈ steps, step.1.target = step.2.id ∧ step.2 ∈ nodes
  | [], _ => ⟨[], rfl, by simp⟩
  | e :: edges, h => by
    obtain ⟨steps, hs, hsteps⟩ := exists_steps fun f hf => h f (List.mem_cons_of_mem _ hf)
    obtain ⟨n, hn, hid⟩ := List.mem_map.1 (h e List.mem_cons_self)
    refine ⟨(e, n) :: steps, by simp [hs], fun step hstep => ?_⟩
    rcases List.mem_cons.1 hstep with rfl | hstep
    · exact ⟨hid.symm, hn⟩
    · exact hsteps step hstep

/-- A text with one line for each edge, which declares each node where an edge reaches it. Each edge
comes with the node it leads to. -/
structure Mermaid.LineByLine (d : Direction) (nodes : List Node) (edges : List Edge) (text : String)
    (root : Node) (first : Edge × Node) (rest : List (Edge × Node)) : Prop where
  edges_eq : edges = (first :: rest).map Prod.fst
  text_eq : text = header d ++ "\n".intercalate
    (edgeText (.declaration root) first.1.role (.declaration first.2)
      :: rest.map fun step => edgeText (.reference step.1.source) step.1.role (.declaration step.2))
  source_first : first.1.source = root.id
  target : ∀ step ∈ first :: rest, step.1.target = step.2.id
  /-- A line starts from a node that a line above declares. -/
  source_rest : ∀ above step below, rest = above ++ step :: below →
    step.1.source ∈ root.id :: (first :: above).map fun step => step.2.id
  /-- The declared nodes are the chart's, each once. -/
  perm : (root :: (first :: rest).map Prod.snd).Perm nodes
  nodup : (nodes.map fun n => n.id.text).Nodup

namespace Script

/-- The text of a chart with edges, with the node that each edge leads to. -/
theorem Draws.chart_text {s : Script} {nodes : List Node} (h : s.Draws nodes) (d : Direction)
    (hne : s.drawing.wiring.edges ≠ []) :
    ∃ (first : Edge × Node) (rest : List (Edge × Node)),
      s.drawing.wiring.edges = (first :: rest).map Prod.fst
        ∧ (∀ step ∈ first :: rest, step.1.target = step.2.id)
        ∧ ((first :: rest).map Prod.snd).Perm nodes
        ∧ (s.chart d).text = Mermaid.header d ++ "\n".intercalate
          (Mermaid.edgeText (.declaration s.rootNode) first.1.role (.declaration first.2)
            :: rest.map Mermaid.declaringLine) := by
  obtain ⟨hnil, -⟩ | ⟨-, hc⟩ := h.chart_content d
  · exact absurd hnil hne
  have hmem : ∀ e ∈ s.drawing.wiring.edges, e.target ∈ nodes.map Node.id := fun e he =>
    h.targets_perm.mem_iff.1 (List.mem_map_of_mem he)
  obtain ⟨steps, hsteps, htargets⟩ := exists_steps hmem
  have hids : (steps.map Prod.snd).map Node.id = s.drawing.wiring.edges.map Edge.target := by
    rw [← hsteps, List.map_map, List.map_map]
    exact List.map_congr_left fun step hstep => (htargets step hstep).1.symm
  have hperm : (steps.map Prod.snd).Perm nodes := by
    have hnd : (steps.map Prod.snd).Nodup := by
      refine .of_map Node.id ?_
      rw [hids]
      exact h.targets_perm.nodup_iff.2 (List.nodup_cons.1 h.nodup).2
    have hsub : steps.map Prod.snd ⊆ nodes := fun n hn => by
      obtain ⟨step, hstep, rfl⟩ := List.mem_map.1 hn
      exact (htargets step hstep).2
    refine (List.subperm_of_subset hnd hsub).perm_of_length_le ?_
    exact Nat.le_of_eq (by rw [← h.length_edges, ← hsteps, List.length_map, List.length_map])
  rcases steps with _ | ⟨first, rest⟩
  · exact absurd hsteps.symm hne
  refine ⟨first, rest, hsteps.symm, fun step hstep => (htargets step hstep).1, hperm, ?_⟩
  have hfound : ∀ n ∈ s.rootNode :: nodes,
      (Mermaid.declarations (s.rootNode :: nodes))[n.id]? = some n :=
    fun n hn => Mermaid.getElem?_declarations_of_mem h.nodup hn
  have hnd : (s.rootNode.id :: (first :: rest).map fun step => step.2.id).Nodup := by
    have := (((hperm.map Node.id).cons s.rootNode.id).nodup_iff).2 h.nodup
    rwa [List.map_map] at this
  have hlines := Mermaid.edgeLines_cons (hsteps.symm ▸ h.connected)
    (hfound _ List.mem_cons_self) (fun step hstep =>
      ⟨(htargets step hstep).1, hfound _ (List.mem_cons_of_mem _ (htargets step hstep).2)⟩) hnd
  simp only [Chart.text, hc, ← hsteps, hlines]
  rfl

/-- The text of a chart with edges: the first line declares the root and its target, each later line
refers to a node that a line above declares and declares its target. So each node is declared once,
with its own label. -/
theorem chart_text_declares (s : Script) (d : Direction) {nodes : List Node} {edges : List Edge}
    (h : (s.chart d).content = .compound nodes edges) :
    ∃ root first rest, Mermaid.LineByLine d nodes edges (s.chart d).text root first rest := by
  obtain ⟨below, hd⟩ := s.exists_draws
  obtain ⟨-, -, hc⟩ | ⟨hne, hc⟩ := hd.chart_content d
  · rw [hc] at h
    cases h
  rw [hc] at h
  cases h
  obtain ⟨first, rest, he, htargets, hperm, htext⟩ := hd.chart_text d hne
  have hcon : Connected [s.rootNode.id] ((first :: rest).map Prod.fst) := he ▸ hd.connected
  refine ⟨s.rootNode, first, rest, he, htext, List.mem_singleton.1 hcon.1, htargets, ?_,
    hperm.cons _, ?_⟩
  · rintro above step below' rfl
    have hcon : Connected [s.rootNode.id]
        ((first :: above).map Prod.fst ++ step.1 :: below'.map Prod.fst) := by simpa using hcon
    have habove : ((first :: above).map Prod.fst).map Edge.target
        = (first :: above).map fun step => step.2.id := by
      rw [List.map_map]
      refine List.map_congr_left fun other hother => htargets other ?_
      exact List.mem_append_left (step :: below') hother
    rw [← habove]
    exact hcon.source_mem
  · have := hd.nodup.map fun _ _ h => NodeId.text_inj.1 h
    rwa [List.map_map] at this

/-- A call of a quoted value without operands, whose text has three lines. -/
theorem chart_text_declares_call :
    ∃ nodes edges, ((form (.expression (.application (.quotation .empty) []))).chart
        .topDown).content = .compound nodes edges
      ∧ edges.length = 3
      ∧ ∃ root first rest, Mermaid.LineByLine .topDown nodes edges
        ((form (.expression (.application (.quotation .empty) []))).chart .topDown).text
        root first rest :=
  ⟨_, _, rfl, rfl, chart_text_declares _ _ rfl⟩

end Script

end SyntaxChart
