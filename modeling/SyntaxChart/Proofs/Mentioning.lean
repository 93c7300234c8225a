import SyntaxChart.Proofs.Declarations

/-!
# What each mention in a text shows

The serializer goes through the edges with a set of what it declared so far. What it writes needs no
such history: a mention shows a label exactly when a node has the identifier and no mention before
it has the identifier too (`Chart.text_eq_positional`). This holds for all lists of nodes and edges,
not only for those of scripts: nodes may be missing or listed twice, edges may be loops.
-/

namespace SyntaxChart

namespace Mermaid

/-- The identifiers that edges mention: each edge's source, then its target. -/
def mentions (edges : List Edge) : List NodeId :=
  edges.flatMap fun edge => [edge.source, edge.target]

/-- The last node with an identifier. -/
def lastNode? (nodes : List Node) (id : NodeId) : Option Node :=
  nodes.reverse.find? fun node => node.id = id

/-- A label, in quotes if one of the listed names begins it. -/
def quoted (label : String) : String :=
  if ∃ name ∈ quotedNames, name.toList <+: label.toList then "\"" ++ label ++ "\"" else label

/-- What a mention shows when the mentions `before` it are given. -/
def shown (nodes : List Node) (before : List NodeId) (id : NodeId) : String :=
  match lastNode? nodes id with
  | some node => if id ∈ before then id.text else id.text ++ "[" ++ quoted node.label ++ "]"
  | none => id.text

/-- The text of edges, each end written from its position among the mentions. -/
def positionalText (d : Direction) (nodes : List Node) (edges : List Edge) : String :=
  header d ++ "\n".intercalate (edges.mapIdx fun i edge =>
    shown nodes ((mentions edges).take (2 * i)) edge.source
      ++ " -->" ++ (edge.role.elim "" fun role => "|" ++ role ++ "|") ++ " "
      ++ shown nodes ((mentions edges).take (2 * i + 1)) edge.target)

theorem mentions_cons (edge : Edge) (edges : List Edge) :
    mentions (edge :: edges) = edge.source :: edge.target :: mentions edges :=
  rfl

theorem quoted_eq (label : String) : quoted label = labelText label := by
  simp only [quoted, labelText, isQuoted, List.any_eq_true, List.isPrefixOf_iff_prefix]

/-- Two lists with the same nodes of an identifier, in the same order, have the same last one. -/
theorem lastNode?_congr {nodes nodes' : List Node} {id : NodeId}
    (h : (nodes'.filter fun node => node.id = id) = nodes.filter fun node => node.id = id) :
    lastNode? nodes' id = lastNode? nodes id := by
  simp only [lastNode?, ← List.head?_filter, List.filter_reverse, h]

theorem shown_congr {nodes nodes' : List Node} {id : NodeId}
    (h : lastNode? nodes' id = lastNode? nodes id) (before : List NodeId) :
    shown nodes' before id = shown nodes before id := by
  rw [shown, shown, h]

theorem positionalText_congr {d : Direction} {nodes nodes' : List Node} {edges : List Edge}
    (h : ∀ id ∈ mentions edges, lastNode? nodes' id = lastNode? nodes id) :
    positionalText d nodes' edges = positionalText d nodes edges := by
  have hends : ∀ edge ∈ edges, edge.source ∈ mentions edges ∧ edge.target ∈ mentions edges :=
    fun edge he => by
      simp only [mentions, List.mem_flatMap]
      exact ⟨⟨edge, he, by simp⟩, ⟨edge, he, by simp⟩⟩
  rw [positionalText, positionalText]
  congr 2
  refine List.mapIdx_eq_mapIdx_iff.2 fun i hi => ?_
  obtain ⟨hsource, htarget⟩ := hends _ (List.getElem_mem hi)
  rw [shown_congr (h _ hsource), shown_congr (h _ htarget)]

variable {nodes : List Node} {seen : Std.HashSet NodeId} {before : List NodeId} {id : NodeId}

theorem shown_of_notMem {node : Node} (hn : lastNode? nodes id = some node) (h : id ∉ before) :
    shown nodes before id = id.text ++ "[" ++ quoted node.label ++ "]" := by
  rw [shown, hn]
  exact if_neg h

theorem shown_of_mem (h : id ∈ before) : shown nodes before id = id.text := by
  rw [shown]
  split
  · exact if_pos h
  · rfl

/-- What is seen after a mention: as before, and the mentioned identifier if it was found. -/
theorem mem_mention_iff {found : Std.HashMap NodeId Node} {other : NodeId} :
    other ∈ (mention found seen id).2 ↔ other ∈ seen ∨ other = id ∧ found[id]?.isSome := by
  unfold mention
  rcases found[id]? with _ | node
  · simp
  · by_cases h : id ∈ seen
    · rw [Std.HashSet.mem_iff_contains] at h
      simp only [if_pos h, Option.isSome_some, and_true]
      exact ⟨.inl, fun ho => ho.elim (fun ho => ho) fun ho => ho ▸ Std.HashSet.mem_iff_contains.2 h⟩
    · rw [Std.HashSet.mem_iff_contains] at h
      simp only [if_neg h, Std.HashSet.mem_insert, beq_iff_eq, Option.isSome_some, and_true]
      rw [or_comm, eq_comm]

/-- After the mentions `before`, those are seen that some node has. -/
def Tracks (nodes : List Node) (seen : Std.HashSet NodeId) (before : List NodeId) : Prop :=
  ∀ id, id ∈ seen ↔ id ∈ before ∧ (lastNode? nodes id).isSome

theorem tracks_empty (nodes : List Node) : Tracks nodes ∅ [] := by
  simp [Tracks]

/-- A mention keeps what is seen in step with the mentions. -/
theorem Tracks.append (h : Tracks nodes seen before) (id : NodeId) :
    Tracks nodes (mention (declarations nodes) seen id).2 (before ++ [id]) := fun other => by
  rw [mem_mention_iff, getElem?_declarations, h other, List.mem_append, List.mem_singleton,
    or_and_right]
  exact or_congr_right (and_congr_right fun ho => by rw [ho, lastNode?])

/-- A mention shows what it would show without a history. -/
theorem Tracks.mention_text (h : Tracks nodes seen before) (id : NodeId) :
    (mention (declarations nodes) seen id).1.text = shown nodes before id := by
  rcases hl : lastNode? nodes id with _ | node
  · have hf : (declarations nodes)[id]? = none := by rw [getElem?_declarations, ← hl, lastNode?]
    rw [mention, hf, shown, hl]
    rfl
  · by_cases hb : id ∈ before
    · rw [mention_of_mem ((h id).2 ⟨hb, by rw [hl]; rfl⟩), shown_of_mem hb]
      rfl
    · obtain rfl : node.id = id := by simpa using List.find?_some hl
      have hf : (declarations nodes)[node.id]? = some node := by
        rw [getElem?_declarations, ← hl, lastNode?]
      rw [mention_of_notMem hf fun hs => hb ((h _).1 hs).1, shown_of_notMem hl hb, quoted_eq]
      rfl

theorem edgeLines_cons_eq (found : Std.HashMap NodeId Node) (seen : Std.HashSet NodeId)
    (edge : Edge) (edges : List Edge) : edgeLines found seen (edge :: edges) =
      edgeText (mention found seen edge.source).1 edge.role
        (mention found (mention found seen edge.source).2 edge.target).1
      :: edgeLines found (mention found (mention found seen edge.source).2 edge.target).2 edges :=
  rfl

/-- The lines of edges that come after the mentions `before`, by their positions. -/
theorem Tracks.edgeLines_eq : ∀ {edges : List Edge} {seen : Std.HashSet NodeId}
    {before : List NodeId}, Tracks nodes seen before →
    edgeLines (declarations nodes) seen edges = edges.mapIdx fun i edge =>
      shown nodes (before ++ (mentions edges).take (2 * i)) edge.source
        ++ " -->" ++ (edge.role.elim "" fun role => "|" ++ role ++ "|") ++ " "
        ++ shown nodes (before ++ (mentions edges).take (2 * i + 1)) edge.target
  | [], _, _, _ => rfl
  | edge :: edges, seen, before, h => by
    have hsource := h.mention_text edge.source
    have h := h.append edge.source
    have htarget := h.mention_text edge.target
    have h := h.append edge.target
    rw [edgeLines_cons_eq, List.mapIdx_cons, h.edgeLines_eq]
    congr 1
    · rw [edgeText, hsource, htarget]
      cases edge.role <;> simp [mentions_cons, roleText, String.append_assoc]
    · simp [mentions_cons, Nat.mul_add]

end Mermaid

namespace Chart

theorem text_compound (d : Direction) (nodes : List Node) (edges : List Edge) :
    (⟨d, .compound nodes edges⟩ : Chart).text = Mermaid.positionalText d nodes edges := by
  simp only [text, (Mermaid.tracks_empty nodes).edgeLines_eq, List.nil_append]
  rfl

/-- A chart with edges finds a node with an identifier if some node has it, and so does the text. -/
theorem exists_lastNode? {d : Direction} {nodes : List Node} {edges : List Edge} {id : NodeId}
    {node : Node} (h : (⟨d, .compound nodes edges⟩ : Chart).node? id = some node) :
    ∃ last, Mermaid.lastNode? nodes id = some last := by
  have h : (nodes.find? fun node => node.id = id) = some node := h
  rw [← Option.isSome_iff_exists, Mermaid.lastNode?, List.find?_isSome]
  exact ⟨node, List.mem_reverse.2 (List.mem_of_find?_eq_some h), by simpa using List.find?_some h⟩

/-- The text of edges is the positional one: a mention shows the label of the last node with its
identifier if there is one and no mention before has the identifier, and the identifier alone
otherwise. So only the nodes that are mentioned count, and of these only the order of those with one
identifier; and where the last of these has the label of the node that the chart finds, which is the
first, that label is shown. -/
theorem text_eq_positional (d : Direction) (nodes : List Node) (edges : List Edge) :
    (⟨d, .compound nodes edges⟩ : Chart).text = Mermaid.positionalText d nodes edges
      ∧ (∀ nodes', (∀ id ∈ Mermaid.mentions edges,
          (nodes'.filter fun node => node.id = id) = nodes.filter fun node => node.id = id) →
        (⟨d, .compound nodes' edges⟩ : Chart).text = (⟨d, .compound nodes edges⟩ : Chart).text)
      ∧ ∀ id node, (⟨d, .compound nodes edges⟩ : Chart).node? id = some node →
        (∀ last, Mermaid.lastNode? nodes id = some last → node.label = last.label) →
        ∀ before, id ∉ before →
          Mermaid.shown nodes before id
            = id.text ++ "[" ++ Mermaid.quoted node.label ++ "]" := by
  refine ⟨text_compound d nodes edges, fun nodes' h => ?_, fun id node hnode hlabel before hb => ?_⟩
  · rw [text_compound, text_compound, Mermaid.positionalText_congr fun id hid =>
      Mermaid.lastNode?_congr (h id hid)]
  · obtain ⟨last, hlast⟩ := exists_lastNode? hnode
    rw [Mermaid.shown_of_notMem hlast hb, hlabel last hlast]

/-- A group that is listed twice and leads to itself, an edge that is repeated, a body that no node
has, and a reference with two labels. The text stays when a node is added that no edge mentions and
the references move to the front. -/
theorem text_eq_positional_repeated :
    let params : NodeId := ⟨.params, 1⟩
    let body : NodeId := ⟨.body, 1⟩
    let reference : NodeId := ⟨.reference, 1⟩
    let nodes : List Node :=
      [⟨params, ":"⟩, ⟨reference, "VarRef(x)"⟩, ⟨params, ":"⟩, ⟨reference, "VarRef(y)"⟩]
    let nodes' : List Node :=
      [⟨reference, "VarRef(x)"⟩, ⟨reference, "VarRef(y)"⟩, ⟨⟨.number, 1⟩, "NumExp(1)"⟩,
        ⟨params, ":"⟩, ⟨params, ":"⟩]
    let edges : List Edge :=
      [⟨params, none, params⟩, ⟨params, some "body", body⟩, ⟨params, some "body", body⟩,
        ⟨body, none, reference⟩]
    let text := "\n".intercalate ["graph TD", "Params_1[:] --> Params_1",
      "Params_1 -->|body| Body_1", "Params_1 -->|body| Body_1", "Body_1 --> VarRef_1[\"VarRef(y)\"]"]
    (⟨.topDown, .compound nodes edges⟩ : Chart).text = text
      ∧ (⟨.topDown, .compound nodes' edges⟩ : Chart).text = text
      ∧ Mermaid.shown nodes [] params = "Params_1[:]" := by
  intro params body reference nodes nodes' edges text
  obtain ⟨htext, hcongr, hlabel⟩ := text_eq_positional .topDown nodes edges
  have htext : (⟨.topDown, .compound nodes edges⟩ : Chart).text = text :=
    htext.trans (by decide +kernel)
  refine ⟨htext, (hcongr nodes' (by decide)).trans htext, ?_⟩
  have hlast : ∀ last, Mermaid.lastNode? nodes params = some last → ":" = last.label := by
    rintro last ⟨⟩
    rfl
  exact (hlabel params ⟨params, ":"⟩ rfl hlast [] (by simp)).trans (by decide +kernel)

end Chart

end SyntaxChart
