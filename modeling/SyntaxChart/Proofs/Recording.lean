import SyntaxChart.Proofs.Rooted

/-!
# What a registry records

A run is a sequence of operations on one registry, among them wirings of whole outlines and groups
that are refused (`Registry.Run`). What an operation declares can be told without the registry, in
the order of the nodes (`Outline.declared`) and in that of the edges to them (`Outline.emitted`). A
registry records just that: the nodes in order, each under an identifier of its own, which is
numbered among those of its category (`Registry.run_records`).
-/

namespace SyntaxChart

/-- What a node is declared with. -/
structure Entry where
  category : Category
  label : String
deriving DecidableEq

def Node.entry (n : Node) : Entry := ⟨n.id.category, n.label⟩

def Outline.entry (o : Outline) : Entry := ⟨o.category, o.label⟩

namespace Field

/-- The node that a field's own edge leads to. -/
def entry : Field → Entry
  | one _ child => child.entry
  | group _ c _ => ⟨c, Registry.groupLabel⟩
  | leaf _ c label => ⟨c, label⟩

/-- The nodes that the edges from a field's group lead to. -/
def memberEntries : Field → List Entry
  | group _ _ members => members.map Outline.entry
  | _ => []

end Field

namespace Outline

mutual

/-- What `below` tells of the fields of each node, a node before its children. -/
def collect (below : List Field → List Entry) : Outline → List Entry
  | .node _ _ fields => below fields ++ collectFields below fields

def collectFields (below : List Field → List Entry) : List Field → List Entry
  | [] => []
  | .one _ child :: fields => collect below child ++ collectFields below fields
  | .group _ _ members :: fields => collectAll below members ++ collectFields below fields
  | .leaf _ _ _ :: fields => collectFields below fields

def collectAll (below : List Field → List Entry) : List Outline → List Entry
  | [] => []
  | o :: os => collect below o ++ collectAll below os

end

theorem collectAll_eq (below : List Field → List Entry) (os : List Outline) :
    collectAll below os = os.flatMap (collect below) := by
  induction os with
  | nil => rfl
  | cons o os ih => rw [collectAll, ih, List.flatMap_cons]

theorem collectFields_eq (below : List Field → List Entry) (fields : List Field) :
    collectFields below fields = (fields.flatMap Field.children).flatMap (collect below) := by
  induction fields with
  | nil => rfl
  | cons f fields ih => cases f <;> simp [collectFields, Field.children, collectAll_eq, ih]

theorem collect_eq (below : List Field → List Entry) (o : Outline) :
    o.collect below = below o.fields ++ o.children.flatMap (collect below) := by
  cases o with
  | node c label fields => rw [collect, collectFields_eq]; rfl

/-- The nodes below an outline's node in the order in which they are declared: those of its fields,
each group followed by its members, and then those below each child. -/
def declared (o : Outline) : List Entry :=
  o.collect fun fields => fields.flatMap fun f => f.entry :: f.memberEntries

/-- The nodes below an outline's node in the order of the edges to them: those of its fields, then
the members of its groups, and then those below each child. -/
def emitted (o : Outline) : List Entry :=
  o.collect fun fields => fields.map Field.entry ++ fields.flatMap Field.memberEntries

end Outline

/-! ## A growth has the nodes of its outline -/

theorem Node.StandsFor.entry_eq {n : Node} {o : Outline} (h : n.StandsFor o) :
    n.entry = o.entry := by
  rw [Node.entry, Outline.entry, h.1, h.2]

theorem map_entry_of_stand {ns : List Node} {os : List Outline}
    (h : List.Forall₂ Node.StandsFor ns os) : ns.map Node.entry = os.map Outline.entry := by
  induction h with
  | nil => rfl
  | cons hn _ ih => rw [List.map_cons, List.map_cons, ih, hn.entry_eq]

namespace Planted

variable {parent : NodeId} {fields : List Field} {b : Branches} {nodes : List Node}

theorem map_entry (h : Planted parent fields b nodes) :
    nodes.map Node.entry = fields.flatMap fun f => f.entry :: f.memberEntries := by
  induction h with
  | nil => rfl
  | one hn _ ih =>
    rw [List.map_cons, ih, List.flatMap_cons, hn.entry_eq]
    rfl
  | group hs _ ih =>
    rw [List.map_cons, List.map_append, ih, map_entry_of_stand hs, List.flatMap_cons]
    rfl
  | leaf _ ih =>
    rw [List.map_cons, ih, List.flatMap_cons]
    rfl

/-- The targets of a node's own edges and of the edges from its groups, as nodes. -/
theorem exists_targets (h : Planted parent fields b nodes) :
    ∃ own fanOut : List Node, (own ++ fanOut).Perm nodes
      ∧ b.own.map Edge.target = own.map Node.id ∧ b.fanOut.map Edge.target = fanOut.map Node.id
      ∧ own.map Node.entry = fields.map Field.entry
      ∧ fanOut.map Node.entry = fields.flatMap Field.memberEntries := by
  induction h with
  | nil => exact ⟨[], [], .nil, rfl, rfl, rfl, rfl⟩
  | @one role child n fields b nodes hn _ ih =>
    obtain ⟨own, fanOut, hperm, ho, hf, heo, hef⟩ := ih
    refine ⟨n :: own, fanOut, hperm.cons n, ?_, hf, ?_, ?_⟩
    · rw [List.map_cons, List.map_cons, ho]
    · rw [List.map_cons, List.map_cons, heo, hn.entry_eq]
      rfl
    · rw [hef, List.flatMap_cons]
      rfl
  | @group role g members ns fields b nodes hs _ ih =>
    obtain ⟨own, fanOut, hperm, ho, hf, heo, hef⟩ := ih
    refine ⟨⟨g, Registry.groupLabel⟩ :: own, ns ++ fanOut, ?_, ?_, ?_, ?_, ?_⟩
    · exact .cons _ (List.perm_append_comm_assoc _ _ _ |>.trans (hperm.append_left ns))
    · rw [List.map_cons, List.map_cons, ho]
    · rw [List.map_append, List.map_append, hf, List.map_map]
      rfl
    · rw [List.map_cons, List.map_cons, heo]
      rfl
    · rw [List.map_append, hef, map_entry_of_stand hs, List.flatMap_cons]
      rfl
  | @leaf role n fields b nodes _ ih =>
    obtain ⟨own, fanOut, hperm, ho, hf, heo, hef⟩ := ih
    refine ⟨n :: own, fanOut, hperm.cons n, ?_, hf, ?_, ?_⟩
    · rw [List.map_cons, List.map_cons, ho]
    · rw [List.map_cons, List.map_cons, heo]
      rfl
    · rw [hef, List.flatMap_cons]
      rfl

end Planted

namespace Growth

theorem Grown.map_entry {g : Growth} (h : g.Grown) :
    g.nodes.map Node.entry = g.outline.declared := by
  induction h with
  | @intro o root b nodes parts hpl houtlines _ _ ih =>
    have hbelow : (parts.flatMap Growth.nodes).map Node.entry
        = o.children.flatMap Outline.declared := by
      rw [← houtlines, List.map_flatMap, List.flatMap_map]
      exact List.flatMap_congr ih
    rw [List.map_append, hpl.map_entry, hbelow, Outline.declared, Outline.collect_eq]
    rfl

/-- The targets of a growth's edges are its nodes in another order. -/
theorem Grown.exists_targets {g : Growth} (h : g.Grown) :
    ∃ ns : List Node, ns.Perm g.nodes ∧ g.edges.map Edge.target = ns.map Node.id
      ∧ ns.map Node.entry = g.outline.emitted := by
  induction h with
  | @intro o root b nodes parts hpl houtlines _ _ ih =>
    obtain ⟨own, fanOut, hperm, ho, hf, heo, hef⟩ := hpl.exists_targets
    choose! below hbelow using ih
    refine ⟨own ++ fanOut ++ parts.flatMap below, ?_, ?_, ?_⟩
    · exact hperm.append (List.Perm.flatMap_left _ fun g hg => (hbelow g hg).1)
    · simp only [List.map_append, ho, hf, List.map_flatMap]
      rw [List.flatMap_congr fun g hg => (hbelow g hg).2.1]
    · simp only [List.map_append, heo, hef, List.map_flatMap]
      rw [List.flatMap_congr fun g hg => (hbelow g hg).2.2, Outline.emitted, Outline.collect_eq,
        ← houtlines, List.flatMap_map]
      rfl

end Growth

namespace Registry

/-! ## Numbers in order -/

/-- The identifiers of each category are those from one up to its count, in order. -/
def Counted (r : Registry) : Prop :=
  ∀ c, r.ids.filter (fun id => id.category = c)
    = (List.range (r.numbering.count c)).map fun k => ⟨c, k + 1⟩

theorem counted_empty : Counted empty := fun _ => rfl

theorem Counted.declare {r : Registry} (h : r.Counted) (c : Category) (label : String) :
    (r.declare c label).2.Counted := by
  intro d
  have hids : (r.declare c label).2.ids = r.ids ++ [⟨c, r.numbering.count c + 1⟩] := by
    rw [ids, declare_nodes, List.map_append]
    rfl
  have hcount : (r.declare c label).2.numbering.count d
      = r.numbering.count d + if d = c then 1 else 0 := Numbering.count_next _ c d
  rw [hids, List.filter_append, h d, hcount]
  by_cases hd : d = c
  · subst hd
    simp [List.range_succ]
  · simp [hd, Ne.symm hd]

theorem Counted.declares {r r' : Registry} {nodes : List Node} (h : r.Counted)
    (hd : r.Declares nodes r') : r'.Counted := by
  induction hd with
  | nil => exact h
  | cons _ ih => exact ih (h.declare _ _)

theorem Reached.counted {r : Registry} (h : r.Reached) : r.Counted := by
  obtain ⟨nodes, hd⟩ := h.declares
  exact counted_empty.declares hd

/-- How many identifiers of a category were handed out. -/
def minted (r : Registry) (c : Category) : Nat :=
  r.ids.countP fun id => id.category = c

theorem Counted.minted_eq {r : Registry} (h : r.Counted) : r.minted = r.numbering.count := by
  funext c
  rw [minted, List.countP_eq_length_filter, h c, List.length_map, List.length_range]

/-! ## Runs -/

/-- What can be asked of a registry. -/
inductive Operation where
  | declare (c : Category) (label : String)
  | declareGroup (c : Category)
  | wire (o : Outline) (parent : NodeId)

/-- What an operation declares, where `below` tells the nodes below an outline's node. -/
def Operation.entries (below : Outline → List Entry) : Operation → List Entry
  | declare c label => [⟨c, label⟩]
  | declareGroup c => if c.isGroup then [⟨c, groupLabel⟩] else []
  | wire o _ => below o

/-- One operation, the identifiers it hands out, and the registry afterwards. A group that is
refused hands out none and leaves the registry as it was; a wiring that is refused is no step. -/
inductive Step : Registry → Operation → List NodeId → Registry → Prop
  | declare (r : Registry) (c : Category) (label : String) :
      Step r (.declare c label) [(r.declare c label).1] (r.declare c label).2
  | declareGroup {r r' : Registry} {c : Category} {id : NodeId} :
      r.declareGroup c = .ok (id, r') → Step r (.declareGroup c) [id] r'
  | refused {r : Registry} {c : Category} {e : NotGroup} :
      r.declareGroup c = .error e → Step r (.declareGroup c) [] r
  | wire {r r' : Registry} {o : Outline} {parent : NodeId} {w : Wiring} :
      o.wire parent r = .ok (w, r') → Step r (.wire o parent) (w.edges.map Edge.target) r'

/-- Operations one after the other, each with the identifiers it hands out. -/
inductive Run : Registry → List (Operation × List NodeId) → Registry → Prop
  | nil (r : Registry) : Run r [] r
  | cons {r r' r'' : Registry} {op : Operation} {ids : List NodeId}
      {steps : List (Operation × List NodeId)} :
      Step r op ids r' → Run r' steps r'' → Run r ((op, ids) :: steps) r''

/-- A step declares the nodes its operation tells, and hands out their identifiers. -/
theorem Step.declares {r r' : Registry} {op : Operation} {ids : List NodeId}
    (h : Step r op ids r') :
    ∃ nodes shown : List Node, r.Declares nodes r' ∧ shown.Perm nodes
      ∧ nodes.map Node.entry = op.entries Outline.declared
      ∧ shown.map Node.id = ids ∧ shown.map Node.entry = op.entries Outline.emitted := by
  cases h with
  | declare c label =>
    exact ⟨_, _, .cons (.nil _), .refl _, rfl, rfl, rfl⟩
  | @declareGroup r' c id h =>
    rw [Registry.declareGroup] at h
    split at h <;> rename_i hc <;> cases h
    have hentries (below : Outline → List Entry) :
        (Operation.declareGroup c).entries below = [⟨c, groupLabel⟩] := if_pos hc
    exact ⟨_, _, .cons (.nil _), .refl _, (hentries _).symm, rfl, (hentries _).symm⟩
  | @refused c e h =>
    rw [Registry.declareGroup] at h
    split at h <;> rename_i hc <;> cases h
    have hentries (below : Outline → List Entry) :
        (Operation.declareGroup c).entries below = [] := if_neg hc
    exact ⟨[], [], .nil _, .refl _, (hentries _).symm, rfl, (hentries _).symm⟩
  | @wire r' o parent w h =>
    obtain ⟨nodes, hg, hd⟩ := o.grown_of_wire h
    obtain ⟨shown, hperm, hids, hentries⟩ := hg.exists_targets
    exact ⟨nodes, shown, hd, hperm, hg.map_entry, hids.symm, hentries⟩

/-- A run declares the nodes its operations tell, and hands out their identifiers. -/
theorem Run.declares {r r' : Registry} {steps : List (Operation × List NodeId)}
    (h : Run r steps r') :
    ∃ nodes shown : List Node, r.Declares nodes r' ∧ shown.Perm nodes
      ∧ nodes.map Node.entry = steps.flatMap (fun s => s.1.entries Outline.declared)
      ∧ shown.map Node.id = steps.flatMap Prod.snd
      ∧ ∀ s ∈ steps, List.Forall₂ (fun id e => ∃ n ∈ nodes, n.id = id ∧ n.entry = e) s.2
          (s.1.entries Outline.emitted) := by
  induction h with
  | nil r => exact ⟨[], [], .nil r, .nil, rfl, rfl, by simp⟩
  | cons hs _ ih =>
    obtain ⟨first, shownFirst, hd, hperm, hentries, hids, hshown⟩ := hs.declares
    obtain ⟨nodes, shown, hds, hperms, hmore, hmoreIds, hall⟩ := ih
    refine ⟨first ++ nodes, shownFirst ++ shown, hd.append hds, hperm.append hperms, ?_, ?_, ?_⟩
    · rw [List.map_append, hentries, hmore, List.flatMap_cons]
    · rw [List.map_append, hids, hmoreIds, List.flatMap_cons]
    · intro s hs
      rcases List.mem_cons.1 hs with rfl | hs
      · rw [← hids, ← hshown, List.forall₂_map_left_iff, List.forall₂_map_right_iff,
          List.forall₂_same]
        exact fun n hn => ⟨n, List.mem_append_left _ (hperm.mem_iff.1 hn), rfl, rfl⟩
      · refine (hall s hs).imp fun id e => ?_
        rintro ⟨n, hn, hne⟩
        exact ⟨n, List.mem_append_right _ hn, hne⟩

/-- A node of a sound registry is the only one with the text of its identifier. -/
theorem Sound.filter_text {r : Registry} (h : r.Sound) {n : Node} (hn : n ∈ r.nodes.toList) :
    r.nodes.toList.filter (fun m => m.id.text = n.id.text) = [n] := by
  obtain ⟨before, after, heq⟩ := List.append_of_mem hn
  have hnd := h.nodup
  rw [ids, heq, List.map_append, List.map_cons, List.nodup_append, List.nodup_cons] at hnd
  obtain ⟨-, ⟨hafter, -⟩, hbefore⟩ := hnd
  have hne : ∀ m ∈ before ++ after, m.id ≠ n.id := fun m hm => by
    rcases List.mem_append.1 hm with hm | hm
    · exact hbefore _ (List.mem_map_of_mem hm) _ List.mem_cons_self
    · exact fun he => hafter (he ▸ List.mem_map_of_mem hm)
  have hnone : ∀ ms ⊆ before ++ after, ms.filter (fun m => m.id.text = n.id.text) = [] :=
    fun ms hms => List.filter_eq_nil_iff.2 fun m hm => by
      simpa [NodeId.text_inj] using hne m (hms hm)
  rw [heq, List.filter_append, List.filter_cons_of_pos (by simp),
    hnone before (List.subset_append_left _ _), hnone after (List.subset_append_right _ _),
    List.nil_append]

/-- What a registry that was empty records of a run: the nodes that the operations declare, in
order; for each category the numbers from one on, in order; each identifier handed out once, with
one node under it, which has the label that it was declared with. -/
structure Records (steps : List (Operation × List NodeId)) (r : Registry) : Prop where
  entries : r.nodes.toList.map Node.entry = steps.flatMap fun s => s.1.entries Outline.declared
  numbered : ∀ c, (r.ids.filter fun id => id.category = c).map NodeId.text
    = (List.range ((steps.flatMap fun s => s.1.entries Outline.declared).countP
        fun e => e.category = c)).map fun k => c.name ++ "_" ++ toString (k + 1)
  nodup : ((steps.flatMap Prod.snd).map NodeId.text).Nodup
  size : r.nodes.size = (steps.flatMap Prod.snd).length
  found : ∀ s ∈ steps, List.Forall₂ (fun id e => id.category = e.category
      ∧ r.nodes.toList.filter (fun n => n.id.text = id.text) = [⟨id, e.label⟩])
    s.2 (s.1.entries Outline.emitted)

theorem Run.records {steps : List (Operation × List NodeId)} {r : Registry}
    (h : Run empty steps r) : Records steps r := by
  obtain ⟨nodes, shown, hd, hperm, hentries, hids, hall⟩ := h.declares
  have hnodes : r.nodes.toList = nodes := by simpa [empty] using hd.toList_nodes
  have hsound := hd.sound sound_empty
  have hcounted := counted_empty.declares hd
  have hidsPerm : (steps.flatMap Prod.snd).Perm r.ids := by
    rw [← hids, ids, hnodes]
    exact hperm.map Node.id
  refine ⟨by rw [hnodes, hentries], fun c => ?_, ?_, ?_, fun s hs => ?_⟩
  · have hcount : (steps.flatMap fun s => s.1.entries Outline.declared).countP
        (fun e => e.category = c) = r.numbering.count c := by
      rw [← hcounted.minted_eq, minted, ids, hnodes, ← hentries, List.countP_map, List.countP_map]
      rfl
    rw [hcount, hcounted c, List.map_map]
    rfl
  · exact (hidsPerm.nodup_iff.2 hsound.nodup).map fun _ _ h => NodeId.text_inj.1 h
  · rw [hidsPerm.length_eq, ids, List.length_map, Array.length_toList]
  · refine (hall s hs).imp fun id e => ?_
    rintro ⟨n, hn, rfl, rfl⟩
    exact ⟨rfl, hsound.filter_text (hnodes ▸ hn)⟩

/-- After any run an empty registry has recorded what the operations declare. In any registry, nodes
are only added behind those that are there; a group in a category that is none is refused, which
leaves the registry as it was; and every operation but a refused wiring is a step. -/
theorem run_records :
    (∀ steps r, Run empty steps r → Records steps r)
      ∧ (∀ r steps r', Run r steps r' → r.nodes.toList <+: r'.nodes.toList)
      ∧ (∀ r c, c.isGroup = false → r.declareGroup c = .error ⟨c⟩
        ∧ ∀ ids r', Step r (.declareGroup c) ids r' → ids = [] ∧ r' = r)
      ∧ ∀ r op, (∃ ids r', Step r op ids r')
        ∨ ∃ o parent e, op = .wire o parent ∧ o.wire parent r = .error e := by
  refine ⟨fun _ _ h => h.records, fun r steps r' h => ?_, fun r c hc => ?_, fun r op => ?_⟩
  · obtain ⟨nodes, -, hd, -⟩ := h.declares
    exact ⟨nodes, hd.toList_nodes.symm⟩
  · have herror : r.declareGroup c = .error ⟨c⟩ := by simp [Registry.declareGroup, hc]
    refine ⟨herror, fun ids r' hs => ?_⟩
    cases hs with
    | declareGroup h => cases herror.symm.trans h
    | refused _ => exact ⟨rfl, rfl⟩
  · cases op with
    | declare c label => exact .inl ⟨_, _, .declare r c label⟩
    | declareGroup c =>
      rcases h : r.declareGroup c with e | ⟨id, r'⟩
      · exact .inl ⟨_, _, .refused h⟩
      · exact .inl ⟨_, _, .declareGroup h⟩
    | wire o parent =>
      rcases h : o.wire parent r with e | ⟨w, r'⟩
      · exact .inr ⟨o, parent, e, rfl, h⟩
      · exact .inl ⟨_, _, .wire h⟩

/-- Two categories with one name in front of the other, a refused group, and an outline whose edges
stand in another order than its nodes. -/
theorem run_records_bindings :
    let o := Outline.node .binding "a" [.group "in" .bindings [.showing .binding "b"],
      .leaf "of" .binding "c"]
    let steps : List (Operation × List NodeId) :=
      [(.declare .binding "a", [⟨.binding, 1⟩]), (.declareGroup .bindings, [⟨.bindings, 1⟩]),
        (.declareGroup .binding, []),
        (.wire o ⟨.binding, 1⟩, [⟨.bindings, 2⟩, ⟨.binding, 3⟩, ⟨.binding, 2⟩]),
        (.declare .binding "d", [⟨.binding, 4⟩])]
    ∃ r, Run empty steps r ∧ Records steps r
      ∧ r.nodes.toList.map (fun n => n.id.text) =
        ["Binding_1", "Bindings_1", "Bindings_2", "Binding_2", "Binding_3", "Binding_4"] := by
  intro o steps
  let r := ((empty.declare .binding "a").2.declare .bindings groupLabel).2
  let r' := (((r.declare .bindings groupLabel).2.declare .binding "Binding(b)").2.declare
    .binding "c").2
  have hw : o.wire ⟨.binding, 1⟩ r
      = .ok (⟨[⟨⟨.binding, 1⟩, some "in", ⟨.bindings, 2⟩⟩,
        ⟨⟨.binding, 1⟩, some "of", ⟨.binding, 3⟩⟩, ⟨⟨.bindings, 2⟩, none, ⟨.binding, 2⟩⟩],
        [⟨.binding, 1⟩, ⟨.binding, 2⟩]⟩, r') := rfl
  have hrun : Run empty steps (r'.declare .binding "d").2 :=
    .cons (.declare _ _ _) (.cons (.declareGroup rfl) (.cons (.refused rfl)
      (.cons (.wire hw) (.cons (.declare _ _ _) (.nil _)))))
  exact ⟨_, hrun, run_records.1 _ _ hrun, by decide⟩

end Registry

end SyntaxChart
