import SyntaxChart.Proofs.Shifting

/-!
# Outlines with the same frame

The frame of an outline is what a view of its nodes leaves of it: what each node is declared with,
seen through `k`, and all fields and roles (`Outline.frame`). Outlines with the same frame are drawn
alike. Their nodes correspond one to one, in order, and their edges lead between corresponding nodes
(`Growth.Grown.mirrors`). Where `k` tells a category from all others, corresponding nodes of this
category have the same identifier (`Registry.Declares.forall₂_id_eq`). So where a view hides some
categories and shows the others as they are, all nodes of the others are the same
(`Script.Draws.forall₂_eq_of_not_hidden`).
-/

namespace SyntaxChart

attribute [ext] Entry

/-! ## Hiding categories -/

namespace Entry

/-- An entry without its label, and with what is seen of its category, if this category is hidden. -/
def hide (hidden : Category → Bool) (seen : Category → Category) (e : Entry) : Entry :=
  if hidden e.category then ⟨seen e.category, ""⟩ else e

variable {hidden : Category → Bool} {seen : Category → Category} {e e' : Entry}

theorem hide_of_hidden (h : hidden e.category = true) :
    e.hide hidden seen = ⟨seen e.category, ""⟩ :=
  if_pos h

theorem hide_of_not_hidden (h : hidden e.category = false) : e.hide hidden seen = e :=
  if_neg (by simp [h])

theorem hidden_hide (hseen : ∀ c, hidden c = true → hidden (seen c) = true) (e : Entry) :
    hidden (e.hide hidden seen).category = hidden e.category := by
  cases h : hidden e.category with
  | true => rw [hide_of_hidden h, hseen _ h]
  | false => rw [hide_of_not_hidden h, h]

theorem hidden_eq_of_hide_eq (hseen : ∀ c, hidden c = true → hidden (seen c) = true)
    (h : e.hide hidden seen = e'.hide hidden seen) : hidden e.category = hidden e'.category := by
  rw [← hidden_hide hseen e, h, hidden_hide hseen e']

theorem eq_of_hide_eq (hseen : ∀ c, hidden c = true → hidden (seen c) = true)
    (h : e.hide hidden seen = e'.hide hidden seen) (he : hidden e.category = false) : e = e' := by
  have he' : hidden e'.category = false := hidden_eq_of_hide_eq hseen h ▸ he
  rwa [hide_of_not_hidden he, hide_of_not_hidden he'] at h

end Entry

/-! ## Frames -/

namespace Outline

mutual

/-- An outline whose nodes and leaves are seen through `k`. Groups are seen as they are. -/
def frame (k : Entry → Entry) : Outline → Outline
  | .node c label fields => .node (k ⟨c, label⟩).category (k ⟨c, label⟩).label (fieldFrames k fields)

def fieldFrames (k : Entry → Entry) : List Field → List Field
  | [] => []
  | .one role child :: fields => .one role (child.frame k) :: fieldFrames k fields
  | .group role c members :: fields => .group role c (frames k members) :: fieldFrames k fields
  | .leaf role c label :: fields =>
    .leaf role (k ⟨c, label⟩).category (k ⟨c, label⟩).label :: fieldFrames k fields

def frames (k : Entry → Entry) : List Outline → List Outline
  | [] => []
  | o :: os => o.frame k :: frames k os

end

variable {k : Entry → Entry}

theorem frames_eq (os : List Outline) : frames k os = os.map (frame k) := by
  induction os with
  | nil => rfl
  | cons o os ih => rw [frames, ih, List.map_cons]

theorem entry_frame (o : Outline) : (o.frame k).entry = k o.entry := by
  cases o
  rfl

theorem fields_frame (o : Outline) : (o.frame k).fields = fieldFrames k o.fields := by
  cases o
  rfl

theorem flatMap_children_fieldFrames (fields : List Field) :
    (fieldFrames k fields).flatMap Field.children
      = (fields.flatMap Field.children).map (frame k) := by
  induction fields with
  | nil => rfl
  | cons f fields ih => cases f <;> simp [fieldFrames, Field.children, frames_eq, ih]

theorem children_frame (o : Outline) : (o.frame k).children = o.children.map (frame k) := by
  rw [children, fields_frame, flatMap_children_fieldFrames]
  rfl

theorem entry_eq_of_frame_eq {o o' : Outline} (h : o.frame k = o'.frame k) :
    k o.entry = k o'.entry :=
  o.entry_frame.symm.trans ((congrArg entry h).trans o'.entry_frame)

theorem map_entry_of_frames_eq {os os' : List Outline} (h : frames k os = frames k os') :
    (os.map entry).map k = (os'.map entry).map k := by
  have hentries (os : List Outline) : (os.map entry).map k = (frames k os).map entry := by
    rw [frames_eq, List.map_map, List.map_map]
    exact List.map_congr_left fun o _ => o.entry_frame.symm
  rw [hentries, hentries, h]

end Outline

open Outline

/-! ## Growing in step -/

theorem map_eq_map_iff_forall₂ {α β γ : Type*} {f : α → γ} {g : β → γ} {as : List α} {bs : List β} :
    as.map f = bs.map g ↔ List.Forall₂ (fun a b => f a = g b) as bs := by
  rw [← List.forall₂_eq_eq_eq, List.forall₂_map_left_iff, List.forall₂_map_right_iff]

/-- Nodes that correspond are seen as the same, and an identifier's image under `f` is that of the
corresponding node. -/
theorem map_id_append_inj {k : Entry → Entry} {f : NodeId → NodeId} {ns ns' more more' : List Node}
    (hns : (ns.map Node.entry).map k = (ns'.map Node.entry).map k)
    (h : (ns' ++ more').map Node.id = ((ns ++ more).map Node.id).map f) :
    ns'.map Node.id = (ns.map Node.id).map f ∧ more'.map Node.id = (more.map Node.id).map f := by
  have hlength : ns'.length = ns.length := by simpa using (congrArg List.length hns).symm
  simp only [List.map_append] at h
  exact List.append_inj h (by simpa using hlength)

theorem Planted.mirrors {k : Entry → Entry} {parent parent' : NodeId} {fields fields' : List Field}
    {b b' : Branches} {nodes nodes' : List Node} (h : Planted parent fields b nodes)
    (h' : Planted parent' fields' b' nodes') (hf : fieldFrames k fields = fieldFrames k fields') :
    (nodes.map Node.entry).map k = (nodes'.map Node.entry).map k
      ∧ ∀ f : NodeId → NodeId, f parent = parent' →
        nodes'.map Node.id = (nodes.map Node.id).map f → b' = b.rename f := by
  induction h generalizing fields' b' nodes' with
  | nil =>
    cases h' with
    | nil => exact ⟨rfl, fun _ _ _ => rfl⟩
    | _ => simp [fieldFrames] at hf
  | @one role child n fields b nodes hn _ ih =>
    cases h' with
    | @one role' child' n' fields' b' nodes' hn' hrest' =>
      simp only [fieldFrames, List.cons.injEq, Field.one.injEq] at hf
      obtain ⟨⟨rfl, hchild⟩, hf⟩ := hf
      obtain ⟨hentries, hbranches⟩ := ih hrest' hf
      have hentry : k n.entry = k n'.entry := by
        rw [hn.entry_eq, hn'.entry_eq, entry_eq_of_frame_eq hchild]
      refine ⟨by simp only [List.map_cons, hentry, hentries], fun f hparent hids => ?_⟩
      simp only [List.map_cons, List.cons.injEq] at hids
      rw [hbranches f hparent hids.2]
      simp [Branches.rename, Edge.rename, hparent, hids.1]
    | _ => simp [fieldFrames] at hf
  | @group role g members ns fields b nodes hs _ ih =>
    cases h' with
    | @group role' g' members' ns' fields' b' nodes' hs' hrest' =>
      simp only [fieldFrames, List.cons.injEq, Field.group.injEq] at hf
      obtain ⟨⟨rfl, hcategory, hmembers⟩, hf⟩ := hf
      obtain ⟨hentries, hbranches⟩ := ih hrest' hf
      have hns : (ns.map Node.entry).map k = (ns'.map Node.entry).map k := by
        rw [map_entry_of_stand hs, map_entry_of_stand hs', map_entry_of_frames_eq hmembers]
      refine ⟨?_, fun f hparent hids => ?_⟩
      · simp only [List.map_cons, List.map_append, hns, hentries, Node.entry, hcategory]
      · simp only [List.map_cons, List.cons.injEq] at hids
        obtain ⟨hmemberIds, hids'⟩ := map_id_append_inj hns hids.2
        have hfanOut : ns'.map (fun n => (⟨g', none, n.id⟩ : Edge))
            = (ns.map fun n => (⟨g, none, n.id⟩ : Edge)).map (Edge.rename f) := by
          have := congrArg (List.map fun id => (⟨g', none, id⟩ : Edge)) hmemberIds
          simpa [Function.comp_def, Edge.rename, hids.1] using this
        rw [hbranches f hparent hids', hfanOut, hmemberIds]
        simp [Branches.rename, Edge.rename, hparent, hids.1]
    | _ => simp [fieldFrames] at hf
  | @leaf role n fields b nodes _ ih =>
    cases h' with
    | @leaf role' n' fields' b' nodes' hrest' =>
      simp only [fieldFrames, List.cons.injEq, Field.leaf.injEq] at hf
      obtain ⟨⟨rfl, hcategory, hlabel⟩, hf⟩ := hf
      obtain ⟨hentries, hbranches⟩ := ih hrest' hf
      have hentry : k n.entry = k n'.entry := Entry.ext hcategory hlabel
      refine ⟨by simp only [List.map_cons, hentry, hentries], fun f hparent hids => ?_⟩
      simp only [List.map_cons, List.cons.injEq] at hids
      rw [hbranches f hparent hids.2]
      simp [Branches.rename, Edge.rename, hparent, hids.1]
    | _ => simp [fieldFrames] at hf

namespace Growth

/-- The growth `g'` has its nodes and edges where `g` has them: the nodes are seen as the same, and
the edges are renamed as the nodes are. -/
structure Mirrors (k : Entry → Entry) (g g' : Growth) : Prop where
  entries : (g.nodes.map Node.entry).map k = (g'.nodes.map Node.entry).map k
  edges : ∀ f : NodeId → NodeId, f g.root = g'.root →
    g'.nodes.map Node.id = (g.nodes.map Node.id).map f → g'.edges = g.edges.map (Edge.rename f)

variable {k : Entry → Entry}

theorem forall₂_mirrors : ∀ {parts parts' : List Growth},
    (∀ g ∈ parts, ∀ {g' : Growth}, g'.Grown → g.outline.frame k = g'.outline.frame k →
      Mirrors k g g') →
    (∀ g' ∈ parts', Grown g') → frames k (parts.map outline) = frames k (parts'.map outline) →
      List.Forall₂ (Mirrors k) parts parts'
  | [], [], _, _, _ => .nil
  | [], _ :: _, _, _, h | _ :: _, [], _, _, h => by simp [frames] at h
  | g :: parts, g' :: parts', hg, hg', h => by
    simp only [List.map_cons, frames, List.cons.injEq] at h
    exact .cons (hg g List.mem_cons_self (hg' g' List.mem_cons_self) h.1)
      (forall₂_mirrors (fun x hx => hg x (List.mem_cons_of_mem _ hx))
        (fun x hx => hg' x (List.mem_cons_of_mem _ hx)) h.2)

/-- Growths side by side mirror each other as a whole. -/
theorem mirrors_parts {parts parts' : List Growth} (h : List.Forall₂ (Mirrors k) parts parts') :
    ((parts.flatMap Growth.nodes).map Node.entry).map k
        = ((parts'.flatMap Growth.nodes).map Node.entry).map k
      ∧ ∀ f : NodeId → NodeId, parts'.map root = (parts.map root).map f →
        (parts'.flatMap Growth.nodes).map Node.id
          = ((parts.flatMap Growth.nodes).map Node.id).map f →
        parts'.flatMap edges = (parts.flatMap edges).map (Edge.rename f) := by
  induction h with
  | nil => exact ⟨rfl, fun _ _ _ => rfl⟩
  | cons hg _ ih =>
    obtain ⟨hentries, hedges⟩ := ih
    refine ⟨?_, fun f hroots hids => ?_⟩
    · simp only [List.flatMap_cons, List.map_append, hg.entries, hentries]
    · simp only [List.map_cons, List.cons.injEq] at hroots
      rw [List.flatMap_cons, List.flatMap_cons] at hids
      obtain ⟨hfirst, hrest⟩ := map_id_append_inj hg.entries hids
      rw [List.flatMap_cons, List.flatMap_cons, List.map_append, hedges f hroots.2 hrest,
        hg.edges f hroots.1.symm hfirst]

/-- Growths of outlines with the same frame mirror each other. -/
theorem Grown.mirrors {g g' : Growth} (h : g.Grown) (h' : g'.Grown)
    (ho : g.outline.frame k = g'.outline.frame k) : Mirrors k g g' := by
  induction h generalizing g' with
  | @intro o root b nodes parts hpl houtlines hroots _ ih =>
    cases h' with
    | @intro o' root' b' nodes' parts' hpl' houtlines' hroots' hgrown' =>
      have hfields : fieldFrames k o.fields = fieldFrames k o'.fields := by
        rw [← fields_frame, ho, fields_frame]
      have hchildren : frames k (parts.map outline) = frames k (parts'.map outline) := by
        rw [houtlines, houtlines', frames_eq, frames_eq, ← children_frame, ho, children_frame]
      obtain ⟨hnodes, hbranches⟩ := hpl.mirrors hpl' hfields
      obtain ⟨hbelow, hedges⟩ := mirrors_parts (forall₂_mirrors ih hgrown' hchildren)
      refine ⟨by simp only [List.map_append, hnodes, hbelow], fun f hroot hids => ?_⟩
      obtain ⟨hids, hidsBelow⟩ := map_id_append_inj hnodes hids
      have hb := hbranches f hroot hids
      have hrootsBelow : parts'.map Growth.root = (parts.map Growth.root).map f := by
        rw [hroots', hroots, hb]
        rfl
      rw [hedges f hrootsBelow hidsBelow, hb]
      simp [Branches.rename]

end Growth

/-! ## Numbering in step -/

/-- Where `p` picks only categories that `k` tells from all others, nodes seen as the same get the
same identifiers if they are picked, in registries that have handed out as many of these. -/
theorem Registry.Declares.forall₂_id_eq {k : Entry → Entry} {p : Category → Bool}
    (hk : ∀ e e', k e = k e' → p e.category = true → e'.category = e.category)
    {r r' s s' : Registry} {nodes nodes' : List Node} (h : r.Declares nodes s)
    (h' : r'.Declares nodes' s')
    (hentries : (nodes.map Node.entry).map k = (nodes'.map Node.entry).map k)
    (hcount : ∀ c, p c = true → r.numbering.count c = r'.numbering.count c) :
    List.Forall₂ (fun n n' => p n.id.category = true → n'.id = n.id) nodes nodes' := by
  induction h generalizing r' nodes' with
  | nil =>
    cases h' with
    | nil => exact .nil
    | cons => simp at hentries
  | @cons r s c label nodes _ ih =>
    cases h' with
    | nil => simp at hentries
    | @cons _ _ c' label' nodes' h' =>
      simp only [List.map_cons, List.cons.injEq] at hentries
      obtain ⟨hentry, hentries⟩ := hentries
      have hc : p c = true → c' = c := hk _ _ hentry
      have hc' : p c' = true → c = c' := hk _ _ hentry.symm
      refine .cons (fun hp => ?_) (ih h' hentries fun d hd => ?_)
      · obtain rfl := hc hp
        have hnumber := hcount c' hp
        simp only [Registry.declare, Numbering.next, hnumber]
      · have hcounts (r : Registry) (c : Category) (label : String) :
            (r.declare c label).2.numbering.count d
              = r.numbering.count d + if d = c then 1 else 0 := Numbering.count_next _ c d
        have hiff : d = c ↔ d = c' := by
          constructor
          · rintro rfl
            exact (hc hd).symm
          · rintro rfl
            exact (hc' hd).symm
        rw [hcounts, hcounts, hcount d hd]
        simp only [hiff]

/-! ## Drawings of scripts -/

namespace Script.Draws

theorem declares {s : Script} {nodes : List Node} (h : s.Draws nodes) :
    Registry.Declares .empty (s.rootNode :: nodes) s.drawing.registry := by
  obtain ⟨ns, hdecl⟩ := s.reached.declares
  have hns : ns = s.rootNode :: nodes := by
    rw [← h.recorded, hdecl.toList_nodes]
    rfl
  exact hns ▸ hdecl

variable {k : Entry → Entry} {p q : Script} {nodes nodes' : List Node}

/-- Scripts whose outlines have the same frame have corresponding nodes. -/
theorem map_entry_eq (hp : p.Draws nodes) (hq : q.Draws nodes')
    (h : p.outline.frame k = q.outline.frame k) :
    ((p.rootNode :: nodes).map Node.entry).map k
      = ((q.rootNode :: nodes').map Node.entry).map k := by
  have hroot : k p.rootNode.entry = k q.rootNode.entry := entry_eq_of_frame_eq h
  rw [List.map_cons, List.map_cons, List.map_cons, List.map_cons, hroot,
    (hp.grown.mirrors hq.grown h).entries]

theorem forall₂_entry_eq (hp : p.Draws nodes) (hq : q.Draws nodes')
    (h : p.outline.frame k = q.outline.frame k) :
    List.Forall₂ (fun n n' => k n.entry = k n'.entry)
      (p.rootNode :: nodes) (q.rootNode :: nodes') := by
  have hentries := hp.map_entry_eq hq h
  rwa [List.map_map, List.map_map, map_eq_map_iff_forall₂] at hentries

theorem forall₂_id_eq (picks : Category → Bool)
    (hk : ∀ e e', k e = k e' → picks e.category = true → e'.category = e.category)
    (hp : p.Draws nodes) (hq : q.Draws nodes') (h : p.outline.frame k = q.outline.frame k) :
    List.Forall₂ (fun n n' => picks n.id.category = true → n'.id = n.id)
      (p.rootNode :: nodes) (q.rootNode :: nodes') :=
  hp.declares.forall₂_id_eq hk hq.declares (hp.map_entry_eq hq h) fun _ _ => rfl

/-- Nodes that are not hidden are the same in both. -/
theorem forall₂_eq_of_not_hidden {hidden : Category → Bool} {seen : Category → Category}
    (hseen : ∀ c, hidden c = true → hidden (seen c) = true) (hp : p.Draws nodes)
    (hq : q.Draws nodes')
    (h : p.outline.frame (Entry.hide hidden seen) = q.outline.frame (Entry.hide hidden seen)) :
    List.Forall₂ (fun n n' => hidden n.id.category = false → n' = n)
      (p.rootNode :: nodes) (q.rootNode :: nodes') := by
  have hentries := hp.forall₂_entry_eq hq h
  have hids := hp.forall₂_id_eq (fun c => !hidden c)
    (fun e e' he hc => congrArg Entry.category
      (Entry.eq_of_hide_eq hseen he (by simpa using hc)).symm) hq h
  refine List.Forall₂.mp (fun n n' hentry hid hc => ?_) hentries hids
  have hsame : n.entry = n'.entry := Entry.eq_of_hide_eq hseen hentry hc
  rw [Node.mk.injEq]
  exact ⟨hid (by simpa using hc), (congrArg Entry.label hsame).symm⟩

/-- Their edges lead between corresponding nodes. -/
theorem edges_eq_rename (hp : p.Draws nodes) (hq : q.Draws nodes')
    (h : p.outline.frame k = q.outline.frame k) {f : NodeId → NodeId}
    (hf : (q.rootNode :: nodes').map Node.id = ((p.rootNode :: nodes).map Node.id).map f) :
    q.drawing.wiring.edges = p.drawing.wiring.edges.map (Edge.rename f) := by
  simp only [List.map_cons, List.cons.injEq] at hf
  exact (hp.grown.mirrors hq.grown h).edges f hf.1.symm hf.2

end Script.Draws

end SyntaxChart
