import Mathlib.Data.Set.Function
import SyntaxChart.Proofs.Captions

/-!
# Let and letrec

A let and a letrec differ in what their own node is called. Switching the kind of any lets in a
script renumbers the nodes of lets only: the other nodes keep their identifiers and their labels,
and the edges keep their places, with the new identifiers at their ends
(`Script.exists_let_renaming_of_levelled_eq`).
-/

namespace SyntaxChart

/-- Whether the nodes of a category stand for lets of either kind. -/
def Category.isLet : Category → Bool
  | letPlain | letRecursive => true
  | _ => false

/-- Makes every let a plain one, so that scripts become equal that differ in the kinds of lets only. -/
def Mask.levelling : Mask where
  number x := x
  boolean b := b
  text text := text
  kind _ := .plain

/-- An entry seen without the kind of its let. -/
def Entry.withoutKind : Entry → Entry :=
  hide Category.isLet fun _ => .letPlain

theorem Mask.hidden_levelling : levelling.Hidden Entry.withoutKind where
  number _ _ _ := rfl
  boolean _ _ _ := rfl
  text _ _ _ := rfl
  kind kind := by cases kind <;> rfl

/-- A list without repetitions whose elements correspond to those of another is renamed to it, by a
renaming that keeps what has to stay. -/
theorem exists_map_eq_of_forall₂ {α : Type*} {stays : α → Prop} {as bs : List α} (has : as.Nodup)
    (h : List.Forall₂ (fun a b => stays a → b = a) as bs) :
    ∃ f : α → α, bs = as.map f ∧ ∀ a, stays a → f a = a := by
  classical
  induction h with
  | nil => exact ⟨id, rfl, fun _ _ => rfl⟩
  | @cons a b as bs hab _ ih =>
    obtain ⟨hnotMem, has⟩ := List.nodup_cons.1 has
    obtain ⟨f, hf, hstays⟩ := ih has
    refine ⟨Function.update f a b, ?_, fun c hc => ?_⟩
    · have hkeeps : as.map (Function.update f a b) = as.map f :=
        List.map_congr_left fun c hc => Function.update_of_ne (ne_of_mem_of_not_mem hc hnotMem) _ _
      rw [List.map_cons, Function.update_self, hkeeps, hf]
    · by_cases hca : c = a
      · subst hca
        rw [Function.update_self, hab hc]
      · rw [Function.update_of_ne hca, hstays c hc]

/-- `n'` stands in the place of `n`, under the identifier that `f` gives it. A let is labelled with
the name of its kind, and any other node keeps its label. -/
structure Node.Switched (f : NodeId → NodeId) (n n' : Node) : Prop where
  id_eq : n'.id = f n.id
  isLet_eq : n'.id.category.isLet = n.id.category.isLet
  label_eq : n.id.category.isLet = false → n'.label = n.label
  letLabels : n.id.category.isLet = true →
    n.label = n.id.category.name ∧ n'.label = n'.id.category.name

namespace Script

theorem Draws.label_of_isLet {s : Script} {nodes : List Node} (h : s.Draws nodes) {n : Node}
    (hn : n ∈ s.rootNode :: nodes) (hc : n.id.category.isLet = true) :
    n.label = n.id.category.name := by
  have hcaption : n.id.category.hasCaption = false := by revert hc; cases n.id.category <;> decide
  have hgroup : n.id.category.isGroup = false := by revert hc; cases n.id.category <;> decide
  rw [h.label_eq_fixedLabel hn hcaption, Category.fixedLabel, hgroup]
  rfl

section Switched

variable {p q : Script} {nodes nodes' : List Node} (hp : p.Draws nodes) (hq : q.Draws nodes')
  (h : p.outline.frame Entry.withoutKind = q.outline.frame Entry.withoutKind)

include hp hq h

theorem Draws.exists_renaming : ∃ f : NodeId → NodeId,
    (q.rootNode :: nodes').map Node.id = ((p.rootNode :: nodes).map Node.id).map f
      ∧ ∀ id, id.category.isLet = false → f id = id := by
  refine exists_map_eq_of_forall₂ hp.nodup ?_
  rw [List.forall₂_map_left_iff, List.forall₂_map_right_iff]
  exact (hp.forall₂_eq_of_not_hidden (fun _ _ => rfl) hq h).imp fun _ _ hn hc =>
    congrArg Node.id (hn hc)

theorem Draws.forall₂_switched {f : NodeId → NodeId}
    (hf : (q.rootNode :: nodes').map Node.id = ((p.rootNode :: nodes).map Node.id).map f) :
    List.Forall₂ (Node.Switched f) (p.rootNode :: nodes) (q.rootNode :: nodes') := by
  rw [List.map_map, eq_comm, map_eq_map_iff_forall₂] at hf
  have hentries := hp.forall₂_entry_eq hq h
  have hsame := hp.forall₂_eq_of_not_hidden (fun _ _ => rfl) hq h
  -- By position: the labels of lets are known for the members of either list, not for pairs.
  refine List.forall₂_iff_get.2 ⟨hentries.length_eq, fun i hi hi' => ?_⟩
  have hisLet := Entry.hidden_eq_of_hide_eq (fun _ _ => rfl) (hentries.get hi hi')
  exact {
    id_eq := (hf.get hi hi').symm
    isLet_eq := hisLet.symm
    label_eq hc := congrArg Node.label (hsame.get hi hi' hc)
    letLabels hc := ⟨hp.label_of_isLet (List.get_mem _ _) hc,
      hq.label_of_isLet (List.get_mem _ _) (hisLet.symm.trans hc)⟩ }

end Switched

/-- The charts of scripts that differ in the kinds of their lets only are the same up to a renaming of
their lets. -/
theorem exists_let_renaming_of_levelled_eq (d : Direction) {p q : Script}
    (h : p.mask .levelling = q.mask .levelling) :
    ∃ f : NodeId → NodeId,
      Set.BijOn f {id | id ∈ (p.chart d).nodes.map Node.id}
          {id | id ∈ (q.chart d).nodes.map Node.id}
        ∧ (∀ id, id.category.isLet = false → f id = id)
        ∧ List.Forall₂ (Node.Switched f) (p.chart d).nodes (q.chart d).nodes
        ∧ (q.chart d).edges = (p.chart d).edges.map (Edge.rename f) := by
  obtain ⟨nodes, hp⟩ := p.exists_draws
  obtain ⟨nodes', hq⟩ := q.exists_draws
  have hframe := frame_eq_of_mask_eq Mask.hidden_levelling h
  obtain ⟨f, hf, hkeeps⟩ := hp.exists_renaming hq hframe
  rw [hp.chart_nodes, hq.chart_nodes, hp.chart_edges, hq.chart_edges]
  refine ⟨f, ?_, hkeeps, hp.forall₂_switched hq hframe hf, hp.edges_eq_rename hq hframe hf⟩
  have hnodup := hq.nodup
  rw [hf] at hnodup ⊢
  exact ⟨fun id hid => List.mem_map_of_mem hid,
    fun id hid id' hid' => List.inj_on_of_nodup_map hnodup hid hid', fun id => List.mem_map.1⟩

/-- A let with a letrec in its binding and a let in its body, of which the first two are switched. The
third keeps its kind, but it was the second let of this kind and becomes the first. -/
theorem exists_let_renaming_nested :
    let p := form (.expression (.letIn .plain
      [⟨"x", .letIn .recursive [] [.reference "y"]⟩] [.letIn .plain [] [.reference "x"]]))
    let q := form (.expression (.letIn .recursive
      [⟨"x", .letIn .plain [] [.reference "y"]⟩] [.letIn .plain [] [.reference "x"]]))
    p.mask .levelling = q.mask .levelling
      ∧ ∃ f : NodeId → NodeId,
        f ⟨.letPlain, 1⟩ = ⟨.letRecursive, 1⟩ ∧ f ⟨.letPlain, 2⟩ = ⟨.letPlain, 1⟩
          ∧ f ⟨.letRecursive, 1⟩ = ⟨.letPlain, 2⟩ ∧ f ⟨.body, 3⟩ = ⟨.body, 3⟩
          ∧ (q.chart .topDown).edges = (p.chart .topDown).edges.map (Edge.rename f) := by
  intro p q
  have h : p.mask .levelling = q.mask .levelling := rfl
  obtain ⟨f, -, hkeeps, hnodes, hedges⟩ := exists_let_renaming_of_levelled_eq .topDown h
  have hids : List.Forall₂ (fun id id' => id' = f id) ((p.chart .topDown).nodes.map Node.id)
      ((q.chart .topDown).nodes.map Node.id) := by
    rw [List.forall₂_map_left_iff, List.forall₂_map_right_iff]
    exact hnodes.imp fun _ _ hn => hn.id_eq
  have hp : (p.chart .topDown).nodes.map Node.id = [⟨.letPlain, 1⟩, ⟨.bindings, 1⟩, ⟨.binding, 1⟩,
      ⟨.body, 1⟩, ⟨.letPlain, 2⟩, ⟨.declaration, 1⟩, ⟨.letRecursive, 1⟩, ⟨.bindings, 2⟩,
      ⟨.body, 2⟩, ⟨.reference, 1⟩, ⟨.bindings, 3⟩, ⟨.body, 3⟩, ⟨.reference, 2⟩] := by cbv
  have hq : (q.chart .topDown).nodes.map Node.id = [⟨.letRecursive, 1⟩, ⟨.bindings, 1⟩,
      ⟨.binding, 1⟩, ⟨.body, 1⟩, ⟨.letPlain, 1⟩, ⟨.declaration, 1⟩, ⟨.letPlain, 2⟩, ⟨.bindings, 2⟩,
      ⟨.body, 2⟩, ⟨.reference, 1⟩, ⟨.bindings, 3⟩, ⟨.body, 3⟩, ⟨.reference, 2⟩] := by cbv
  rw [hp, hq] at hids
  simp only [List.forall₂_cons] at hids
  obtain ⟨hroot, -, -, -, hbody, -, hbinding, -⟩ := hids
  exact ⟨h, f, hroot.symm, hbody.symm, hbinding.symm, hkeeps _ rfl, hedges⟩

end Script

end SyntaxChart
