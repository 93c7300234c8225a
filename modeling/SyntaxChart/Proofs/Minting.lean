import SyntaxChart.Registry
import Mathlib.Data.List.Nodup
import Mathlib.Tactic.SplitIfs
import Std.Data.String.ToNat

/-!
# Fresh identifiers

An identifier can be told from its text: no category's name has an underscore in it, so the first
one ends the name (`NodeId.text_inj`). The identifiers a registry has handed out are those from one
up to its counts, each once (`Registry.Sound`), and declaring keeps it so: the next one is new.
-/

namespace SyntaxChart

/-- Two texts that agree as a whole agree up to the first delimiter and behind it. -/
theorem append_cons_inj {α : Type*} {x : α} : ∀ {as bs cs ds : List α}, x ∉ as → x ∉ bs →
    as ++ x :: cs = bs ++ x :: ds → as = bs ∧ cs = ds
  | [], [], _, _, _, _, h => ⟨rfl, (List.cons.inj h).2⟩
  | [], b :: bs, _, _, _, hb, h => by
    simp only [List.nil_append, List.cons_append, List.cons.injEq] at h
    exact absurd (h.1 ▸ List.mem_cons_self) hb
  | a :: as, [], _, _, ha, _, h => by
    simp only [List.nil_append, List.cons_append, List.cons.injEq] at h
    exact absurd (h.1 ▸ List.mem_cons_self) ha
  | a :: as, b :: bs, _, _, ha, hb, h => by
    simp only [List.cons_append, List.cons.injEq] at h
    obtain ⟨h1, h2⟩ := append_cons_inj (fun hm => ha (List.mem_cons_of_mem _ hm))
      (fun hm => hb (List.mem_cons_of_mem _ hm)) h.2
    exact ⟨by rw [h.1, h1], h2⟩

namespace Category

theorem isAlpha_of_mem_name {c : Category} {x : Char} (h : x ∈ c.name.toList) : x.isAlpha := by
  have hall : ∀ x ∈ c.name.toList, x.isAlpha = true := by cases c <;> simp [name]
  exact hall x h

theorem underscore_notMem_name (c : Category) : '_' ∉ c.name.toList := fun h => by
  have := isAlpha_of_mem_name h
  simp at this

theorem name_inj {c d : Category} (h : c.name = d.name) : c = d := by
  cases c <;> cases d <;> simp_all [name]

/-- A name ends at the first underscore behind it. -/
theorem name_append_inj {c d : Category} {cs ds : List Char}
    (h : c.name.toList ++ '_' :: cs = d.name.toList ++ '_' :: ds) : c = d ∧ cs = ds := by
  obtain ⟨hname, hrest⟩ :=
    append_cons_inj c.underscore_notMem_name d.underscore_notMem_name h
  exact ⟨name_inj (String.toList_inj.1 hname), hrest⟩

end Category

namespace NodeId

theorem toList_text (id : NodeId) :
    id.text.toList = id.category.name.toList ++ '_' :: Nat.toDigits 10 id.index := by
  simp [text, Nat.toString_eq_repr, Nat.repr]

/-- An identifier is written in letters, digits and underscores. -/
theorem isAlphanum_of_mem_text {id : NodeId} {x : Char} (h : x ∈ id.text.toList) :
    x.isAlphanum ∨ x = '_' := by
  rw [toList_text, List.mem_append, List.mem_cons] at h
  rcases h with h | rfl | h
  · exact .inl (by simp [Char.isAlphanum, Category.isAlpha_of_mem_name h])
  · exact .inr rfl
  · exact .inl (by simp [Char.isAlphanum, Nat.isDigit_of_mem_toDigits (by decide) (by decide) h])

theorem text_inj {a b : NodeId} : a.text = b.text ↔ a = b := by
  refine ⟨fun h => ?_, fun h => h ▸ rfl⟩
  have h := congrArg String.toList h
  rw [toList_text, toList_text] at h
  obtain ⟨c, i⟩ := a
  obtain ⟨d, j⟩ := b
  obtain ⟨rfl, hi⟩ : c = d ∧ _ := Category.name_append_inj h
  obtain rfl : i = j := Nat.repr_injective (congrArg String.ofList hi)
  rfl

/-- An identifier ends at any character that none has. -/
theorem text_append_inj {a b : NodeId} {x : Char} {cs ds : List Char}
    (hx : ¬(x.isAlphanum ∨ x = '_'))
    (h : a.text.toList ++ x :: cs = b.text.toList ++ x :: ds) : a = b ∧ cs = ds := by
  obtain ⟨hid, hrest⟩ := append_cons_inj (fun hm => hx (isAlphanum_of_mem_text hm))
    (fun hm => hx (isAlphanum_of_mem_text hm)) h
  exact ⟨text_inj.1 (String.toList_inj.1 hid), hrest⟩

end NodeId

namespace Registry

def ids (r : Registry) : List NodeId :=
  r.nodes.toList.map Node.id

/-- The identifiers handed out are those from one up to the counts, each once. -/
structure Sound (r : Registry) : Prop where
  nodup : r.ids.Nodup
  mem_iff : ∀ id, id ∈ r.ids ↔ 1 ≤ id.index ∧ id.index ≤ r.numbering.count id.category

theorem sound_empty : Sound empty where
  nodup := by simp [ids, empty]
  mem_iff id := by simp [ids, empty]; omega

theorem declare_nodes (r : Registry) (c : Category) (label : String) :
    (r.declare c label).2.nodes.toList = r.nodes.toList ++ [⟨(r.declare c label).1, label⟩] := by
  simp [declare]

theorem Sound.declare {r : Registry} (h : r.Sound) (c : Category) (label : String) :
    (r.declare c label).2.Sound := by
  have hids : (r.declare c label).2.ids = r.ids ++ [⟨c, r.numbering.count c + 1⟩] := by
    rw [ids, declare_nodes, List.map_append]
    rfl
  have hcount (d : Category) : (r.declare c label).2.numbering.count d
      = r.numbering.count d + if d = c then 1 else 0 := Numbering.count_next _ c d
  refine ⟨?_, fun id => ?_⟩
  · rw [hids, List.nodup_append]
    refine ⟨h.nodup, List.nodup_singleton _, fun id hid other ho => ?_⟩
    rintro rfl
    rw [List.mem_singleton.1 ho, h.mem_iff] at hid
    simp only at hid
    omega
  · rw [hids, List.mem_append, h.mem_iff, hcount, List.mem_singleton]
    obtain ⟨d, i⟩ := id
    simp only [NodeId.mk.injEq]
    split_ifs with hd
    · subst hd
      simp only [true_and]
      omega
    · simp [hd]

/-- Declaring these nodes, one after the other, leads from one registry to another. -/
inductive Declares : Registry → List Node → Registry → Prop
  | nil (r : Registry) : Declares r [] r
  | cons {r r' : Registry} {c : Category} {label : String} {nodes : List Node} :
      Declares (r.declare c label).2 nodes r' →
      Declares r (⟨(r.declare c label).1, label⟩ :: nodes) r'

namespace Declares

variable {r r' r'' : Registry} {nodes more : List Node}

theorem append (h : Declares r nodes r') (h' : Declares r' more r'') :
    Declares r (nodes ++ more) r'' := by
  induction h with
  | nil => exact h'
  | cons _ ih => exact .cons (ih h')

theorem toList_nodes (h : Declares r nodes r') :
    r'.nodes.toList = r.nodes.toList ++ nodes := by
  induction h with
  | nil => simp
  | cons _ ih => rw [ih, declare_nodes, List.append_assoc, List.singleton_append]

theorem sound (h : Declares r nodes r') (hr : r.Sound) : r'.Sound := by
  induction h with
  | nil => exact hr
  | cons _ ih => exact ih (hr.declare _ _)

end Declares

end Registry

end SyntaxChart
