import SyntaxChart.Category

/-!
# Identifiers and the registry of nodes

Nodes are numbered per category, from one. A registry hands out identifiers and records the nodes
they were handed out for, in order.

Counts have no upper bound here. A program that counts in 32 bits hands out the same identifiers as
long as no category has more than 2^32 - 1 of them; the next one stops it if it checks for overflow.
-/

namespace SyntaxChart

/-- The identifier of a node: its category and its number there. -/
structure NodeId where
  category : Category
  index : Nat
deriving DecidableEq, Hashable

namespace NodeId

def text (id : NodeId) : String :=
  id.category.name ++ "_" ++ toString id.index

end NodeId

/-- How many identifiers of each category were handed out, whatever their number; a category not
listed counts zero. -/
structure Numbering where
  counts : List (Category × Nat)

namespace Numbering

def empty : Numbering := ⟨[]⟩

/-- The count of a category in a list of counts. -/
def countIn (c : Category) : List (Category × Nat) → Nat
  | [] => 0
  | (d, k) :: counts => if c = d then k else countIn c counts

/-- Raises the count of a category by one. -/
def raise (c : Category) : List (Category × Nat) → List (Category × Nat)
  | [] => [(c, 1)]
  | (d, k) :: counts => if c = d then (d, k + 1) :: counts else (d, k) :: raise c counts

def count (n : Numbering) (c : Category) : Nat :=
  countIn c n.counts

/-- The next identifier of a category. -/
def next (n : Numbering) (c : Category) : NodeId × Numbering :=
  (⟨c, n.count c + 1⟩, ⟨raise c n.counts⟩)

@[simp]
theorem count_empty (c : Category) : empty.count c = 0 :=
  rfl

theorem countIn_raise (c d : Category) (counts : List (Category × Nat)) :
    countIn d (raise c counts) = countIn d counts + if d = c then 1 else 0 := by
  induction counts with
  | nil => simp [raise, countIn]
  | cons entry counts ih => grind [raise, countIn]

theorem count_next (n : Numbering) (c d : Category) :
    (n.next c).2.count d = n.count d + if d = c then 1 else 0 :=
  countIn_raise c d n.counts

end Numbering

/-- A node: its identifier and its label. -/
structure Node where
  id : NodeId
  label : String
deriving DecidableEq

/-- A group was asked for in a category that is none. -/
structure NotGroup where
  category : Category
deriving DecidableEq

def NotGroup.message (e : NotGroup) : String :=
  e.category.name ++ " is not a pseudo-node category"

/-- The nodes declared so far, and what is needed to number the next. -/
structure Registry where
  numbering : Numbering
  nodes : Array Node

namespace Registry

def empty : Registry := ⟨.empty, #[]⟩

def declare (r : Registry) (c : Category) (label : String) : NodeId × Registry :=
  let (id, numbering) := r.numbering.next c
  (id, ⟨numbering, r.nodes.push ⟨id, label⟩⟩)

/-- The label of every group. -/
def groupLabel : String := ":"

/-- Declares a group. Another category is refused, as in a build that checks its assertions; one that
does not declares the node all the same. -/
def declareGroup (r : Registry) (c : Category) : Except NotGroup (NodeId × Registry) :=
  if c.isGroup then .ok (r.declare c groupLabel) else .error ⟨c⟩

end Registry

end SyntaxChart
