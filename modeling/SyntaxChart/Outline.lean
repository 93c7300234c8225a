import SyntaxChart.Registry

/-!
# Outlines

An outline is what the chart shows of a syntax tree: nodes with a category and a label, and under
each node its fields in order. A field is one child, a group of children, or a leaf that has no
syntax tree of its own.
-/

namespace SyntaxChart

mutual

/-- A node and what lies below it. -/
inductive Outline where
  | node (category : Category) (label : String) (fields : List Field)

/-- A field of a node, with the role that labels its edge. -/
inductive Field where
  | one (role : String) (child : Outline)
  | group (role : String) (category : Category) (members : List Outline)
  | leaf (role : String) (category : Category) (label : String)

end

namespace Field

def children : Field → List Outline
  | one _ child => [child]
  | group _ _ members => members
  | leaf _ _ _ => []

/-- A field that is a group has a group's category. -/
def IsGrouped : Field → Prop
  | group _ c _ => c.isGroup
  | _ => True

end Field

namespace Outline

def category : Outline → Category
  | node c _ _ => c

def label : Outline → String
  | node _ label _ => label

def fields : Outline → List Field
  | node _ _ fields => fields

/-- The outlines directly below a node, in order. -/
def children (o : Outline) : List Outline :=
  o.fields.flatMap Field.children

/-- A node whose label is the name of its category. -/
def named (c : Category) (fields : List Field) : Outline :=
  node c c.name fields

/-- A node without fields whose label shows a text. -/
def showing (c : Category) (text : String) : Outline :=
  node c (c.labelWith text) []

/-- Every group of the outline has a group's category. -/
inductive WellGrouped : Outline → Prop
  | intro (o : Outline) (fields : ∀ f ∈ o.fields, f.IsGrouped)
      (children : ∀ child ∈ o.children, WellGrouped child) : WellGrouped o

end Outline

end SyntaxChart
