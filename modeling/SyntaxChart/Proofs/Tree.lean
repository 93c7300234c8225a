import SyntaxChart.Outline.Syntax

/-!
# The tree of a script

The tree that the chart of a script is meant to show, given by a table with one row for each kind of
syntax: the kind and the label of its node, and its branches with their roles. A list is a node of
its own with the label `:`, also when it is empty.

The outline of a script has this tree (`Script.tree_outline`).
-/

namespace SyntaxChart

/-- A finite ordered tree of labelled nodes, with or without a role on each branch. -/
inductive Tree where
  | node (kind label : String) (branches : List (Option String × Tree))

namespace Tree

def branches : Tree → List (Option String × Tree)
  | node _ _ branches => branches

mutual

def size : Tree → Nat
  | node _ _ branches => sizeBelow branches + 1

def sizeBelow : List (Option String × Tree) → Nat
  | [] => 0
  | (_, t) :: branches => t.size + sizeBelow branches

end

/-- A node that shows a text of the source. -/
def showing (kind text : String) : Tree :=
  node kind (kind ++ "(" ++ text ++ ")") []

/-- A node that shows its kind. -/
def named (kind : String) (branches : List (Option String × Tree)) : Tree :=
  node kind kind branches

/-- A node that stands for a list. -/
def listing (kind : String) (members : List Tree) : Tree :=
  node kind ":" (members.map fun t => (none, t))

end Tree

open SyntaxChart.Tree

def Datum.tree : Datum → Tree
  | empty => named "EmptySExp" []
  | symbol name => named "SymbolSExp" [(some "val", showing "string" name)]
  | pair first rest => named "CompoundSExp" [(some "val1", first.tree), (some "val2", rest.tree)]
  | number x => showing "number" x.text
  | boolean b => showing "boolean" (if b then "#t" else "#f")
  | string text => showing "string" text

def LetKind.treeName : LetKind → String
  | plain => "LetExp"
  | recursive => "LetRecExp"

namespace Expr

mutual

def tree : Expr → Tree
  | number x => showing "NumExp" x.text
  | boolean b => showing "BoolExp" (if b then "#t" else "#f")
  | string text => showing "StrExp" text
  | primitive name => showing "PrimOp" name
  | reference name => showing "VarRef" name
  | lambda params body =>
    named "ProcExp"
      [(some "args", listing "Params" (params.map (showing "VarDecl"))),
        (some "body", listing "Body" (trees body))]
  | conditional test consequent alternative =>
    named "IfExp"
      [(some "test", test.tree), (some "then", consequent.tree), (some "alt", alternative.tree)]
  | application operator operands =>
    named "AppExp" [(some "rator", operator.tree), (some "rands", listing "Rands" (trees operands))]
  | letIn kind bindings body =>
    named kind.treeName
      [(some "bindings", listing "Bindings" (bindingTrees bindings)),
        (some "body", listing "Body" (trees body))]
  | quotation datum => named "LitExp" [(some "val", datum.tree)]
  | assignment target value =>
    named "SetExp" [(some "var", showing "VarRef" target), (some "val", value.tree)]

def trees : List Expr → List Tree
  | [] => []
  | e :: es => e.tree :: trees es

def bindingTrees : List (Binding Expr) → List Tree
  | [] => []
  | ⟨name, value⟩ :: bindings =>
    named "Binding" [(some "var", showing "VarDecl" name), (some "val", value.tree)]
      :: bindingTrees bindings

end

end Expr

def Form.tree : Form → Tree
  | definition name value =>
    named "DefineExp" [(some "var", showing "VarDecl" name), (some "val", value.tree)]
  | expression e => e.tree

def Script.tree : Script → Tree
  | program forms => named "Program" [(some "exps", listing "Exps" (forms.map Form.tree))]
  | form f => f.tree

namespace Outline

mutual

def tree : Outline → Tree
  | .node c label fields => .node c.name label (fieldBranches fields)

def fieldBranches : List Field → List (Option String × Tree)
  | [] => []
  | .one role child :: fields => (some role, child.tree) :: fieldBranches fields
  | .group role c members :: fields =>
    (some role, .node c.name Registry.groupLabel (memberBranches members)) :: fieldBranches fields
  | .leaf role c label :: fields => (some role, .node c.name label []) :: fieldBranches fields

def memberBranches : List Outline → List (Option String × Tree)
  | [] => []
  | o :: os => (none, o.tree) :: memberBranches os

end

theorem memberBranches_eq (os : List Outline) :
    memberBranches os = (os.map tree).map fun t => (none, t) := by
  induction os with
  | nil => rfl
  | cons o os ih => simp [memberBranches, ih]

theorem tree_eq (o : Outline) :
    o.tree = .node o.category.name o.label (fieldBranches o.fields) := by
  cases o
  rfl

end Outline

/-! ## The outline of a script has its tree -/

section

open Outline (fieldBranches memberBranches_eq)

theorem Outline.tree_named (c : Category) (fields : List Field) :
    (Outline.named c fields).tree = Tree.named c.name (fieldBranches fields) := rfl

theorem Datum.tree_outline (d : Datum) : d.outline.tree = d.tree := by
  induction d with
  | pair first rest ih1 ih2 =>
    simp only [outline, tree, Outline.tree_named, fieldBranches, ih1, ih2]
    rfl
  | _ => rfl

namespace Expr

theorem map_tree_declarationOutline (names : List String) :
    (names.map declarationOutline).map Outline.tree = names.map (Tree.showing "VarDecl") := by
  rw [List.map_map]
  rfl

mutual

theorem tree_outline (e : Expr) : e.outline.tree = e.tree := by
  cases e with
  | lambda params body =>
    simp only [outline, tree, Outline.tree_named, fieldBranches, memberBranches_eq,
      map_tree_declarationOutline, map_tree_outlines body]
    rfl
  | conditional test consequent alternative =>
    simp only [outline, tree, Outline.tree_named, fieldBranches, tree_outline test,
      tree_outline consequent, tree_outline alternative]
    rfl
  | application operator operands =>
    simp only [outline, tree, Outline.tree_named, fieldBranches, memberBranches_eq,
      tree_outline operator, map_tree_outlines operands]
    rfl
  | letIn kind bindings body =>
    simp only [outline, tree, Outline.tree_named, fieldBranches, memberBranches_eq,
      map_tree_bindingOutlines bindings, map_tree_outlines body]
    cases kind <;> rfl
  | quotation datum =>
    simp only [outline, tree, Outline.tree_named, fieldBranches, datum.tree_outline]
    rfl
  | assignment target value =>
    simp only [outline, tree, Outline.tree_named, fieldBranches, tree_outline value]
    rfl
  | _ => rfl

theorem map_tree_outlines (es : List Expr) : (outlines es).map Outline.tree = trees es := by
  cases es with
  | nil => rfl
  | cons e es => simp only [outlines, trees, List.map_cons, tree_outline e, map_tree_outlines es]

theorem map_tree_bindingOutlines (bindings : List (Binding Expr)) :
    (bindingOutlines bindings).map Outline.tree = bindingTrees bindings := by
  match bindings with
  | [] => rfl
  | ⟨name, value⟩ :: bindings =>
    simp only [bindingOutlines, bindingTrees, List.map_cons, Outline.tree_named, fieldBranches,
      tree_outline value, map_tree_bindingOutlines bindings]
    rfl

end

end Expr

theorem Form.tree_outline (f : Form) : f.outline.tree = f.tree := by
  cases f with
  | definition name value =>
    simp only [outline, tree, Outline.tree_named, fieldBranches, value.tree_outline]
    rfl
  | expression e => exact e.tree_outline

/-- The outline of a script has the tree that the table gives. -/
theorem Script.tree_outline (s : Script) : s.outline.tree = s.tree := by
  cases s with
  | program forms =>
    have hforms : (forms.map Form.outline).map Outline.tree = forms.map Form.tree := by
      simp [Form.tree_outline]
    simp only [outline, tree, Outline.tree_named, fieldBranches, memberBranches_eq, hforms]
    rfl
  | form f => exact f.tree_outline

end

end SyntaxChart
