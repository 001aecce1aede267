import PklAnalysis.Tree.Basic

/-!
# Outlines

An outline is a syntax tree before its nodes are numbered: kinds, children, and the spans that are
known.  `Outline.tree` numbers the nodes in pre-order and places those without a span: a cursor
advances by one where a node opens and by one where it closes, so a node with `k` nodes in its
subtree covers `2 * k` positions from the cursor on.
-/

namespace PklAnalysis

inductive Outline where
  | node (kind : NodeKind) (span : Option Span) (children : List Outline)

namespace Outline

mutual

/-- The number of nodes. -/
def size : Outline → Nat
  | .node _ _ children => sizeOfAll children + 1

def sizeOfAll : List Outline → Nat
  | [] => 0
  | o :: os => size o + sizeOfAll os

end

/-- A node without children and without a known span. -/
def leaf (kind : NodeKind) : Outline := .node kind none []

/-- The indices of siblings of which the first has the given index. -/
def siblingIndices (index : Nat) : List Outline → List Nat
  | [] => []
  | o :: os => index :: siblingIndices (index + o.size) os

mutual

/-- The nodes of an outline in pre-order: `index` is the place of its first node, `cursor` the
position at which that opens. -/
def nodes (parent : Option Nat) (index cursor : Nat) : Outline → List Node
  | .node kind span children =>
    { kind
      parent
      children := siblingIndices (index + 1) children
      span := span.getD ⟨cursor, cursor + 2 * (sizeOfAll children + 1)⟩ }
      :: nodesOfAll index (index + 1) (cursor + 1) children

/-- The nodes of siblings, one after the other. -/
def nodesOfAll (parent index cursor : Nat) : List Outline → List Node
  | [] => []
  | o :: os =>
    nodes (some parent) index cursor o
      ++ nodesOfAll parent (index + o.size) (cursor + 2 * o.size) os

end

/-- The numbered tree. -/
def tree (o : Outline) (id : ModuleId) (version : Nat) : Tree :=
  ⟨id, version, (o.nodes none 0 0).toArray⟩

mutual

@[simp] theorem length_nodes (parent : Option Nat) (index cursor : Nat) (o : Outline) :
    (o.nodes parent index cursor).length = o.size := by
  cases o with
  | node kind span children => simp [nodes, size, length_nodesOfAll]
termination_by structural o

@[simp] theorem length_nodesOfAll (parent index cursor : Nat) (os : List Outline) :
    (nodesOfAll parent index cursor os).length = sizeOfAll os := by
  cases os with
  | nil => rfl
  | cons o os => simp [nodesOfAll, sizeOfAll, length_nodes, length_nodesOfAll]
termination_by structural os

end

@[simp] theorem size_tree (o : Outline) (id : ModuleId) (version : Nat) :
    (o.tree id version).size = o.size := by
  simp [tree, Tree.size]

end Outline

end PklAnalysis
