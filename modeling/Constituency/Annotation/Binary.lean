/-
Binarization: a node with three or more children becomes a chain to the right in which each node has two
children, `(L a b c d)` becoming `(L a (@L->_a b (@L->_a_b c d)))`. The label of an inserted node starts with
an at sign and spells the parent and the siblings to its left, so that chains of different productions never
share a node by accident. Splicing replaces every inserted node by its children.
-/
import Constituency.Tree.Basic

namespace Constituency

/-! ## Inserting nodes -/

/-- The label that the chain of a node with the label `l` starts from. -/
def trailStart (l : String) : String := "@" ++ l ++ "->"

/-- The label of the chain once it has passed a sibling with the label `l`. -/
def trailPast (trail l : String) : String := trail ++ "_" ++ l

mutual

/-- The same tree with at most two children at each node. -/
def Tree.binarize : Tree → Tree
  | .node l ts => .node l (Forest.binarize (trailStart l) ts)

/-- The children of a node whose label records the siblings passed so far: of three or more, all but the
first move under an inserted node. -/
def Forest.binarize (trail : String) : Forest → Forest
  | [] => []
  | [t] => [t.binarize]
  | [s, t] => [s.binarize, t.binarize]
  | s :: t :: u :: ts =>
    let trail := trailPast trail s.label
    [s.binarize, .node trail (Forest.binarize trail (t :: u :: ts))]

end

@[simp] theorem Tree.binarize_node (l : String) (ts : Forest) :
    (Tree.node l ts).binarize = .node l (Forest.binarize (trailStart l) ts) := by
  rw [Tree.binarize]

@[simp] theorem Tree.label_binarize (t : Tree) : t.binarize.label = t.label := by
  cases t; simp

/-! ## Splicing them out -/

namespace Tree

/-- Inserted nodes are the nodes above the words whose label starts with an at sign. -/
def isInserted : Tree → Bool
  | node l ts => !ts.isEmpty && l.toList.head? == some '@'

/-- The children that take the place of a spliced node, or else the node itself. -/
def replacement (t : Tree) : Forest := if t.isInserted then t.children else [t]

end Tree

mutual

/-- The same tree with every inserted node below the root replaced by its children. -/
def Tree.splice : Tree → Tree
  | .node l ts => .node l (Forest.splice ts)

def Forest.splice : Forest → Forest
  | [] => []
  | t :: ts => t.splice.replacement ++ Forest.splice ts

end

@[simp] theorem Forest.splice_eq (ts : Forest) :
    Forest.splice ts = ts.flatMap fun t => t.splice.replacement := by
  induction ts with
  | nil => rfl
  | cons t ts ih => rw [Forest.splice, ih, List.flatMap_cons]

@[simp] theorem Tree.splice_node (l : String) (ts : Forest) :
    (Tree.node l ts).splice = .node l (ts.flatMap fun t => t.splice.replacement) := by
  rw [Tree.splice, Forest.splice_eq]

end Constituency
