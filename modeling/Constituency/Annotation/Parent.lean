/-
Parent annotation: every node below the root that is not a leaf gets the label of its parent behind a
caret, `NP^S`, so that the expansions of a category can depend on where it stands. The parent's label is
the one it had before annotation. Undoing it cuts labels at the first caret.
-/
import Constituency.Tree.Relabel

namespace Constituency

/-- A label with the label of the parent behind a caret. -/
def underParent (parent label : String) : String := label ++ "^" ++ parent

def withoutParent : String → String := cutAtMark (· == '^')

mutual

/-- Annotates a tree that hangs under a node with the label `parent`. -/
def Tree.annotateUnder (parent : String) : Tree → Tree
  | .node w [] => .node w []
  | .node l (t :: ts) => .node (underParent parent l) (t.annotateUnder l :: Forest.annotateUnder l ts)

def Forest.annotateUnder (parent : String) : Forest → Forest
  | [] => []
  | t :: ts => t.annotateUnder parent :: Forest.annotateUnder parent ts

end

@[simp] theorem Forest.annotateUnder_eq (parent : String) (ts : Forest) :
    Forest.annotateUnder parent ts = ts.map (Tree.annotateUnder parent) := by
  induction ts with
  | nil => rfl
  | cons t ts ih => rw [Forest.annotateUnder, ih, List.map_cons]

namespace Tree

@[simp] theorem annotateUnder_leaf (parent w : String) : (node w []).annotateUnder parent = node w [] := rfl

theorem annotateUnder_node (parent l : String) {ts : Forest} (h : ts ≠ []) :
    (node l ts).annotateUnder parent = node (underParent parent l) (ts.map (annotateUnder l)) := by
  cases ts with
  | nil => contradiction
  | cons t ts => simp [annotateUnder]

/-- Annotates every node below the root with its parent; the root has none. -/
def annotateParents : Tree → Tree
  | node l ts => node l (ts.map (annotateUnder l))

def removeParents (t : Tree) : Tree := t.relabel withoutParent

end Tree

end Constituency
