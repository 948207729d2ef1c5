/-
The two written forms of a tree. `Tree.bracketed` is the one-line form `(S (NP (DT the) (NN dog)))`;
`Tree.penn` is the indented form of treebanks, where each node starts a line two columns further in
than its parent, except that a preterminal stays on the line of a preterminal to its left unless one of
the two is a coordinator.
-/
import Constituency.Tree.Basic

namespace Constituency

/-! ## One line -/

mutual

/-- The one-line form: a leaf is its word; any other node is its label and its children between
brackets, with one space before each child. -/
def Tree.bracketed : Tree → String
  | .node w [] => w
  | .node l (t :: ts) => "(" ++ l ++ " " ++ t.bracketed ++ Forest.bracketed ts ++ ")"

def Forest.bracketed : Forest → String
  | [] => ""
  | t :: ts => " " ++ t.bracketed ++ Forest.bracketed ts

end

@[simp] theorem Tree.bracketed_leaf (w : String) : (Tree.node w []).bracketed = w := rfl

theorem Tree.bracketed_node (l : String) {ts : Forest} (h : ts ≠ []) :
    (Tree.node l ts).bracketed = "(" ++ l ++ Forest.bracketed ts ++ ")" := by
  cases ts with
  | nil => contradiction
  | cons t ts => simp [Tree.bracketed, Forest.bracketed, String.append_assoc]

instance : ToString Tree := ⟨Tree.bracketed⟩

/-! ## Indented -/

namespace Tree

/-- Coordinators are the nodes whose label starts with `CC`. -/
def isCoordinator (t : Tree) : Bool := ['C', 'C'].isPrefixOf t.label.toList

/-- A preterminal that lets the next one stay on its line. -/
def keepsLine (t : Tree) : Bool := t.isPreterminal && !t.isCoordinator

/-- Whether a child stays on the line of the text before it: a preterminal does when it comes first, or
when it is no coordinator and follows a preterminal that is none either. -/
def staysOnLine (before : Option Tree) (t : Tree) : Bool :=
  t.isPreterminal && before.all fun s => s.keepsLine && !t.isCoordinator

/-- The start of a new line, two columns deep for each level. -/
def newLine (depth : Nat) : String := "\n" ++ String.ofList (List.replicate (2 * depth) ' ')

/-- What stands before a child: one space, or the start of its own line. -/
def separator (depth : Nat) (before : Option Tree) (t : Tree) : String :=
  if t.staysOnLine before then " " else newLine depth

end Tree

mutual

/-- The indented form of a node at the given depth, without what stands before it. -/
def Tree.indented (depth : Nat) : Tree → String
  | .node w [] => w
  | .node l (t :: ts) =>
    if (Tree.node l (t :: ts)).isPreterminal then (Tree.node l (t :: ts)).bracketed
    else "(" ++ l ++ t.separator (depth + 1) none ++ t.indented (depth + 1)
      ++ Forest.indented (depth + 1) t ts ++ ")"

/-- The indented forms of the children that follow the child `before`, each behind its separator. -/
def Forest.indented (depth : Nat) (before : Tree) : Forest → String
  | [] => ""
  | t :: ts => t.separator depth (some before) ++ t.indented depth ++ Forest.indented depth t ts

end

/-- The indented form of a whole tree; it ends with the end of its last line. -/
def Tree.penn (t : Tree) : String := t.indented 0 ++ "\n"

end Constituency
