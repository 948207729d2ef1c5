/-
The usual cleanup of treebank trees: function tags are cut off (`NP-SBJ` becomes `NP`), empty elements go
together with every node that is left without words, and a node over nothing but a node with the same
label is merged with it. A tree of empty elements only has no cleaned form.
-/
import Constituency.Tree.Relabel

namespace Constituency

/-! ## Function tags -/

def isTagMark (c : Char) : Bool := c == '-' || c == '=' || c == ':'

/-- A label without its function tags; labels such as `-LRB-` and `:` start with a mark and survive. -/
def withoutFunctionTags : String → String := cutAtMark isTagMark

def Tree.stripFunctionTags (t : Tree) : Tree := t.relabel withoutFunctionTags

/-! ## Empty elements -/

def emptyElementLabel : String := "-NONE-"

/-- A node over the given children, unless there are none left. -/
def nonemptyNode? (l : String) : Forest → Option Tree
  | [] => none
  | t :: ts => some (.node l (t :: ts))

mutual

/-- The tree without its empty elements, if any word is left. -/
def Tree.dropEmpty? : Tree → Option Tree
  | .node w [] => some (.node w [])
  | .node l (t :: ts) =>
    if l = emptyElementLabel then none else nonemptyNode? l (t.dropEmpty?.toList ++ Forest.dropEmpty ts)

def Forest.dropEmpty : Forest → Forest
  | [] => []
  | t :: ts => t.dropEmpty?.toList ++ Forest.dropEmpty ts

end

@[simp] theorem Forest.dropEmpty_eq (ts : Forest) : Forest.dropEmpty ts = ts.filterMap Tree.dropEmpty? := by
  induction ts with
  | nil => rfl
  | cons t ts ih =>
    rw [Forest.dropEmpty, ih, List.filterMap_cons]
    cases t.dropEmpty? <;> rfl

@[simp] theorem Tree.dropEmpty?_leaf (w : String) : (Tree.node w []).dropEmpty? = some (.node w []) := rfl

theorem Tree.dropEmpty?_node (l : String) {ts : Forest} (h : ts ≠ []) :
    (Tree.node l ts).dropEmpty? =
      if l = emptyElementLabel then none else nonemptyNode? l (ts.filterMap Tree.dropEmpty?) := by
  cases ts with
  | nil => contradiction
  | cons t ts =>
    rw [Tree.dropEmpty?, ← Forest.dropEmpty_eq (t :: ts), Forest.dropEmpty]

/-! ## Chains of equal labels -/

/-- The children of a node with the label `l`: an only child that has the same label and children of its
own is replaced by these. -/
def absorb (l : String) : Forest → Forest
  | [.node m (t :: ts)] => if m = l then t :: ts else [.node m (t :: ts)]
  | ts => ts

mutual

/-- The tree with each chain of equal labels merged into one node. -/
def Tree.mergeChains : Tree → Tree
  | .node l ts => .node l (absorb l (Forest.mergeChains ts))

def Forest.mergeChains : Forest → Forest
  | [] => []
  | t :: ts => t.mergeChains :: Forest.mergeChains ts

end

@[simp] theorem Forest.mergeChains_eq (ts : Forest) : Forest.mergeChains ts = ts.map Tree.mergeChains := by
  induction ts with
  | nil => rfl
  | cons t ts ih => rw [Forest.mergeChains, ih, List.map_cons]

@[simp] theorem Tree.mergeChains_node (l : String) (ts : Forest) :
    (Tree.node l ts).mergeChains = .node l (absorb l (ts.map Tree.mergeChains)) := by
  rw [Tree.mergeChains, Forest.mergeChains_eq]

/-! ## All of it -/

/-- The cleaned form of a treebank tree, if any word is left. -/
def Tree.normalize? (t : Tree) : Option Tree := t.stripFunctionTags.dropEmpty?.map Tree.mergeChains

end Constituency
