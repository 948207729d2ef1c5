/-
Rewriting the labels of the nodes above the words. Words, shape and the order of children stay as they are,
and two rewritings in a row are one (`relabel_relabel`). The labels of treebanks are cut at marks: everything
from the first mark on goes, unless the label starts with a mark.
-/
import Constituency.Tree.Basic

namespace Constituency

/-! ## Labels above the words -/

mutual

/-- The tree with `f` applied to the label of each node that is not a leaf. -/
def Tree.relabel (f : String → String) : Tree → Tree
  | .node w [] => .node w []
  | .node l (t :: ts) => .node (f l) (t.relabel f :: Forest.relabel f ts)

def Forest.relabel (f : String → String) : Forest → Forest
  | [] => []
  | t :: ts => t.relabel f :: Forest.relabel f ts

end

@[simp] theorem Forest.relabel_eq (f : String → String) (ts : Forest) :
    Forest.relabel f ts = ts.map (Tree.relabel f) := by
  induction ts with
  | nil => rfl
  | cons t ts ih => rw [Forest.relabel, ih, List.map_cons]

@[simp] theorem Tree.relabel_leaf (f : String → String) (w : String) :
    (Tree.node w []).relabel f = .node w [] := rfl

theorem Tree.relabel_node (f : String → String) (l : String) {ts : Forest} (h : ts ≠ []) :
    (Tree.node l ts).relabel f = .node (f l) (ts.map (Tree.relabel f)) := by
  cases ts with
  | nil => contradiction
  | cons t ts => simp [Tree.relabel]

theorem Tree.relabel_relabel (f g : String → String) (t : Tree) :
    (t.relabel f).relabel g = t.relabel (g ∘ f) := by
  induction t using Tree.induction_on_children with
  | h l ts ih =>
    cases ts with
    | nil => rfl
    | cons t ts =>
      simp only [Tree.relabel, Forest.relabel_eq, List.map_map, Function.comp_apply]
      congr 2
      · exact ih t (by simp)
      · exact List.map_congr_left fun s hs => ih s (by simp [hs])

/-! ## Cutting labels at marks -/

/-- The part of a label in front of its first mark; a label that starts with a mark is kept whole. -/
def cutAtMark (isMark : Char → Bool) (label : String) : String :=
  match label.toList with
  | [] => label
  | c :: cs => if isMark c then label else String.ofList (c :: cs.takeWhile (!isMark ·))

end Constituency
