/-
What splicing leaves of an arbitrary tree. A node is spliced before its parent takes it, and what takes its place holds
all nodes below it, and the node itself unless it looks inserted. So the nodes below the root of the spliced tree are
those of the tree that do not look inserted, each of them spliced, in the order they had (`descendants_splice`). As
splicing changes neither the label of a node nor whether it is a leaf, no node that is left looks inserted, and there is
nothing to do for a second time (`splice_eq_self`).
-/
import Constituency.Proofs.Annotation.RoundTrip
import Constituency.Proofs.Annotation.Yield

namespace Constituency.Tree

/-! ## Nodes below the root -/

/-- The nodes below the root, each as the subtree it heads, in preorder. -/
def descendants (t : Tree) : List Tree := t.children.flatMap subtrees

theorem descendants_node (l : String) (ts : Forest) : (node l ts).descendants = ts.flatMap subtrees := rfl

theorem subtrees_eq_cons (t : Tree) : t.subtrees = t :: t.descendants := by
  obtain ⟨l, ts⟩ := t
  exact subtrees_node l ts

/-! ## Nodes that are left -/

@[simp] theorem label_splice (t : Tree) : t.splice.label = t.label := by
  obtain ⟨l, ts⟩ := t
  rw [splice_node, label_node, label_node]

theorem not_isInserted (t : Tree) : (!t.isInserted) = (t.isLeaf || t.label.toList.head? != some '@') := by
  obtain ⟨l, ts⟩ := t
  simp [isInserted, bne]

@[simp] theorem isInserted_splice (t : Tree) : t.splice.isInserted = t.isInserted := by
  rw [← Bool.not_inj_iff, not_isInserted, not_isInserted, isLeaf_splice, label_splice]

/-- What takes the place of a node holds the nodes below it, and the node itself unless it looks inserted. -/
theorem flatMap_subtrees_replacement (t : Tree) :
    t.replacement.flatMap subtrees = if t.isInserted then t.descendants else t :: t.descendants := by
  unfold replacement
  split
  · rfl
  · rw [List.flatMap_singleton, subtrees_eq_cons]

/-- The nodes below the root that do not look inserted are left, each of them spliced, and in the same order. -/
theorem descendants_splice (t : Tree) :
    t.splice.descendants = (t.descendants.filter fun s => !s.isInserted).map splice := by
  induction t using induction_on_children with
  | h l ts ih =>
    rw [splice_node, descendants_node, descendants_node, List.flatMap_assoc, List.filter_flatMap, List.map_flatMap]
    refine List.flatMap_congr fun t ht => ?_
    rw [flatMap_subtrees_replacement, isInserted_splice, ih t ht, t.subtrees_eq_cons, List.filter_cons]
    -- whether the child goes or stays, the nodes below it are those of the induction hypothesis
    cases t.isInserted <;> rfl

theorem isInserted_of_mem_descendants_splice {s t : Tree} (h : s ∈ t.splice.descendants) : s.isInserted = false := by
  rw [descendants_splice, List.mem_map] at h
  obtain ⟨u, hu, rfl⟩ := h
  rw [isInserted_splice]
  simpa using (List.mem_filter.1 hu).2

/-- A tree in which no node below the root looks inserted stays as it is. -/
theorem splice_eq_self {t : Tree} (h : ∀ s ∈ t.descendants, s.isInserted = false) : t.splice = t := by
  induction t using induction_on_children with
  | h l ts ih =>
    have hkept : ∀ t ∈ ts, t.splice.replacement = [t] := by
      intro t ht
      have hnodes : ∀ s ∈ t.subtrees, s.isInserted = false := fun s hs => h s (List.mem_flatMap.2 ⟨t, ht, hs⟩)
      rw [subtrees_eq_cons, List.forall_mem_cons] at hnodes
      rw [ih t ht hnodes.2, replacement_of_not_inserted hnodes.1]
    rw [splice_node, List.flatMap_congr hkept, List.flatMap_singleton']

/-- Splicing keeps the label of the root and the words of every tree and leaves no node below the root that looks
inserted. All other nodes are left, in the same order and each of them spliced, and splicing again changes nothing. -/
theorem splice_complete (t : Tree) :
    t.splice.label = t.label ∧ t.splice.isLeaf = t.isLeaf ∧ t.splice.words = t.words ∧
    (∀ s ∈ t.splice.descendants, s.isLeaf = false → s.label.toList.head? ≠ some '@') ∧
    t.splice.descendants = (t.descendants.filter fun s => s.isLeaf || s.label.toList.head? != some '@').map splice ∧
    t.splice.splice = t.splice := by
  refine ⟨t.label_splice, t.isLeaf_splice, t.words_splice, fun s hs => ?_, ?_, ?_⟩
  · exact isInserted_eq_false_iff.1 (isInserted_of_mem_descendants_splice hs)
  · simp only [descendants_splice, not_isInserted]
  · exact splice_eq_self fun s => isInserted_of_mem_descendants_splice

/-- Inserted nodes go wherever they hang and however many children they have; a leaf or a root that looks like one of
them stays, and a phrase can become a preterminal. -/
example : (node "@A" [node "@B" [node "@C" [leaf "@x", node "D" [node "@E" [leaf "y"]]], leaf "z"]]).splice =
    node "@A" [leaf "@x", preterminal "D" "y", leaf "z"] := by decide +kernel

end Constituency.Tree
