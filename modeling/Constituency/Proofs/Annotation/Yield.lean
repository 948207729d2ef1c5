/-
The words of a tree when annotation is undone. Splicing replaces a node that looks inserted by its children, whether
binarization put it there or not; as the node is no leaf, there are children to take its place, and no word is lost
(`words_splice`). Cutting labels leaves the words alone, so that undoing annotation keeps the words of every tree
(`words_unannotate`).
-/
import Constituency.Annotation.Basic
import Constituency.Proofs.Tree.Labels

namespace Constituency.Tree

/-! ## Cut labels -/

@[simp] theorem words_relabel (f : String → String) (t : Tree) : (t.relabel f).words = t.words := by
  induction t using induction_on_children with
  | h l ts ih =>
    by_cases hts : ts = []
    · subst hts; rfl
    · rw [relabel_node f l hts, words_node _ (by simpa using hts), words_node l hts, List.flatMap_map]
      exact List.flatMap_congr ih

@[simp] theorem isLeaf_relabel (f : String → String) (t : Tree) : (t.relabel f).isLeaf = t.isLeaf := by
  obtain ⟨l, _ | ⟨t, ts⟩⟩ := t <;> rfl

theorem label_relabel (f : String → String) {t : Tree} (h : t.isLeaf = false) : (t.relabel f).label = f t.label := by
  obtain ⟨l, _ | ⟨t, ts⟩⟩ := t
  · cases h
  · rfl

/-! ## Spliced nodes -/

theorem children_ne_nil_of_isInserted {t : Tree} (h : t.isInserted = true) : t.children ≠ [] := by
  obtain ⟨l, _ | ⟨t, ts⟩⟩ := t
  · cases h
  · exact List.cons_ne_nil t ts

theorem replacement_ne_nil (t : Tree) : t.replacement ≠ [] := by
  unfold replacement
  split
  · exact children_ne_nil_of_isInserted ‹_›
  · exact List.cons_ne_nil t []

/-- What takes the place of a node has the words of the node. -/
theorem flatMap_words_replacement (t : Tree) : t.replacement.flatMap words = t.words := by
  unfold replacement
  split
  · obtain ⟨l, ts⟩ := t
    exact (words_node l (children_ne_nil_of_isInserted ‹_›)).symm
  · rw [List.flatMap_singleton]

theorem flatMap_replacement_eq_nil_iff {ts : Forest} :
    (ts.flatMap fun t => t.splice.replacement) = [] ↔ ts = [] := by
  cases ts with
  | nil => simp
  | cons t ts => simp [replacement_ne_nil]

@[simp] theorem words_splice (t : Tree) : t.splice.words = t.words := by
  induction t using induction_on_children with
  | h l ts ih =>
    by_cases hts : ts = []
    · subst hts; simp
    · rw [splice_node, words_node l (mt flatMap_replacement_eq_nil_iff.1 hts), words_node l hts, List.flatMap_assoc]
      simp only [flatMap_words_replacement]
      exact List.flatMap_congr ih

@[simp] theorem isLeaf_splice (t : Tree) : t.splice.isLeaf = t.isLeaf := by
  obtain ⟨l, ts⟩ := t
  rw [Bool.eq_iff_iff, splice_node, isLeaf_node, isLeaf_node, List.isEmpty_iff, List.isEmpty_iff]
  exact flatMap_replacement_eq_nil_iff

/-! ## Undoing annotation -/

/-- Undoing annotation keeps the words of every tree. -/
@[simp] theorem words_unannotate (t : Tree) : t.unannotate.words = t.words := by
  rw [unannotate, removeParents, words_relabel, stripFunctionTags, words_relabel, words_splice]

theorem label_unannotate {t : Tree} (h : t.isLeaf = false) :
    t.unannotate.label = withoutParent (withoutFunctionTags t.label) := by
  have hstripped : t.splice.stripFunctionTags.isLeaf = false := by
    rw [stripFunctionTags, isLeaf_relabel, isLeaf_splice, h]
  rw [unannotate, removeParents, label_relabel _ hstripped, stripFunctionTags,
    label_relabel _ (by rw [isLeaf_splice, h])]
  obtain ⟨l, ts⟩ := t
  rw [splice_node]
  rfl

end Constituency.Tree
