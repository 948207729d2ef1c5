/-
Annotating again what was undone. Annotation puts nothing into the labels of the children of a node that the label of
the node does not tell (`Expansion.NamesParent`), and this is a matter of one expansion at a time. So it holds of
whatever is assembled from the expansions of annotated trees, and such a tree comes back when its annotation is undone
and made again (`Assembled.annotate_unannotate`).
-/
import Constituency.Proofs.Annotation.Assembly

namespace Constituency

/-! ## Labels without marks -/

/-- A label that annotation and its undoing leave whole: not empty, with none of the marks that they put in or look
for, and without function tags. -/
structure Unmarked (l : String) : Prop where
  ne_empty : l ≠ ""
  caret_notMem : '^' ∉ l.toList
  plain : Plain l
  head_ne : l.toList.head? ≠ some '@'
  stripped : withoutFunctionTags l = l

instance (l : String) : Decidable (Unmarked l) :=
  decidable_of_iff (l ≠ "" ∧ '^' ∉ l.toList ∧ Plain l ∧ l.toList.head? ≠ some '@' ∧ withoutFunctionTags l = l)
    ⟨fun ⟨hne, hcaret, hplain, hhead, hstripped⟩ => ⟨hne, hcaret, hplain, hhead, hstripped⟩,
      fun h => ⟨h.ne_empty, h.caret_notMem, h.plain, h.head_ne, h.stripped⟩⟩

/-- What undoing the annotation leaves of a label. -/
def bareLabel (l : String) : String := withoutParent (withoutFunctionTags l)

theorem Unmarked.bareLabel_underParent {l : String} (h : Unmarked l) (parent : String) :
    bareLabel (underParent parent l) = l :=
  (cut_underParent h.ne_empty h.caret_notMem parent).trans h.stripped

theorem Unmarked.bareLabel_eq {l : String} (h : Unmarked l) : bareLabel l = l :=
  (withoutParent_withoutFunctionTags h.caret_notMem).trans h.stripped

theorem Tree.unannotate_eq (t : Tree) : t.unannotate = t.splice.relabel bareLabel :=
  Tree.relabel_relabel withoutFunctionTags withoutParent t.splice

/-! ## Children that name their parent -/

/-- The label of every child is annotated with the label of the parent. -/
def Expansion.NamesParent (e : Expansion) : Prop :=
  ∀ c ∈ e.children, c = underParent (bareLabel e.parent) (bareLabel c)

namespace Tree

theorem label_annotateUnder {t : Tree} (h : t.isLeaf = false) (parent : String) :
    (t.annotateUnder parent).label = underParent parent t.label := by
  obtain ⟨l, ts⟩ := t
  rw [annotateUnder_node parent l (by simpa using h)]
  rfl

section Phrases

variable {l : String} {ts : Forest} (hpre : (node l ts).isPreterminal = false) (htagged : (node l ts).LeavesTagged)
  (hlabels : (node l ts).EveryInner Unmarked)

include hpre htagged hlabels

theorem namesParent_node {m : String} (hm : bareLabel m = l) :
    (node m (ts.map (annotateUnder l))).expansion.NamesParent := by
  intro c hc
  simp only [children_expansion, children_node, List.map_map, List.mem_map, Function.comp_apply] at hc
  obtain ⟨t, ht, rfl⟩ := hc
  have hleaf : t.isLeaf = false := (((leavesTagged_node hpre).1 htagged).2 t ht).1
  have ht : Unmarked t.label := (everyInner_node.1 hlabels).2 t ht t t.self_mem_subtrees hleaf
  rw [label_annotateUnder hleaf, ht.bareLabel_underParent, parent_expansion, label_node, hm]

theorem namesParent_phrases {m : String} (hm : bareLabel m = l)
    (hbelow : ∀ t ∈ ts, ∀ s ∈ (t.annotateUnder l).phrases, s.expansion.NamesParent) :
    ∀ s ∈ (node m (ts.map (annotateUnder l))).phrases, s.expansion.NamesParent := by
  have hts : ts ≠ [] := ((leavesTagged_node hpre).1 htagged).1
  have hlex : (node m (ts.map (annotateUnder l))).isLexical = false :=
    isLexical_eq_false_iff.2 ⟨by simpa using hts, by rw [isPreterminal_map_annotateUnder m l, hpre]⟩
  rw [phrases_node hlex, List.forall_mem_cons, List.flatMap_map]
  refine ⟨namesParent_node hpre htagged hlabels hm, fun s hs => ?_⟩
  obtain ⟨t, ht, hs⟩ := List.mem_flatMap.1 hs
  exact hbelow t ht s hs

end Phrases

variable {t : Tree} (htagged : t.LeavesTagged) (hlabels : t.EveryInner Unmarked)

include htagged hlabels

theorem namesParent_annotateUnder (parent : String) :
    ∀ s ∈ (t.annotateUnder parent).phrases, s.expansion.NamesParent := by
  induction t using induction_on_children generalizing parent with
  | h l ts ih =>
    cases hpre : (node l ts).isPreterminal with
    | true =>
      rw [phrases_of_isLexical (by simp [isLexical, hpre])]
      simp
    | false =>
      obtain ⟨hts, hchildren⟩ := (leavesTagged_node hpre).1 htagged
      obtain ⟨hl, hbelow⟩ := everyInner_node.1 hlabels
      rw [annotateUnder_node parent l hts]
      exact namesParent_phrases hpre htagged hlabels ((hl hts).bareLabel_underParent parent) fun t ht =>
        ih t ht (hchildren t ht) (hbelow t ht) l

/-- In an annotated tree every child of a phrase names its parent. -/
theorem namesParent_annotateParents : ∀ s ∈ t.annotateParents.phrases, s.expansion.NamesParent := by
  obtain ⟨l, ts⟩ := t
  cases hpre : (node l ts).isPreterminal with
  | true =>
    rw [phrases_of_isLexical (by simp [isLexical, hpre])]
    simp
  | false =>
    obtain ⟨hts, hchildren⟩ := (leavesTagged_node hpre).1 htagged
    obtain ⟨hl, hbelow⟩ := everyInner_node.1 hlabels
    exact namesParent_phrases hpre htagged hlabels (hl hts).bareLabel_eq fun t ht =>
      namesParent_annotateUnder (hchildren t ht) (hbelow t ht) l

end Tree

/-! ## Assembled trees come back -/

theorem map_annotateUnder_relabel {f : String → String} {l : String} {ts : Forest}
    (h : ∀ t ∈ ts, (t.relabel f).annotateUnder l = t) : (ts.map (Tree.relabel f)).map (Tree.annotateUnder l) = ts := by
  rw [List.map_map]
  exact (List.map_congr_left h).trans (List.map_id ts)

namespace Assembled

variable {es : List Expansion} {tags : List String} (hes : ∀ e ∈ es, e.NamesParent) {t : Tree}

include hes

/-- Below a parent that its label names an assembled tree is what annotating its bare labels gives. -/
theorem annotateUnder_relabel (h : Assembled es tags t) : ∀ {parent : String},
    t.label = underParent parent (bareLabel t.label) → (t.relabel bareLabel).annotateUnder parent = t := by
  induction h with
  | @tagging tag word =>
    intro parent hlabel
    rw [Tree.preterminal, Tree.relabel_node _ _ (by simp), Tree.annotateUnder_node _ _ (by simp)]
    exact congrArg (Tree.node · _) hlabel.symm
  | @phrase l ts hts hmem hchildren ih =>
    intro parent hlabel
    rw [Tree.label_node] at hlabel
    rw [Tree.relabel_node _ l hts, Tree.annotateUnder_node _ _ (by simpa using hts), ← hlabel,
      map_annotateUnder_relabel fun t ht => ih t ht (hes _ hmem t.label (List.mem_map_of_mem ht))]

theorem annotateParents_relabel (h : Assembled es tags t) (hlabel : bareLabel t.label = t.label) :
    (t.relabel bareLabel).annotateParents = t := by
  cases h with
  | tagging =>
    rw [Tree.preterminal, Tree.relabel_node _ _ (by simp)]
    exact congrArg (Tree.node · _) hlabel
  | @phrase l ts hts hmem hchildren =>
    rw [Tree.label_node] at hlabel
    rw [Tree.relabel_node _ l hts, hlabel, Tree.annotateParents, map_annotateUnder_relabel fun t ht => ?_]
    have hnamed := hes _ hmem t.label (List.mem_map_of_mem ht)
    rw [hlabel] at hnamed
    exact (hchildren t ht).annotateUnder_relabel hes hnamed

/-- Undoing the annotation of a binarized tree and annotating what is left gives the tree. -/
theorem annotate_unannotate (hhead : ∀ e ∈ es, e.parent.toList.head? ≠ some '@')
    (htags : ∀ tag ∈ tags, tag.toList.head? ≠ some '@') (h : Assembled es tags t)
    (hlabel : bareLabel t.label = t.label) : t.binarize.unannotate.annotate = t.binarize := by
  rw [Tree.unannotate_eq, h.splice_binarize hhead htags, Tree.annotate, h.annotateParents_relabel hes hlabel]

end Assembled

end Constituency
