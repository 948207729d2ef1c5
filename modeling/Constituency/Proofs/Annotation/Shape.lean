/-
The shape of annotated trees. Annotation with parents changes labels only, and binarization only puts nodes with two
children between others: words, tags and the place of the words stay as they were, and no node has more than two
children (`isNarrow_of_mem_annotate`). A property of labels that passes to annotated labels holds of all symbols of
the annotated tree (`EverySymbol.annotateParents`).
-/
import Constituency.Annotation.Basic
import Constituency.Proofs.Grammar.Counts
import Constituency.Proofs.Tree.Words

namespace Constituency

/-! ## Binarized children -/

namespace Forest

theorem binarize_cons_cons (trail : String) (s t : Tree) (ts : Forest) :
    ∃ r, binarize trail (s :: t :: ts) = [s.binarize, r] := by
  cases ts with
  | nil => exact ⟨t.binarize, by rw [binarize]⟩
  | cons u ts => exact ⟨_, by rw [binarize]⟩

theorem binarize_eq_nil_iff {trail : String} {ts : Forest} : binarize trail ts = [] ↔ ts = [] := by
  match ts with
  | [] | [_] => simp [binarize]
  | s :: t :: ts =>
    obtain ⟨r, hr⟩ := binarize_cons_cons trail s t ts
    simp [hr]

theorem length_binarize_le (trail : String) (ts : Forest) : (binarize trail ts).length ≤ 2 := by
  match ts with
  | [] | [_] => simp [binarize]
  | s :: t :: ts =>
    obtain ⟨r, hr⟩ := binarize_cons_cons trail s t ts
    simp [hr]

/-- What passes from two children to a node over them passes from the binarized children to the inserted nodes. -/
theorem forall_mem_binarize {P : Tree → Prop} (hnode : ∀ l s t, P s → P t → P (.node l [s, t])) :
    ∀ (trail : String) (ts : Forest), (∀ t ∈ ts, P t.binarize) → ∀ t ∈ binarize trail ts, P t
  | _, [], _ => by simp [binarize]
  | _, [t], h => by simpa [binarize] using h
  | _, [s, t], h => by simpa [binarize] using h
  | trail, s :: t :: u :: ts, h => by
    rw [List.forall_mem_cons] at h
    have hrest := forall_mem_binarize hnode (trailPast trail s.label) (t :: u :: ts) h.2
    obtain ⟨r, hr⟩ := binarize_cons_cons (trailPast trail s.label) t u ts
    rw [hr, List.forall_mem_cons, List.forall_mem_singleton] at hrest
    rw [binarize, hr, List.forall_mem_cons, List.forall_mem_singleton]
    exact ⟨h.1, hnode _ _ _ hrest.1 hrest.2⟩

/-- A list that a node over two children gets from them is not changed by inserting nodes. -/
theorem flatMap_binarize {α : Type} {f : Tree → List α} (hnode : ∀ l s t, f (.node l [s, t]) = f s ++ f t) :
    ∀ (trail : String) (ts : Forest), (binarize trail ts).flatMap f = ts.flatMap fun t => f t.binarize
  | _, [] | _, [_] | _, [_, _] => by simp [binarize]
  | trail, s :: t :: u :: ts => by
    have hrest := flatMap_binarize hnode (trailPast trail s.label) (t :: u :: ts)
    obtain ⟨r, hr⟩ := binarize_cons_cons (trailPast trail s.label) t u ts
    rw [hr, List.flatMap_cons, List.flatMap_singleton] at hrest
    rw [binarize, hr, List.flatMap_cons, List.flatMap_singleton, hnode, hrest]
    rfl

end Forest

/-! ## Binarized trees -/

namespace Tree

@[simp] theorem isLeaf_binarize (t : Tree) : t.binarize.isLeaf = t.isLeaf := by
  obtain ⟨l, ts⟩ := t
  rw [Bool.eq_iff_iff]
  simp [Forest.binarize_eq_nil_iff]

@[simp] theorem isPreterminal_binarize (t : Tree) : t.binarize.isPreterminal = t.isPreterminal := by
  match t with
  | node _ [] => simp [Forest.binarize]
  | node _ [t] => simp [Forest.binarize]
  | node l (s :: t :: ts) =>
    obtain ⟨r, hr⟩ := Forest.binarize_cons_cons (trailStart l) s t ts
    simp [hr]

@[simp] theorem isLexical_binarize (t : Tree) : t.binarize.isLexical = t.isLexical := by
  simp [isLexical]

@[simp] theorem binarize_leaf (w : String) : (leaf w).binarize = leaf w := by
  simp [leaf, Forest.binarize]

@[simp] theorem binarize_preterminal (tag word : String) : (preterminal tag word).binarize = preterminal tag word := by
  simp [preterminal, Forest.binarize]

@[simp] theorem words_binarize (t : Tree) : t.binarize.words = t.words := by
  induction t using induction_on_children with
  | h l ts ih =>
    by_cases hts : ts = []
    · subst hts; simp [Forest.binarize]
    · have hnode (l : String) (s t : Tree) : (node l [s, t]).words = s.words ++ t.words := by
        simp [words_node]
      rw [binarize_node, words_node l (by simpa [Forest.binarize_eq_nil_iff] using hts), words_node l hts,
        Forest.flatMap_binarize hnode]
      exact List.flatMap_congr ih

@[simp] theorem taggings_binarize (t : Tree) : t.binarize.taggings = t.taggings := by
  induction t using induction_on_phrases with
  | tagged => rw [binarize_preterminal]
  | other l ts hpre ih =>
    have hnode (l : String) (s t : Tree) : (node l [s, t]).taggings = s.taggings ++ t.taggings := by
      rw [taggings_node rfl]
      simp
    rw [taggings_node ((isPreterminal_binarize _).trans hpre), taggings_node hpre, binarize_node, children_node,
      children_node, Forest.flatMap_binarize hnode]
    exact List.flatMap_congr ih

theorem tags_binarize (t : Tree) : t.binarize.tags = t.tags := by
  rw [tags, tags, taggings_binarize]

/-- No node of a binarized tree has more than two children. -/
theorem isNarrow_of_mem_binarize (t : Tree) : ∀ s ∈ t.binarize.subtrees, s.isNarrow = true := by
  induction t using induction_on_children with
  | h l ts ih =>
    rw [binarize_node, forall_mem_subtrees_node]
    refine ⟨decide_eq_true (Forest.length_binarize_le _ ts), Forest.forall_mem_binarize ?_ _ ts ih⟩
    intro m s t hs ht
    rw [forall_mem_subtrees_node]
    exact ⟨rfl, by simpa using ⟨hs, ht⟩⟩

theorem LeavesTagged.binarize {t : Tree} (h : t.LeavesTagged) : t.binarize.LeavesTagged := by
  induction t using induction_on_phrases with
  | tagged tag word =>
    rw [binarize_preterminal]
    exact leavesTagged_preterminal tag word
  | other l ts hpre ih =>
    obtain ⟨hts, hchildren⟩ := (leavesTagged_node hpre).1 h
    have hinserted (m : String) (s t : Tree) (hs : s.LeavesTagged) (ht : t.LeavesTagged) :
        (node m [s, t]).LeavesTagged :=
      (leavesTagged_node rfl).2 ⟨by simp, by simpa using ⟨hs, ht⟩⟩
    rw [← isPreterminal_binarize, binarize_node] at hpre
    rw [binarize_node, leavesTagged_node hpre]
    exact ⟨by simpa [Forest.binarize_eq_nil_iff] using hts,
      Forest.forall_mem_binarize hinserted _ ts fun t ht => ih t ht (hchildren t ht)⟩

/-! ## Trees annotated with parents -/

@[simp] theorem isLeaf_annotateUnder (parent : String) (t : Tree) : (t.annotateUnder parent).isLeaf = t.isLeaf := by
  obtain ⟨l, _ | ⟨t, ts⟩⟩ := t <;> rfl

theorem isPreterminal_map_annotateUnder (l m parent : String) (ts : Forest) :
    (node l (ts.map (annotateUnder parent))).isPreterminal = (node m ts).isPreterminal := by
  match ts with
  | [] => rfl
  | [t] => simp
  | _ :: _ :: _ => rfl

@[simp] theorem isPreterminal_annotateUnder (parent : String) (t : Tree) :
    (t.annotateUnder parent).isPreterminal = t.isPreterminal := by
  obtain ⟨l, ts⟩ := t
  by_cases hts : ts = []
  · subst hts; rfl
  · rw [annotateUnder_node parent l hts, isPreterminal_map_annotateUnder]

@[simp] theorem label_annotateParents (t : Tree) : t.annotateParents.label = t.label := by
  cases t; rfl

@[simp] theorem isPreterminal_annotateParents (t : Tree) : t.annotateParents.isPreterminal = t.isPreterminal := by
  obtain ⟨l, ts⟩ := t
  rw [annotateParents, isPreterminal_map_annotateUnder]

theorem words_annotateUnder (parent : String) (t : Tree) : (t.annotateUnder parent).words = t.words := by
  induction t using induction_on_children generalizing parent with
  | h l ts ih =>
    by_cases hts : ts = []
    · subst hts; rfl
    · rw [annotateUnder_node parent l hts, words_node _ (by simpa using hts), words_node l hts, List.flatMap_map]
      exact List.flatMap_congr fun t ht => ih t ht l

@[simp] theorem words_annotateParents (t : Tree) : t.annotateParents.words = t.words := by
  obtain ⟨l, ts⟩ := t
  by_cases hts : ts = []
  · subst hts; rfl
  · rw [annotateParents, words_node l (by simpa using hts), words_node l hts, List.flatMap_map]
    exact List.flatMap_congr fun t _ => words_annotateUnder l t

section Step

variable {l m : String} {ts : Forest} (hpre : (node l ts).isPreterminal = false)

include hpre

theorem leavesTagged_map_annotateUnder (hts : ts ≠ []) (h : ∀ t ∈ ts, (t.annotateUnder l).LeavesTagged) :
    (node m (ts.map (annotateUnder l))).LeavesTagged := by
  rw [leavesTagged_node (by rw [isPreterminal_map_annotateUnder m l, hpre]), List.forall_mem_map]
  exact ⟨by simpa using hts, h⟩

theorem everySymbol_map_annotateUnder {P : String → Prop} (hm : P m)
    (h : ∀ t ∈ ts, (t.annotateUnder l).EverySymbol P) : (node m (ts.map (annotateUnder l))).EverySymbol P := by
  rw [everySymbol_node (by rw [isPreterminal_map_annotateUnder m l, hpre]), List.forall_mem_map]
  exact ⟨hm, h⟩

end Step

theorem LeavesTagged.annotateUnder {t : Tree} (h : t.LeavesTagged) (parent : String) :
    (t.annotateUnder parent).LeavesTagged := by
  induction t using induction_on_phrases generalizing parent with
  | tagged tag word => exact leavesTagged_preterminal (underParent parent tag) word
  | other l ts hpre ih =>
    obtain ⟨hts, hchildren⟩ := (leavesTagged_node hpre).1 h
    rw [annotateUnder_node parent l hts]
    exact leavesTagged_map_annotateUnder hpre hts fun t ht => ih t ht (hchildren t ht) l

theorem LeavesTagged.annotateParents {t : Tree} (h : t.LeavesTagged) : t.annotateParents.LeavesTagged := by
  induction t using induction_on_phrases with
  | tagged tag word => exact leavesTagged_preterminal tag word
  | other l ts hpre _ =>
    obtain ⟨hts, hchildren⟩ := (leavesTagged_node hpre).1 h
    exact leavesTagged_map_annotateUnder hpre hts fun t ht => (hchildren t ht).annotateUnder l

section EverySymbol

variable {P : String → Prop} (hunder : ∀ l parent, P l → P parent → P (underParent parent l))

include hunder

theorem EverySymbol.annotateUnder {t : Tree} (h : t.EverySymbol P) {parent : String} (hparent : P parent) :
    (t.annotateUnder parent).EverySymbol P := by
  induction t using induction_on_phrases generalizing parent with
  | tagged tag word => exact everySymbol_preterminal.2 (hunder tag parent h.label hparent)
  | other l ts hpre ih =>
    by_cases hts : ts = []
    · subst hts; exact h
    · rw [annotateUnder_node parent l hts]
      exact everySymbol_map_annotateUnder hpre (hunder l parent h.label hparent) fun t ht =>
        ih t ht (((everySymbol_node hpre).1 h).2 t ht) h.label

theorem EverySymbol.annotateParents {t : Tree} (h : t.EverySymbol P) : t.annotateParents.EverySymbol P := by
  induction t using induction_on_phrases with
  | tagged => exact h
  | other l ts hpre _ =>
    exact everySymbol_map_annotateUnder hpre h.label fun t ht =>
      (((everySymbol_node hpre).1 h).2 t ht).annotateUnder hunder h.label

end EverySymbol

/-! ## Annotated trees -/

@[simp] theorem label_annotate (t : Tree) : t.annotate.label = t.label := by
  rw [annotate, label_binarize, label_annotateParents]

@[simp] theorem isPreterminal_annotate (t : Tree) : t.annotate.isPreterminal = t.isPreterminal := by
  rw [annotate, isPreterminal_binarize, isPreterminal_annotateParents]

@[simp] theorem words_annotate (t : Tree) : t.annotate.words = t.words := by
  rw [annotate, words_binarize, words_annotateParents]

/-- No node of an annotated tree has more than two children. -/
theorem isNarrow_of_mem_annotate (t : Tree) : ∀ s ∈ t.annotate.subtrees, s.isNarrow = true :=
  isNarrow_of_mem_binarize t.annotateParents

theorem LeavesTagged.annotate {t : Tree} (h : t.LeavesTagged) : t.annotate.LeavesTagged := h.annotateParents.binarize

end Tree

end Constituency
