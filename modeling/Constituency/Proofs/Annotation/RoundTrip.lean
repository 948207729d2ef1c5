/-
Undoing an annotation. Splicing undoes binarization, whatever the words are, as long as no label below the root
starts like that of an inserted node (`splice_binarize`). The function tags are cut while labels still carry the
label of their parent, which may itself hold marks; the caret is not one of the marks, so that what is left in
front of it is the label without its function tags in either order of the cuts (`cut_underParent`).
-/
import Constituency.Annotation.Basic
import Constituency.Proofs.Tree.Labels

namespace Constituency

/-! ## Labels -/

theorem takeWhile_append_cons {α : Type} {p : α → Bool} {x : α} (h : p x = false) (ys : List α) :
    ∀ xs : List α, (xs ++ x :: ys).takeWhile p = xs.takeWhile p
  | [] => by simp [h]
  | a :: xs => by
    rw [List.cons_append, List.takeWhile_cons, List.takeWhile_cons, takeWhile_append_cons h ys xs]

/-- Cutting function tags and the parent off an annotated label gives the label without its function tags. -/
theorem cut_underParent {l : String} (hne : l ≠ "") (hcaret : '^' ∉ l.toList) (parent : String) :
    withoutParent (withoutFunctionTags (underParent parent l)) = withoutFunctionTags l := by
  obtain ⟨c, cs, rfl⟩ := exists_ofList_cons hne
  rw [String.toList_ofList, List.mem_cons, not_or] at hcaret
  obtain ⟨hc, hcs⟩ := hcaret
  have hannotated : underParent parent (String.ofList (c :: cs)) =
      String.ofList (c :: (cs ++ '^' :: parent.toList)) := by
    apply String.toList_injective
    simp [underParent]
  have hfirst : (c == '^') = false := by simpa using Ne.symm hc
  have hbefore : ∀ x ∈ cs, (!(x == '^')) = true := by
    intro x hx
    simpa using fun h : x = '^' => hcs (h ▸ hx)
  have hcut : (cs ++ '^' :: parent.toList).takeWhile (fun x => !(x == '^')) = cs := by
    rw [takeWhile_append_cons (by simp), List.takeWhile_eq_self_iff.2 hbefore]
  rw [hannotated]
  unfold withoutParent withoutFunctionTags
  cases hmark : isTagMark c with
  | true =>
    rw [cutAtMark_ofList_of_mark _ hmark, cutAtMark_ofList_of_mark _ hmark, cutAtMark_ofList (· == '^') _ hfirst,
      hcut]
  | false =>
    -- in the other order the cut at the caret comes first and takes the annotation off
    have hswap (xs : List Char) : (xs.takeWhile (!isTagMark ·)).takeWhile (fun x => !(x == '^')) =
        (xs.takeWhile (fun x => !(x == '^'))).takeWhile (!isTagMark ·) := by
      simp only [List.takeWhile_takeWhile, and_comm]
    rw [cutAtMark_ofList _ _ hmark, cutAtMark_ofList _ _ hmark, cutAtMark_ofList (· == '^') _ hfirst, hswap, hcut]

theorem withoutParent_withoutFunctionTags {l : String} (h : '^' ∉ l.toList) :
    withoutParent (withoutFunctionTags l) = withoutFunctionTags l := by
  refine cutAtMark_eq_self fun x hx => ?_
  have hmem : x ∈ l.toList := subset_of_cutAtMark isTagMark l hx
  simpa using fun hcaret : x = '^' => h (hcaret ▸ hmem)

/-! ## Splicing undoes binarization -/

theorem isInserted_eq_false_iff {t : Tree} :
    t.isInserted = false ↔ (t.isLeaf = false → t.label.toList.head? ≠ some '@') := by
  obtain ⟨l, _ | ⟨t, ts⟩⟩ := t <;> simp [Tree.isInserted]

theorem replacement_of_not_inserted {t : Tree} (h : t.isInserted = false) : t.replacement = [t] := by
  simp [Tree.replacement, h]

theorem replacement_of_inserted {l : String} {ts : Forest} (hl : l.toList.head? = some '@') (hts : ts ≠ []) :
    (Tree.node l ts).replacement = ts := by
  simp [Tree.replacement, Tree.isInserted, hl, hts]

theorem head?_trailPast {trail : String} (h : trail.toList.head? = some '@') (l : String) :
    (trailPast trail l).toList.head? = some '@' := by
  simp [trailPast, h]

/-- The children of a binarized node come back when the inserted ones are spliced. -/
theorem splice_binarize_children : ∀ (ts : Forest) (trail : String), trail.toList.head? = some '@' →
    (∀ t ∈ ts, t.binarize.splice = t ∧ t.isInserted = false) →
      (Forest.binarize trail ts).flatMap (fun t => t.splice.replacement) = ts
  | [], _, _, _ => by simp [Forest.binarize]
  | [t], _, _, h => by
    obtain ⟨ht, hno⟩ := h t (by simp)
    simp [Forest.binarize, ht, replacement_of_not_inserted hno]
  | [s, t], _, _, h => by
    obtain ⟨hs, hsno⟩ := h s (by simp)
    obtain ⟨ht, htno⟩ := h t (by simp)
    simp [Forest.binarize, hs, ht, replacement_of_not_inserted hsno, replacement_of_not_inserted htno]
  | s :: t :: u :: ts, trail, htrail, h => by
    obtain ⟨hs, hsno⟩ := h s (by simp)
    have hpast := head?_trailPast htrail s.label
    have hrest := splice_binarize_children (t :: u :: ts) _ hpast fun r hr => h r (List.mem_cons_of_mem _ hr)
    rw [Forest.binarize, List.flatMap_cons, hs, replacement_of_not_inserted hsno, List.flatMap_singleton,
      Tree.splice_node, hrest, replacement_of_inserted hpast (by simp)]
    rfl

/-- Splicing undoes the binarization of a tree without labels like those of inserted nodes below its root. -/
theorem splice_binarize {t : Tree} (h : ∀ c ∈ t.children, c.EveryInner fun l => l.toList.head? ≠ some '@') :
    t.binarize.splice = t := by
  induction t using Tree.induction_on_children with
  | h l ts ih =>
    rw [Tree.binarize_node, Tree.splice_node]
    congr 1
    refine splice_binarize_children ts _ (by simp [trailStart]) fun t ht => ?_
    have hself := h t ht t t.self_mem_subtrees
    refine ⟨ih t ht fun c hc => ?_, isInserted_eq_false_iff.2 hself⟩
    have hbelow := h t ht
    obtain ⟨m, us⟩ := t
    exact (Tree.everyInner_node.1 hbelow).2 c hc

/-! ## Annotation with parents -/

theorem Tree.EveryInner.annotateUnder {P Q : String → Prop} {t : Tree} (h : t.EveryInner P)
    (hPQ : ∀ l parent, P l → Q (underParent parent l)) (parent : String) : (t.annotateUnder parent).EveryInner Q := by
  induction t using Tree.induction_on_children generalizing parent with
  | h l ts ih =>
    by_cases hts : ts = []
    · subst hts; exact Tree.everyInner_leaf l
    · obtain ⟨hl, hchildren⟩ := Tree.everyInner_node.1 h
      rw [Tree.annotateUnder_node parent l hts]
      refine Tree.everyInner_node.2 ⟨fun _ => hPQ l parent (hl hts), ?_⟩
      simp only [List.mem_map, forall_exists_index, and_imp]
      rintro _ t ht rfl
      exact ih t ht (hchildren t ht) l

theorem head?_underParent {l : String} (hne : l ≠ "") (parent : String) :
    (underParent parent l).toList.head? = l.toList.head? := by
  obtain ⟨c, cs, rfl⟩ := exists_ofList_cons hne
  simp [underParent]

/-- Cutting function tags and parents undoes the annotation below a parent, up to function tags. -/
theorem relabel_annotateUnder {t : Tree} (h : t.EveryInner fun l => l ≠ "" ∧ '^' ∉ l.toList) (parent : String) :
    (t.annotateUnder parent).relabel (withoutParent ∘ withoutFunctionTags) = t.stripFunctionTags := by
  induction t using Tree.induction_on_children generalizing parent with
  | h l ts ih =>
    by_cases hts : ts = []
    · subst hts; rfl
    · obtain ⟨hl, hchildren⟩ := Tree.everyInner_node.1 h
      rw [Tree.annotateUnder_node parent l hts, Tree.relabel_node _ _ (by simpa using hts), Tree.stripFunctionTags,
        Tree.relabel_node _ l hts, Function.comp_apply, cut_underParent (hl hts).1 (hl hts).2, List.map_map]
      congr 1
      exact List.map_congr_left fun t ht => ih t ht (hchildren t ht) l

theorem relabel_annotateParents {t : Tree} (h : t.EveryInner fun l => l ≠ "" ∧ '^' ∉ l.toList) :
    t.annotateParents.relabel (withoutParent ∘ withoutFunctionTags) = t.stripFunctionTags := by
  obtain ⟨l, ts⟩ := t
  rw [Tree.annotateParents]
  by_cases hts : ts = []
  · subst hts; rfl
  · obtain ⟨hl, hchildren⟩ := Tree.everyInner_node.1 h
    rw [Tree.relabel_node _ l (by simpa using hts), Tree.stripFunctionTags, Tree.relabel_node _ l hts,
      Function.comp_apply, withoutParent_withoutFunctionTags (hl hts).2, List.map_map]
    congr 1
    exact List.map_congr_left fun c hc => relabel_annotateUnder (hchildren c hc) l

/-! ## The round trip -/

/-- Splicing an annotated tree leaves the annotation with parents. -/
theorem splice_annotate {t : Tree} (hlabels : t.EveryInner fun l => l ≠ "" ∧ '^' ∉ l.toList)
    (hbelow : ∀ c ∈ t.children, c.EveryInner fun l => l.toList.head? ≠ some '@') :
    t.annotate.splice = t.annotateParents := by
  obtain ⟨l, ts⟩ := t
  refine splice_binarize fun c hc => ?_
  obtain ⟨c, hmem, rfl⟩ := List.mem_map.1 hc
  have hchild : c.EveryInner fun l => l ≠ "" ∧ l.toList.head? ≠ some '@' := fun s hs hleaf =>
    ⟨((Tree.everyInner_node.1 hlabels).2 c hmem s hs hleaf).1, hbelow c hmem s hs hleaf⟩
  refine hchild.annotateUnder (fun m parent hm => ?_) l
  rw [head?_underParent hm.1]
  exact hm.2

/-- Undoing the annotation of a tree gives the tree without its function tags, if no label above the words is
empty or has a caret and none below the root starts with an at sign. So a tree without function tags, such as one
that was cleaned up, comes back as it was. -/
theorem unannotate_annotate {t : Tree} (hlabels : t.EveryInner fun l => l ≠ "" ∧ '^' ∉ l.toList)
    (hbelow : ∀ c ∈ t.children, c.EveryInner fun l => l.toList.head? ≠ some '@') :
    t.annotate.unannotate = t.stripFunctionTags ∧
    (t.EveryInner (fun l => withoutFunctionTags l = l) → t.annotate.unannotate = t) ∧
    ∀ u : Tree, u.normalize? = some t → t.annotate.unannotate = t := by
  have hundone : t.annotate.unannotate = t.stripFunctionTags := by
    rw [Tree.unannotate, splice_annotate hlabels hbelow, Tree.removeParents, Tree.stripFunctionTags,
      Tree.relabel_relabel, relabel_annotateParents hlabels]
  have hsame (hstripped : t.EveryInner fun l => withoutFunctionTags l = l) : t.annotate.unannotate = t :=
    hundone.trans (Tree.relabel_eq_self hstripped)
  exact ⟨hundone, hsame, fun u hu => hsame (Tree.stripped_of_normalize? hu)⟩

/-- A tree with words among its nodes, labels that hold or start with marks, and words that look like labels of
inserted nodes. -/
def knottyTree : Tree :=
  .node "@TOP" [.preterminal "-LRB-" "(", .preterminal ":" "@x", .leaf "^",
    .node "NP-SBJ=1" [.preterminal "NN:a" "dog-s", .leaf "@y", .preterminal "=X" "-", .leaf ""]]

theorem unannotate_annotate_knottyTree : (knottyTree.EveryInner fun l => l ≠ "" ∧ '^' ∉ l.toList) ∧
    (∀ c ∈ knottyTree.children, c.EveryInner fun l => l.toList.head? ≠ some '@') ∧
    knottyTree.annotate.unannotate = .node "@TOP" [.preterminal "-LRB-" "(", .preterminal ":" "@x", .leaf "^",
      .node "NP" [.preterminal "NN" "dog-s", .leaf "@y", .preterminal "=X" "-", .leaf ""]] := by
  have hlabels : knottyTree.EveryInner fun l => l ≠ "" ∧ '^' ∉ l.toList := by
    unfold Tree.EveryInner; decide +kernel
  have hbelow : ∀ c ∈ knottyTree.children, c.EveryInner fun l => l.toList.head? ≠ some '@' := by
    unfold Tree.EveryInner; decide +kernel
  exact ⟨hlabels, hbelow, (unannotate_annotate hlabels hbelow).1.trans (by decide +kernel)⟩

end Constituency
