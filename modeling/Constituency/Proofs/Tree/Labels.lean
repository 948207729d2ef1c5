/-
Labels above the words. `EveryInner P` says that the label of every node that is not a leaf has the property
`P`; it passes through the transforms of trees label by label, so that what a transform does to a tree follows
from what it does to a label (`relabel_eq_self`). Cutting labels at marks is idempotent (`cutAtMark_idem`).
-/
import Constituency.Treebank.Cleanup
import Mathlib.Data.List.TakeWhile
import Mathlib.Tactic

namespace Constituency

/-! ## Cutting at marks -/

section Cut

variable {isMark : Char → Bool} {c : Char} {cs : List Char}

theorem cutAtMark_ofList_of_mark (cs : List Char) (h : isMark c = true) :
    cutAtMark isMark (String.ofList (c :: cs)) = String.ofList (c :: cs) := by
  simp [cutAtMark, h]

theorem cutAtMark_ofList (isMark : Char → Bool) {c : Char} (cs : List Char) (h : isMark c = false) :
    cutAtMark isMark (String.ofList (c :: cs)) = String.ofList (c :: cs.takeWhile (!isMark ·)) := by
  simp [cutAtMark, h]

theorem exists_ofList_cons {l : String} (h : l ≠ "") : ∃ c cs, l = String.ofList (c :: cs) := by
  cases hl : l.toList with
  | nil => exact absurd (String.toList_eq_nil_iff.1 hl) h
  | cons c cs => exact ⟨c, cs, by rw [← hl, String.ofList_toList]⟩

theorem cutAtMark_idem (isMark : Char → Bool) (l : String) :
    cutAtMark isMark (cutAtMark isMark l) = cutAtMark isMark l := by
  by_cases hl : l = ""
  · subst hl; rfl
  · obtain ⟨c, cs, rfl⟩ := exists_ofList_cons hl
    cases hc : isMark c with
    | true => rw [cutAtMark_ofList_of_mark _ hc, cutAtMark_ofList_of_mark _ hc]
    | false => rw [cutAtMark_ofList _ _ hc, cutAtMark_ofList _ _ hc, List.takeWhile_idem]

/-- A label without marks is left whole. -/
theorem cutAtMark_eq_self {l : String} (h : ∀ x ∈ l.toList, isMark x = false) : cutAtMark isMark l = l := by
  by_cases hl : l = ""
  · subst hl; rfl
  · obtain ⟨c, cs, rfl⟩ := exists_ofList_cons hl
    simp only [String.toList_ofList, List.forall_mem_cons] at h
    rw [cutAtMark_ofList isMark cs h.1, List.takeWhile_eq_self_iff.2 fun x hx => by simp [h.2 x hx]]

theorem subset_of_cutAtMark (isMark : Char → Bool) (l : String) : (cutAtMark isMark l).toList ⊆ l.toList := by
  by_cases hl : l = ""
  · subst hl; exact List.Subset.refl _
  · obtain ⟨c, cs, rfl⟩ := exists_ofList_cons hl
    cases hc : isMark c with
    | true => rw [cutAtMark_ofList_of_mark cs hc]; exact List.Subset.refl _
    | false =>
      rw [cutAtMark_ofList isMark cs hc, String.toList_ofList, String.toList_ofList]
      exact List.cons_subset_cons c (List.takeWhile_subset _)

end Cut

/-! ## Every label above the words -/

namespace Tree

/-- The label of every node that is not a leaf has a property. -/
def EveryInner (P : String → Prop) (t : Tree) : Prop := ∀ s ∈ t.subtrees, s.isLeaf = false → P s.label

variable {P : String → Prop} {f g : String → String} {l : String} {t u : Tree} {ts : Forest}

theorem everyInner_leaf (w : String) : (node w []).EveryInner P := by
  simp [EveryInner, subtrees_node]

theorem everyInner_node : (node l ts).EveryInner P ↔ (ts ≠ [] → P l) ∧ ∀ t ∈ ts, t.EveryInner P := by
  unfold EveryInner
  rw [forall_mem_subtrees_node]
  simp

theorem EveryInner.relabel (h : t.EveryInner fun l => P (f l)) : (t.relabel f).EveryInner P := by
  induction t using induction_on_children with
  | h l ts ih =>
    by_cases hts : ts = []
    · subst hts; exact everyInner_leaf l
    · obtain ⟨hl, hchildren⟩ := everyInner_node.1 h
      rw [relabel_node f l hts]
      refine everyInner_node.2 ⟨fun _ => hl hts, ?_⟩
      simp only [List.mem_map, forall_exists_index, and_imp]
      rintro _ t ht rfl
      exact ih t ht (hchildren t ht)

/-- Relabelling twice by turns that agree on the labels above the words gives the same tree. -/
theorem relabel_congr (h : t.EveryInner fun l => f l = g l) : t.relabel f = t.relabel g := by
  induction t using induction_on_children with
  | h l ts ih =>
    by_cases hts : ts = []
    · subst hts; rfl
    · obtain ⟨hl, hchildren⟩ := everyInner_node.1 h
      rw [relabel_node f l hts, relabel_node g l hts, hl hts]
      congr 1
      exact List.map_congr_left fun t ht => ih t ht (hchildren t ht)

theorem relabel_id (t : Tree) : t.relabel id = t := by
  induction t using induction_on_children with
  | h l ts ih =>
    by_cases hts : ts = []
    · subst hts; rfl
    · rw [relabel_node id l hts, List.map_congr_left ih, List.map_id', id]

theorem relabel_eq_self (h : t.EveryInner fun l => f l = l) : t.relabel f = t := by
  rw [relabel_congr (g := id) h, relabel_id]

/-! ## Labels in cleaned trees -/

theorem EveryInner.dropEmpty? (h : t.EveryInner P) : ∀ u, t.dropEmpty? = some u → u.EveryInner P := by
  induction t using induction_on_children with
  | h l ts ih =>
    intro u hu
    by_cases hts : ts = []
    · subst hts
      cases hu
      exact everyInner_leaf l
    · obtain ⟨hl, hchildren⟩ := everyInner_node.1 h
      rw [dropEmpty?_node l hts] at hu
      split at hu
      · cases hu
      · cases hkept : ts.filterMap Tree.dropEmpty? with
        | nil => rw [hkept] at hu; cases hu
        | cons s ss =>
          rw [hkept] at hu
          cases hu
          rw [← hkept]
          refine everyInner_node.2 ⟨fun _ => hl hts, ?_⟩
          simp only [List.mem_filterMap, forall_exists_index, and_imp]
          exact fun u t ht hu => ih t ht (hchildren t ht) u hu

theorem EveryInner.mergeChains (h : t.EveryInner P) : t.mergeChains.EveryInner P := by
  induction t using induction_on_children with
  | h l ts ih =>
    obtain ⟨hl, hchildren⟩ := everyInner_node.1 h
    have hmerged : (node l (ts.map Tree.mergeChains)).EveryInner P := by
      refine everyInner_node.2 ⟨fun hts => hl (by simpa using hts), ?_⟩
      simp only [List.mem_map, forall_exists_index, and_imp]
      rintro _ t ht rfl
      exact ih t ht (hchildren t ht)
    rw [mergeChains_node]
    generalize ts.map Tree.mergeChains = us at hmerged
    unfold absorb
    split
    · split
      · rename_i heq
        subst heq
        exact (everyInner_node.1 hmerged).2 _ (List.mem_singleton_self _)
      · exact hmerged
    · exact hmerged

/-- A tree that was cleaned up has its function tags cut off. -/
theorem stripped_of_normalize? (h : u.normalize? = some t) :
    t.EveryInner fun l => withoutFunctionTags l = l := by
  obtain ⟨s, hs, rfl⟩ := Option.map_eq_some_iff.1 h
  have hstripped : u.stripFunctionTags.EveryInner fun l => withoutFunctionTags l = l :=
    EveryInner.relabel fun s _ _ => cutAtMark_idem isTagMark s.label
  exact (hstripped.dropEmpty? s hs).mergeChains

end Tree

end Constituency
