/-
Where the words of a tree stand. A word is tagged when it is the only child of its parent; in a tree whose leaves are
all tagged (`LeavesTagged`) no phrase has a word among its children, and there are as many tags as words
(`isFullyTagged_iff`). The symbols of a tree are its labels other than tagged words: what a grammar that is estimated
from the tree gets to see. `EverySymbol P` says that each of them has the property `P`; it goes down to every node that
is not a word (`EverySymbol.of_mem_subtrees`).
-/
import Constituency.Proofs.Tree.Labels

namespace Constituency

namespace Tree

theorem isLexical_eq_false_iff {t : Tree} : t.isLexical = false ↔ t.isLeaf = false ∧ t.isPreterminal = false := by
  simp [isLexical]

theorem isPreterminal_eq_true_iff {t : Tree} : t.isPreterminal = true ↔ ∃ tag word, t = .preterminal tag word := by
  constructor
  · intro h
    match t with
    | node tag [node word []] => exact ⟨tag, word, rfl⟩
    | node _ [] | node _ [node _ (_ :: _)] | node _ (_ :: _ :: _) => simp at h
  · rintro ⟨_, _, rfl⟩
    rfl

/-- A property of all trees follows when preterminals have it and it passes to every other node from its children. -/
theorem induction_on_phrases {P : Tree → Prop} (tagged : ∀ tag word, P (preterminal tag word))
    (other : ∀ l ts, (node l ts).isPreterminal = false → (∀ t ∈ ts, P t) → P (node l ts)) (t : Tree) : P t := by
  induction t using induction_on_children with
  | h l ts ih =>
    cases hpre : (node l ts).isPreterminal with
    | true =>
      obtain ⟨tag, word, heq⟩ := isPreterminal_eq_true_iff.1 hpre
      rw [heq]
      exact tagged tag word
    | false => exact other l ts hpre ih

theorem tags_node {t : Tree} (h : t.isPreterminal = false) : t.tags = t.children.flatMap tags := by
  rw [tags, taggings_node h, List.map_flatMap]
  rfl

/-- The taggings of a tree are its preterminals. -/
theorem mem_taggings_iff {t : Tree} {x : Tagging} : x ∈ t.taggings ↔ .preterminal x.tag x.word ∈ t.subtrees := by
  induction t using induction_on_phrases with
  | tagged tag word =>
    obtain ⟨w, t⟩ := x
    simp [preterminal, leaf, subtrees_node, and_comm]
  | other l ts hpre ih =>
    have hother : preterminal x.tag x.word ≠ node l ts := by
      intro heq
      rw [← heq] at hpre
      cases hpre
    simp only [taggings_node hpre, children_node, List.mem_flatMap, subtrees_node, List.mem_cons, hother, false_or]
    exact exists_congr fun t => and_congr_right (ih t)

/-- The tags of a tree are the labels of its preterminals. -/
theorem mem_tags_iff {t : Tree} {tag : String} : tag ∈ t.tags ↔ ∃ word, .preterminal tag word ∈ t.subtrees := by
  simp only [tags, List.mem_map, mem_taggings_iff]
  constructor
  · rintro ⟨x, hx, rfl⟩
    exact ⟨x.word, hx⟩
  · rintro ⟨word, h⟩
    exact ⟨⟨word, tag⟩, h, rfl⟩

/-! ## Tagged leaves -/

/-- Every leaf hangs under a preterminal. -/
def LeavesTagged (t : Tree) : Prop :=
  t.isLeaf = false ∧ ∀ s ∈ t.subtrees, s.isPreterminal = false → ∀ c ∈ s.children, c.isLeaf = false

theorem leavesTagged_preterminal (tag word : String) : (preterminal tag word).LeavesTagged := by
  refine ⟨rfl, forall_mem_subtrees_node.2 ⟨fun h => ?_, ?_⟩⟩
  · simp [leaf] at h
  · simp [leaf, subtrees_node]

theorem leavesTagged_node {l : String} {ts : Forest} (h : (node l ts).isPreterminal = false) :
    (node l ts).LeavesTagged ↔ ts ≠ [] ∧ ∀ t ∈ ts, t.LeavesTagged := by
  unfold LeavesTagged
  rw [forall_mem_subtrees_node, isLeaf_node, List.isEmpty_eq_false_iff, children_node]
  refine and_congr_right fun _ => ?_
  constructor
  · rintro ⟨hchildren, hbelow⟩ t ht
    exact ⟨hchildren h t ht, hbelow t ht⟩
  · intro hts
    exact ⟨fun _ t ht => (hts t ht).1, fun t ht => (hts t ht).2⟩

theorem length_tags_node {l : String} {ts : Forest} (h : (node l ts).isPreterminal = false) :
    (node l ts).tags.length = (ts.map fun t => t.tags.length).sum := by
  rw [tags_node h, children_node, List.length_flatMap]

/-- A leaf has at most one tag. -/
theorem length_tags_le (t : Tree) : t.tags.length ≤ t.words.length := by
  induction t using induction_on_phrases with
  | tagged => exact le_rfl
  | other l ts hpre ih =>
    cases ts with
    | nil => simp [tags]
    | cons t ts =>
      rw [length_tags_node hpre, words_node l (by simp), List.length_flatMap]
      exact List.sum_le_sum ih

/-- There are as many tags as words when every leaf hangs under a preterminal. -/
theorem length_tags_eq_iff {t : Tree} : t.tags.length = t.words.length ↔ t.LeavesTagged := by
  induction t using induction_on_phrases with
  | tagged tag word => exact iff_of_true rfl (leavesTagged_preterminal tag word)
  | other l ts hpre ih =>
    rw [leavesTagged_node hpre]
    cases ts with
    | nil => simp [tags]
    | cons t ts =>
      rw [length_tags_node hpre, words_node l (by simp), List.length_flatMap]
      constructor
      · refine fun hsum => ⟨by simp, fun u hu => (ih u hu).1 ?_⟩
        -- a child with fewer tags than words would make the sum smaller
        by_contra hne
        have hlt := List.sum_lt_sum (l := t :: ts) (fun t : Tree => t.tags.length) (fun t => t.words.length)
          (fun t _ => t.length_tags_le) ⟨u, hu, lt_of_le_of_ne u.length_tags_le hne⟩
        exact hlt.ne hsum
      · rintro ⟨-, hchildren⟩
        exact congrArg List.sum (List.map_congr_left fun u hu => (ih u hu).2 (hchildren u hu))

theorem isFullyTagged_iff {t : Tree} : t.isFullyTagged = true ↔ t.LeavesTagged := by
  rw [isFullyTagged, beq_iff_eq, length_tags_eq_iff]

end Tree

/-! ## Symbols -/

mutual

/-- The labels of a tree in preorder, without the words under its preterminals. -/
def Tree.symbols : Tree → List String
  | .node w [] => [w]
  | .node tag [.node _ []] => [tag]
  | .node l (t :: ts) => l :: (t.symbols ++ Forest.symbols ts)

def Forest.symbols : Forest → List String
  | [] => []
  | t :: ts => t.symbols ++ Forest.symbols ts

end

@[simp] theorem Forest.symbols_eq (ts : Forest) : Forest.symbols ts = ts.flatMap Tree.symbols := by
  induction ts with
  | nil => rfl
  | cons t ts ih => rw [Forest.symbols, ih, List.flatMap_cons]

namespace Tree

theorem symbols_node {l : String} {ts : Forest} (h : (node l ts).isPreterminal = false) :
    (node l ts).symbols = l :: ts.flatMap symbols := by
  match ts with
  | [] => simp [symbols]
  | [node _ []] => simp at h
  | [node _ (_ :: _)] => simp [symbols]
  | _ :: _ :: _ => simp [symbols]

theorem label_mem_symbols (t : Tree) : t.label ∈ t.symbols := by
  match t with
  | node _ [] | node _ [node _ []] | node _ [node _ (_ :: _)] | node _ (_ :: _ :: _) => simp [symbols]

/-- Every label other than a tagged word has a property. -/
def EverySymbol (P : String → Prop) (t : Tree) : Prop := ∀ l ∈ t.symbols, P l

section EverySymbol

variable {P : String → Prop} {l : String} {s t : Tree} {ts : Forest}

theorem EverySymbol.label (h : t.EverySymbol P) : P t.label := h t.label t.label_mem_symbols

theorem everySymbol_preterminal {tag word : String} : (preterminal tag word).EverySymbol P ↔ P tag := by
  simp [EverySymbol, preterminal, leaf, symbols]

theorem everySymbol_node (h : (node l ts).isPreterminal = false) :
    (node l ts).EverySymbol P ↔ P l ∧ ∀ t ∈ ts, t.EverySymbol P := by
  unfold EverySymbol
  rw [symbols_node h, List.forall_mem_cons]
  refine and_congr_right fun _ => ?_
  simp only [List.mem_flatMap, forall_exists_index, and_imp]
  exact ⟨fun h t ht m hm => h m t ht hm, fun h m t ht hm => h t ht m hm⟩

theorem EverySymbol.of_mem_subtrees (h : t.EverySymbol P) (hs : s ∈ t.subtrees) (hleaf : s.isLeaf = false) :
    s.EverySymbol P := by
  induction t using induction_on_phrases with
  | tagged tag word =>
    -- below a preterminal there is only its word
    simp only [preterminal, leaf, subtrees_node, List.flatMap_nil, List.flatMap_singleton, List.mem_cons,
      List.not_mem_nil, or_false] at hs
    rcases hs with rfl | rfl
    · exact h
    · cases hleaf
  | other l ts hpre ih =>
    rw [subtrees_node, List.mem_cons, List.mem_flatMap] at hs
    rcases hs with rfl | ⟨t, ht, hs⟩
    · exact h
    · exact ih t ht (((everySymbol_node hpre).1 h).2 t ht) hs

end EverySymbol

theorem LeavesTagged.everySymbol {P : String → Prop} {t : Tree} (h : t.LeavesTagged) (hP : t.EveryInner P) :
    t.EverySymbol P := by
  induction t using induction_on_phrases with
  | tagged => exact everySymbol_preterminal.2 (hP _ (self_mem_subtrees _) rfl)
  | other l ts hpre ih =>
    obtain ⟨hts, hchildren⟩ := (leavesTagged_node hpre).1 h
    obtain ⟨hl, hbelow⟩ := everyInner_node.1 hP
    exact (everySymbol_node hpre).2 ⟨hl hts, fun t ht => ih t ht (hchildren t ht) (hbelow t ht)⟩

end Tree

end Constituency
