/-
Cleaned trees. A word is silent when it lies below an empty element. Cleaning a tree keeps the other words in their
order, and there is no cleaned tree when all words are silent (`words_dropEmpty?`). A cleaned tree has no function tag,
no empty element and no node over nothing but a node with its own label (`Clean`). A pass leaves alone what it would
itself have made, so that a clean tree is its own cleaned form (`Clean.normalize?_eq`).
-/
import Constituency.Proofs.Annotation.Yield

namespace Constituency

/-! ## Words and the labels above them -/

/-- A word of a tree with the labels of the nodes above it, from the root down. -/
structure Lineage where
  above : List String
  word : String
deriving Repr, DecidableEq

namespace Lineage

def below (l : String) (x : Lineage) : Lineage := ⟨l :: x.above, x.word⟩

/-- The word lies below an empty element. -/
def isSilent (x : Lineage) : Bool := emptyElementLabel ∈ x.above

end Lineage

mutual

/-- The words of a tree from left to right, each with the labels above it. -/
def Tree.lineages : Tree → List Lineage
  | .node w [] => [⟨[], w⟩]
  | .node l (t :: ts) => (t.lineages ++ Forest.lineages ts).map (Lineage.below l)

def Forest.lineages : Forest → List Lineage
  | [] => []
  | t :: ts => t.lineages ++ Forest.lineages ts

end

@[simp] theorem Forest.lineages_eq (ts : Forest) : Forest.lineages ts = ts.flatMap Tree.lineages := by
  induction ts with
  | nil => rfl
  | cons t ts ih => rw [Forest.lineages, ih, List.flatMap_cons]

/-- The words that do not lie below an empty element. -/
def sounding (xs : List Lineage) : List String := (xs.filter (!·.isSilent)).map Lineage.word

theorem sounding_eq_nil_iff {xs : List Lineage} : sounding xs = [] ↔ ∀ x ∈ xs, x.isSilent = true := by
  simp [sounding]

theorem sounding_flatMap {α : Type} (f : α → List Lineage) (xs : List α) :
    sounding (xs.flatMap f) = xs.flatMap fun x => sounding (f x) := by
  unfold sounding
  rw [List.filter_flatMap, List.map_flatMap]

theorem sounding_map_below (l : String) (xs : List Lineage) :
    sounding (xs.map (Lineage.below l)) = if l = emptyElementLabel then [] else sounding xs := by
  unfold sounding
  rw [List.filter_map, List.map_map]
  split
  · rename_i hl
    simp [Lineage.below, Lineage.isSilent, hl, Function.comp_def]
  · rename_i hl
    simp [Lineage.below, Lineage.isSilent, Ne.symm hl, Function.comp_def]

namespace Tree

theorem lineages_node (l : String) {ts : Forest} (h : ts ≠ []) :
    (node l ts).lineages = (ts.flatMap lineages).map (Lineage.below l) := by
  cases ts with
  | nil => contradiction
  | cons t ts => rw [lineages, Forest.lineages_eq, List.flatMap_cons]

theorem sounding_node (l : String) {ts : Forest} (h : ts ≠ []) : sounding (node l ts).lineages =
    if l = emptyElementLabel then [] else ts.flatMap fun t => sounding t.lineages := by
  rw [lineages_node l h, sounding_map_below, sounding_flatMap]

theorem words_ne_nil (t : Tree) : t.words ≠ [] := by
  induction t using induction_on_children with
  | h l ts ih =>
    cases ts with
    | nil => simp
    | cons t ts => simp [words, ih t]

/-- Relabelling keeps the words that sound when no empty element comes or goes. -/
theorem sounding_relabel {f : String → String} (hf : ∀ l, f l = emptyElementLabel ↔ l = emptyElementLabel)
    (t : Tree) : sounding (t.relabel f).lineages = sounding t.lineages := by
  induction t using induction_on_children with
  | h l ts ih =>
    by_cases hts : ts = []
    · subst hts; rfl
    · rw [relabel_node f l hts, sounding_node _ (by simpa using hts), sounding_node l hts, List.flatMap_map]
      simp only [hf]
      rw [List.flatMap_congr ih]

end Tree

/-! ## Function tags -/

/-- No mark of a function tag stands behind the first character, unless the label starts with a mark. -/
def Tagless (l : String) : Prop :=
  ∀ c ∈ l.toList.tail, isTagMark c = true → ∃ d ∈ l.toList.head?, isTagMark d = true

theorem withoutFunctionTags_eq_self_iff {l : String} : withoutFunctionTags l = l ↔ Tagless l := by
  unfold withoutFunctionTags Tagless
  rcases eq_or_ne l "" with rfl | hl
  · simp [cutAtMark]
  · obtain ⟨c, cs, rfl⟩ := exists_ofList_cons hl
    cases hc : isTagMark c with
    | true =>
      rw [cutAtMark_ofList_of_mark cs hc]
      simp [hc]
    | false =>
      rw [cutAtMark_ofList isTagMark cs hc, String.ofList_inj]
      simp [hc]

/-- Cutting off function tags makes no empty element and loses none. -/
theorem withoutFunctionTags_eq_emptyElementLabel_iff (l : String) :
    withoutFunctionTags l = emptyElementLabel ↔ l = emptyElementLabel := by
  unfold withoutFunctionTags
  rcases eq_or_ne l "" with rfl | hl
  · simp [cutAtMark]
  · obtain ⟨c, cs, rfl⟩ := exists_ofList_cons hl
    cases hc : isTagMark c with
    | true => rw [cutAtMark_ofList_of_mark cs hc]
    | false =>
      -- what is cut does not start with a mark, and the label of empty elements does
      have hne (ds : List Char) : String.ofList (c :: ds) ≠ emptyElementLabel := by
        intro heq
        have hhead : c = '-' := by simpa [emptyElementLabel] using congrArg (·.toList.head?) heq
        subst hhead
        cases hc
      rw [cutAtMark_ofList isTagMark cs hc]
      exact iff_of_false (hne _) (hne cs)

/-! ## Empty elements -/

namespace Tree

variable {l : String} {ts : Forest} {t u : Tree}

theorem dropEmpty?_node_eq_some_iff (h : ts ≠ []) : (node l ts).dropEmpty? = some u ↔
    l ≠ emptyElementLabel ∧ ts.filterMap dropEmpty? ≠ [] ∧ u = node l (ts.filterMap dropEmpty?) := by
  rw [dropEmpty?_node l h]
  split
  · rename_i hl
    simp [hl]
  · rename_i hl
    cases ts.filterMap dropEmpty? <;> simp [nonemptyNode?, hl, eq_comm]

/-- What is left after dropping the empty elements has the words that sound. -/
theorem words_dropEmpty? (t : Tree) : t.dropEmpty?.toList.flatMap words = sounding t.lineages := by
  induction t using induction_on_children with
  | h l ts ih =>
    by_cases hts : ts = []
    · subst hts; rfl
    · have hkept : (ts.filterMap dropEmpty?).flatMap words = ts.flatMap fun t => sounding t.lineages := by
        rw [List.filterMap_eq_flatMap_toList, List.flatMap_assoc]
        exact List.flatMap_congr ih
      rw [dropEmpty?_node l hts, sounding_node l hts, ← hkept]
      split
      · rfl
      · cases ts.filterMap dropEmpty? with
        | nil => rfl
        | cons s ss => simp [nonemptyNode?, words_node]

theorem dropEmpty?_eq_none_iff : t.dropEmpty? = none ↔ ∀ x ∈ t.lineages, x.isSilent = true := by
  rw [← sounding_eq_nil_iff, ← words_dropEmpty?]
  cases t.dropEmpty? <;> simp [words_ne_nil]

theorem everyInner_of_dropEmpty? (h : t.dropEmpty? = some u) : u.EveryInner (· ≠ emptyElementLabel) := by
  induction t using induction_on_children generalizing u with
  | h l ts ih =>
    by_cases hts : ts = []
    · subst hts
      cases h
      exact everyInner_leaf l
    · obtain ⟨hl, -, rfl⟩ := (dropEmpty?_node_eq_some_iff hts).1 h
      refine everyInner_node.2 ⟨fun _ => hl, fun u hu => ?_⟩
      obtain ⟨t, ht, htu⟩ := List.mem_filterMap.1 hu
      exact ih t ht htu

/-- Nothing is dropped from a tree without empty elements. -/
theorem EveryInner.dropEmpty?_eq (h : t.EveryInner (· ≠ emptyElementLabel)) : t.dropEmpty? = some t := by
  induction t using induction_on_children with
  | h l ts ih =>
    by_cases hts : ts = []
    · subst hts; rfl
    · obtain ⟨hl, hchildren⟩ := everyInner_node.1 h
      have hkept : ts.filterMap Tree.dropEmpty? = ts := by
        rw [List.filterMap_congr fun t ht => ih t ht (hchildren t ht), List.filterMap_some]
      rw [dropEmpty?_node_eq_some_iff hts, hkept]
      exact ⟨hl hts, hts, rfl⟩

/-! ## Chains of equal labels -/

/-- The node is not over a single node with its own label. -/
def Unchained (t : Tree) : Prop := ∀ c, t.children = [c] → c.isLeaf = false → c.label ≠ t.label

theorem flatMap_words_absorb (l : String) (ts : Forest) : (absorb l ts).flatMap words = ts.flatMap words := by
  unfold absorb
  split
  · split
    · rw [List.flatMap_singleton, words_node _ (List.cons_ne_nil _ _)]
    · rfl
  · rfl

theorem absorb_eq_nil_iff {l : String} {ts : Forest} : absorb l ts = [] ↔ ts = [] := by
  unfold absorb
  split
  · split <;> simp
  · rfl

@[simp] theorem words_mergeChains (t : Tree) : t.mergeChains.words = t.words := by
  induction t using induction_on_children with
  | h l ts ih =>
    by_cases hts : ts = []
    · subst hts; rfl
    · rw [mergeChains_node, words_node l (by simpa [absorb_eq_nil_iff] using hts), words_node l hts,
        flatMap_words_absorb, List.flatMap_map]
      exact List.flatMap_congr ih

/-- Chains can be merged from the top: a node takes the place of an only child with its own label. -/
theorem mergeChains_chain (l : String) (t : Tree) (ts : Forest) :
    (node l [node l (t :: ts)]).mergeChains = (node l (t :: ts)).mergeChains := by
  rw [mergeChains_node, List.map_singleton, mergeChains_node l (t :: ts)]
  cases hmerged : absorb l ((t :: ts).map mergeChains) with
  | nil => exact absurd (absorb_eq_nil_iff.1 hmerged) (List.cons_ne_nil _ _)
  | cons u us => rw [absorb, if_pos rfl]

/-- At the end of a chain, merging goes on in the children. -/
theorem mergeChains_of_unchained (h : (node l ts).Unchained) :
    (node l ts).mergeChains = node l (ts.map mergeChains) := by
  rw [mergeChains_node]
  match ts with
  | [] | [.node _ []] => rfl
  | _ :: _ :: _ => simp [absorb]
  | [.node m (t :: ts)] =>
    have hm : m ≠ l := h _ rfl rfl
    rw [List.map_singleton, mergeChains_node]
    cases absorb m ((t :: ts).map mergeChains) with
    | nil => rfl
    | cons u us => rw [absorb, if_neg hm]

/-- Absorbing a chain under a node leaves no chain there when the children have none. -/
theorem unchained_absorb (h : ∀ t ∈ ts, ∀ s ∈ t.subtrees, s.Unchained) :
    ∀ s ∈ (node l (absorb l ts)).subtrees, s.Unchained := by
  unfold absorb
  split
  · rename_i m t ts
    obtain ⟨hself, hbelow⟩ := forall_mem_subtrees_node.1 (h _ (List.mem_singleton_self _))
    split
    · rename_i hm
      subst hm
      exact forall_mem_subtrees_node.2 ⟨hself, hbelow⟩
    · rename_i hm
      refine forall_mem_subtrees_node.2 ⟨?_, h⟩
      rintro c hc -
      obtain rfl := List.singleton_inj.1 hc
      exact hm
  · rename_i hother
    refine forall_mem_subtrees_node.2 ⟨?_, h⟩
    rintro ⟨m, _ | ⟨t, ts⟩⟩ hc hleaf
    · cases hleaf
    · exact absurd hc (hother m t ts)

theorem unchained_mergeChains (t : Tree) : ∀ s ∈ t.mergeChains.subtrees, s.Unchained := by
  induction t using induction_on_children with
  | h l ts ih =>
    rw [mergeChains_node]
    apply unchained_absorb
    rw [List.forall_mem_map]
    exact ih

/-- A tree without chains has none to merge. -/
theorem mergeChains_eq_self (h : ∀ s ∈ t.subtrees, s.Unchained) : t.mergeChains = t := by
  induction t using induction_on_children with
  | h l ts ih =>
    obtain ⟨hself, hbelow⟩ := forall_mem_subtrees_node.1 h
    have hmap : ts.map mergeChains = ts := by
      rw [List.map_congr_left fun t ht => ih t ht (hbelow t ht), List.map_id']
    rw [mergeChains_of_unchained hself, hmap]

/-! ## Clean trees -/

/-- No label has a function tag, no node is an empty element, and none is over a single node with its own label. -/
structure Clean (t : Tree) : Prop where
  tagless : t.EveryInner Tagless
  filled : t.EveryInner (· ≠ emptyElementLabel)
  unchained : ∀ s ∈ t.subtrees, s.Unchained

theorem clean_of_normalize? (h : t.normalize? = some u) : u.Clean := by
  have htagless : u.EveryInner Tagless := fun s hs hleaf =>
    withoutFunctionTags_eq_self_iff.1 (stripped_of_normalize? h s hs hleaf)
  obtain ⟨s, hs, rfl⟩ := Option.map_eq_some_iff.1 h
  exact ⟨htagless, (everyInner_of_dropEmpty? hs).mergeChains, unchained_mergeChains s⟩

theorem Clean.normalize?_eq (h : t.Clean) : t.normalize? = some t := by
  have hstripped : t.stripFunctionTags = t :=
    relabel_eq_self fun s hs hleaf => withoutFunctionTags_eq_self_iff.2 (h.tagless s hs hleaf)
  rw [normalize?, hstripped, h.filled.dropEmpty?_eq, Option.map_some, mergeChains_eq_self h.unchained]

theorem sounding_stripFunctionTags (t : Tree) : sounding t.stripFunctionTags.lineages = sounding t.lineages :=
  sounding_relabel withoutFunctionTags_eq_emptyElementLabel_iff t

theorem normalize?_eq_none_iff : t.normalize? = none ↔ ∀ x ∈ t.lineages, x.isSilent = true := by
  rw [normalize?, Option.map_eq_none_iff, dropEmpty?_eq_none_iff, ← sounding_eq_nil_iff, sounding_stripFunctionTags,
    sounding_eq_nil_iff]

theorem words_of_normalize? (h : t.normalize? = some u) : u.words = sounding t.lineages := by
  obtain ⟨s, hs, rfl⟩ := Option.map_eq_some_iff.1 h
  rw [words_mergeChains, ← sounding_stripFunctionTags, ← words_dropEmpty?, hs, Option.toList_some,
    List.flatMap_singleton]

/-- A tree has no cleaned form exactly when each of its words lies below an empty element. Otherwise the cleaned form
has the other words in their order, it is clean, and it is its own cleaned form. -/
theorem normalize?_cleans (t : Tree) :
    (t.normalize? = none ↔ ∀ x ∈ t.lineages, emptyElementLabel ∈ x.above) ∧
    ∀ u, t.normalize? = some u →
      u.words = (t.lineages.filter fun x => emptyElementLabel ∉ x.above).map Lineage.word ∧ u.Clean ∧
        u.normalize? = some u := by
  refine ⟨by simpa [Lineage.isSilent] using t.normalize?_eq_none_iff, fun u hu => ?_⟩
  have hclean := clean_of_normalize? hu
  exact ⟨by simpa [sounding, Lineage.isSilent] using words_of_normalize? hu, hclean, hclean.normalize?_eq⟩

/-- A sentence with two traces. Its verb phrases have one label when the function tag is cut off. -/
def tracedTree : Tree :=
  .node "S" [.node "NP-SBJ" [.preterminal "-NONE-" "*T*"],
    .node "VP" [.node "VP-PRD" [.preterminal "VBZ" "runs", .node "NP" [.preterminal "-NONE-" "*"]]],
    .preterminal "." "."]

theorem normalize?_cleans_traced :
    let u := node "S" [.node "VP" [.preterminal "VBZ" "runs"], .preterminal "." "."]
    tracedTree.normalize? = some u ∧ (∃ x ∈ tracedTree.lineages, emptyElementLabel ∉ x.above) ∧
      u.words = (tracedTree.lineages.filter fun x => emptyElementLabel ∉ x.above).map Lineage.word ∧ u.Clean ∧
      u.normalize? = some u := by
  intro u
  have hnormal : tracedTree.normalize? = some u := by decide +kernel
  exact ⟨hnormal, by decide +kernel, (normalize?_cleans tracedTree).2 u hnormal⟩

end Tree

end Constituency
