/-
Putting other words on the leaves of a tree. The words are used up from left to right, one for each leaf
(`Tree.snd_fill`), so that a sentence with a word for each leaf becomes the words of the tree (`words_withWords`). What
stays is the tree without its words: its shape, its labels above the words and with them the tags (`tags_withWords`).
A tree is known by its words and by what is left without them (`eq_of_withoutWords_eq`), so that the tree over another
sentence is the only one with the words of that sentence that differs in its words alone (`withWords?_eq_some_iff`).
-/
import Constituency.Proofs.Tree.Words

namespace Constituency

/-! ## Words -/

mutual

theorem Tree.snd_fill : ∀ (t : Tree) (words : List String), (t.fill words).2 = words.drop t.words.length
  | .node w [], words => by simp [Tree.fill]
  | .node l (t :: ts), words => by
    rw [Tree.fill, Tree.words, List.length_append, ← List.drop_drop, ← Tree.snd_fill t words]
    exact Forest.snd_fill ts _

theorem Forest.snd_fill : ∀ (ts : Forest) (words : List String),
    (Forest.fill words ts).2 = words.drop (Forest.words ts).length
  | [], _ => rfl
  | t :: ts, words => by
    rw [Forest.fill, Forest.words, List.length_append, ← List.drop_drop, ← Tree.snd_fill t words]
    exact Forest.snd_fill ts _

end

mutual

theorem Tree.words_fill : ∀ (t : Tree) (words : List String), t.words.length ≤ words.length →
    (t.fill words).1.words = words.take t.words.length
  | .node w [], [], h => by simp at h
  | .node w [], word :: words, _ => by simp [Tree.fill]
  | .node l (t :: ts), words, h => by
    rw [Tree.words, List.length_append] at h ⊢
    rw [Tree.fill, Tree.words, Tree.words_fill t words (by omega), List.take_add, Tree.snd_fill]
    exact congrArg _ (Forest.words_fill ts _ (by rw [List.length_drop]; omega))

theorem Forest.words_fill : ∀ (ts : Forest) (words : List String), (Forest.words ts).length ≤ words.length →
    Forest.words (Forest.fill words ts).1 = words.take (Forest.words ts).length
  | [], _, _ => by simp [Forest.fill, Forest.words]
  | t :: ts, words, h => by
    rw [Forest.words, List.length_append] at h ⊢
    rw [Forest.fill, Forest.words, Tree.words_fill t words (by omega), List.take_add, Tree.snd_fill]
    exact congrArg _ (Forest.words_fill ts _ (by rw [List.length_drop]; omega))

end

/-! ## Trees without their words -/

mutual

/-- The same tree with every word left empty. -/
def Tree.withoutWords : Tree → Tree
  | .node _ [] => .node "" []
  | .node l (t :: ts) => .node l (t.withoutWords :: Forest.withoutWords ts)

def Forest.withoutWords : Forest → Forest
  | [] => []
  | t :: ts => t.withoutWords :: Forest.withoutWords ts

end

@[simp] theorem Forest.withoutWords_eq (ts : Forest) : Forest.withoutWords ts = ts.map Tree.withoutWords := by
  induction ts with
  | nil => rfl
  | cons t ts ih => rw [Forest.withoutWords, ih, List.map_cons]

mutual

theorem Tree.withoutWords_fill : ∀ (t : Tree) (words : List String),
    (t.fill words).1.withoutWords = t.withoutWords
  | .node _ [], _ => rfl
  | .node l (t :: ts), words => by
    rw [Tree.fill, Tree.withoutWords, Tree.withoutWords, Tree.withoutWords_fill t words, Forest.withoutWords_fill ts]

theorem Forest.withoutWords_fill : ∀ (ts : Forest) (words : List String),
    Forest.withoutWords (Forest.fill words ts).1 = Forest.withoutWords ts
  | [], _ => rfl
  | t :: ts, words => by
    rw [Forest.fill, Forest.withoutWords, Forest.withoutWords, Tree.withoutWords_fill t words,
      Forest.withoutWords_fill ts]

end

mutual

/-- Putting the words of a tree back on what is left without them gives the tree. -/
theorem Tree.fill_withoutWords : ∀ (t : Tree) (words : List String),
    t.withoutWords.fill (t.words ++ words) = (t, words)
  | .node _ [], _ => rfl
  | .node l (t :: ts), words => by
    rw [Tree.withoutWords, Tree.fill, Tree.words, List.append_assoc, Tree.fill_withoutWords t]
    dsimp only
    rw [Forest.fill_withoutWords ts words]

theorem Forest.fill_withoutWords : ∀ (ts : Forest) (words : List String),
    Forest.fill (Forest.words ts ++ words) (Forest.withoutWords ts) = (ts, words)
  | [], _ => rfl
  | t :: ts, words => by
    rw [Forest.withoutWords, Forest.fill, Forest.words, List.append_assoc, Tree.fill_withoutWords t]
    dsimp only
    rw [Forest.fill_withoutWords ts words]

end

namespace Tree

variable {s t : Tree}

theorem withoutWords_node (l : String) {ts : Forest} (h : ts ≠ []) :
    (node l ts).withoutWords = node l (ts.map withoutWords) := by
  cases ts with
  | nil => contradiction
  | cons t ts => simp [withoutWords]

@[simp] theorem children_withoutWords (t : Tree) : t.withoutWords.children = t.children.map withoutWords := by
  obtain ⟨l, _ | ⟨t, ts⟩⟩ := t
  · rfl
  · simp [withoutWords]

@[simp] theorem isLeaf_withoutWords (t : Tree) : t.withoutWords.isLeaf = t.isLeaf := by
  obtain ⟨l, _ | ⟨t, ts⟩⟩ := t <;> rfl

theorem label_withoutWords (h : t.isLeaf = false) : t.withoutWords.label = t.label := by
  obtain ⟨l, _ | ⟨t, ts⟩⟩ := t
  · cases h
  · rfl

@[simp] theorem isPreterminal_withoutWords (t : Tree) : t.withoutWords.isPreterminal = t.isPreterminal := by
  match t with
  | node _ [] => rfl
  | node _ [t] => exact t.isLeaf_withoutWords
  | node _ (_ :: _ :: _) => rfl

@[simp] theorem tags_withoutWords (t : Tree) : t.withoutWords.tags = t.tags := by
  induction t using induction_on_phrases with
  | tagged => rfl
  | other l ts hpre ih =>
    rw [tags_node ((isPreterminal_withoutWords _).trans hpre), tags_node hpre, children_withoutWords, children_node,
      List.flatMap_map]
    exact List.flatMap_congr ih

theorem length_words_withoutWords (t : Tree) : t.withoutWords.words.length = t.words.length := by
  induction t using induction_on_children with
  | h l ts ih =>
    by_cases hts : ts = []
    · subst hts; rfl
    · rw [withoutWords_node l hts, words_node l (by simpa using hts), words_node l hts, List.flatMap_map,
        List.length_flatMap, List.length_flatMap, List.map_congr_left ih]

theorem subtrees_withoutWords (t : Tree) : t.withoutWords.subtrees = t.subtrees.map withoutWords := by
  induction t using induction_on_children with
  | h l ts ih =>
    by_cases hts : ts = []
    · subst hts; rfl
    · rw [withoutWords_node l hts, subtrees_node, subtrees_node, List.map_cons, withoutWords_node l hts,
        List.flatMap_map, List.map_flatMap, List.flatMap_congr ih]

/-- A tree is known by its words and by what is left without them. -/
theorem eq_of_withoutWords_eq (h : s.withoutWords = t.withoutWords) (hwords : s.words = t.words) : s = t := by
  have hs := s.fill_withoutWords []
  rw [h, hwords, t.fill_withoutWords] at hs
  exact (Prod.mk.inj hs).1.symm

theorem length_words_eq (h : s.withoutWords = t.withoutWords) : s.words.length = t.words.length := by
  rw [← length_words_withoutWords, h, length_words_withoutWords]

/-- Two nodes differ in words at most: they have as many children, the same tags below them and, unless they are words
themselves, the same label. -/
structure SameButWords (s t : Tree) : Prop where
  children : t.children.length = s.children.length
  label : s.isLeaf = false → t.label = s.label
  isPreterminal : t.isPreterminal = s.isPreterminal
  tags : t.tags = s.tags

theorem sameButWords_of_eq (h : s.withoutWords = t.withoutWords) : SameButWords s t where
  children := by simpa using congrArg (fun t => t.children.length) h.symm
  label hs := by
    have ht : t.isLeaf = false := by rw [← isLeaf_withoutWords, ← h, isLeaf_withoutWords, hs]
    rw [← label_withoutWords ht, ← h, label_withoutWords hs]
  isPreterminal := by rw [← isPreterminal_withoutWords, ← h, isPreterminal_withoutWords]
  tags := by rw [← tags_withoutWords, ← h, tags_withoutWords]

/-- Trees that are the same without words have the same nodes but for words. -/
theorem forall₂_subtrees (h : s.withoutWords = t.withoutWords) :
    List.Forall₂ SameButWords s.subtrees t.subtrees := by
  have hnodes : List.Forall₂ Eq (s.subtrees.map withoutWords) (t.subtrees.map withoutWords) := by
    rw [List.forall₂_eq_eq_eq, ← subtrees_withoutWords, ← subtrees_withoutWords, h]
  exact (List.forall₂_map_right_iff.1 (List.forall₂_map_left_iff.1 hnodes)).imp fun _ _ => sameButWords_of_eq

/-! ## Other sentences -/

theorem words_withWords {words : List String} (h : words.length = t.words.length) :
    (t.withWords words).words = words := by
  rw [withWords, words_fill t words h.ge, ← h, List.take_length]

@[simp] theorem withoutWords_withWords (t : Tree) (words : List String) :
    (t.withWords words).withoutWords = t.withoutWords :=
  withoutWords_fill t words

@[simp] theorem tags_withWords (t : Tree) (words : List String) : (t.withWords words).tags = t.tags :=
  (sameButWords_of_eq (t.withoutWords_withWords words).symm).tags

/-- The tree over another sentence is the tree with the words of that sentence that differs in its words alone. -/
theorem withWords?_eq_some_iff {u : Tree} {words : List String} :
    t.withWords? words = some u ↔ u.withoutWords = t.withoutWords ∧ u.words = words := by
  unfold withWords?
  constructor
  · intro h
    split at h
    · cases h
      exact ⟨t.withoutWords_withWords words, words_withWords ‹_›⟩
    · cases h
  · rintro ⟨h, rfl⟩
    have hlength := length_words_eq h
    rw [if_pos hlength]
    refine congrArg some (eq_of_withoutWords_eq ?_ (words_withWords hlength))
    rw [withoutWords_withWords, h]

/-- A sentence with a word for each leaf becomes the words of the tree and changes nothing else in it, at no node. What
another sentence makes of the tree does not depend on the words that it had before, and its own words give it back. -/
theorem withWords_exact {sentence : List String} (h : sentence.length = t.words.length) :
    t.withWords? sentence = some (t.withWords sentence) ∧
    (t.withWords sentence).words = sentence ∧
    (t.withWords sentence).withoutWords = t.withoutWords ∧
    List.Forall₂ SameButWords t.subtrees (t.withWords sentence).subtrees ∧
    (∀ other, (t.withWords sentence).withWords? other = t.withWords? other) ∧
    t.withWords? t.words = some t := by
  have hsame := t.withoutWords_withWords sentence
  refine ⟨if_pos h, words_withWords h, hsame, forall₂_subtrees hsame.symm, fun other => Option.ext fun u => ?_,
    withWords?_eq_some_iff.2 ⟨rfl, rfl⟩⟩
  rw [withWords?_eq_some_iff, withWords?_eq_some_iff, hsame]

/-- A tree with a word beside phrases, an empty word, a tag above a tag, and words without a tag around one that has
one. -/
def patchyTree : Tree :=
  node "S" [leaf "well", node "NP" [preterminal "D" "the", node "N" [preterminal "N" "dog"]],
    node "VP" [leaf "", preterminal "V" "barks", leaf "."]]

/-- The same tree over words that look like its labels. -/
def repatchedTree : Tree :=
  node "S" [leaf "", node "NP" [preterminal "D" "D", node "N" [preterminal "N" "N"]],
    node "VP" [leaf "the", preterminal "V" "S", leaf "dog"]]

theorem withWords_exact_patchy : ["", "D", "N", "the", "S", "dog"].length = patchyTree.words.length ∧
    patchyTree.withWords? ["", "D", "N", "the", "S", "dog"] = some repatchedTree ∧
    repatchedTree.words = ["", "D", "N", "the", "S", "dog"] ∧
    repatchedTree.withoutWords = patchyTree.withoutWords ∧
    List.Forall₂ SameButWords patchyTree.subtrees repatchedTree.subtrees ∧
    (∀ other, repatchedTree.withWords? other = patchyTree.withWords? other) ∧
    patchyTree.withWords? ["well", "the", "dog", "", "barks", "."] = some patchyTree := by
  have hlength : ["", "D", "N", "the", "S", "dog"].length = patchyTree.words.length := by decide
  exact ⟨hlength, withWords_exact hlength⟩

end Tree

end Constituency
