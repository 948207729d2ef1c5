/-
What the baseline parser gives back. It tags each word by itself with its best tag (`IsBestTag`), and the tree that it
takes from training has these tags: the trees known with some tags are recorded with the numbers of their copies in the
order of their first copies, whatever other trees stand between them (`Baseline.records_known`). Such a tree has a tag
for each word, so that putting the words of the sentence on its leaves always works out. The tree that is built
otherwise is a comb over the tagged words. So every parse has the words of the sentence under their best tags
(`Baseline.tagged_of_parse?`).
-/
import Constituency.Parser.Baseline
import Constituency.Proofs.Counting.Modes
import Constituency.Proofs.Lexicon.Agreement
import Constituency.Proofs.Tree.Filling

namespace Constituency

/-! ## Lists of results -/

section MapM

variable {α β : Type} {f : α → Option β}

theorem mapM_eq_some_iff : ∀ {xs : List α} {ys : List β}, xs.mapM f = some ys ↔
    List.Forall₂ (fun x y => f x = some y) xs ys
  | [], ys => by simp [eq_comm]
  | x :: xs, ys => by
    simp only [List.mapM_cons, Option.bind_eq_bind, Option.bind_eq_some_iff, Option.pure_def, Option.some.injEq,
      List.forall₂_cons_left_iff, mapM_eq_some_iff]
    constructor
    · rintro ⟨y, hy, ys, hys, rfl⟩
      exact ⟨y, ys, hy, hys, rfl⟩
    · rintro ⟨y, ys, hy, hys, rfl⟩
      exact ⟨y, hy, ys, hys, rfl⟩

theorem exists_mapM : ∀ {xs : List α}, (∀ x ∈ xs, ∃ y, f x = some y) → ∃ ys, xs.mapM f = some ys
  | [], _ => ⟨[], rfl⟩
  | x :: xs, h => by
    rw [List.forall_mem_cons] at h
    obtain ⟨y, hy⟩ := h.1
    obtain ⟨ys, hys⟩ := exists_mapM h.2
    exact ⟨y :: ys, by simp [List.mapM_cons, hy, hys]⟩

end MapM

/-! ## Best tags -/

section BestTag

variable {ρ : Type} [NatCast ρ] [Add ρ] [Mul ρ] [Div ρ] [LinearOrder ρ]

/-- The tag of the greatest score for a word, and the smallest one of several. -/
def IsBestTag (ρ : Type) [NatCast ρ] [Add ρ] [Mul ρ] [Div ρ] [LT ρ] (lex : Lexicon) (word tag : String) : Prop :=
  tag ∈ lex.tags ∧ ∀ other ∈ lex.tags, other ≠ tag → (lex.score word other : ρ) < lex.score word tag ∨
    (lex.score word other : ρ) = lex.score word tag ∧ tag < other

theorem IsBestTag.unique {lex : Lexicon} {word tag other : String} (h : IsBestTag ρ lex word tag)
    (hother : IsBestTag ρ lex word other) : tag = other :=
  eq_of_lighter_or_behind (fun tag => (lex.score word tag : ρ)) (· < ·) (fun _ _ => String.lt_asymm)
    (h.2 other hother.1) (hother.2 tag h.1)

variable {b : Baseline}

theorem exists_bestTag? (htags : b.lexicon.tags ≠ []) (word : String) : ∃ tag, b.bestTag? ρ word = some tag :=
  Option.ne_none_iff_exists'.1 (mt heaviest_eq_none_iff.1 htags)

theorem bestTag?_eq_some_iff {word tag : String} :
    b.bestTag? ρ word = some tag ↔ IsBestTag ρ b.lexicon word tag := by
  have hbest {tag : String} (h : b.bestTag? ρ word = some tag) : IsBestTag ρ b.lexicon word tag :=
    ⟨mem_of_heaviest h, lighter_or_behind b.lexicon.sorted_tags h⟩
  refine ⟨hbest, fun h => ?_⟩
  obtain ⟨other, hother⟩ := exists_bestTag? (ρ := ρ) (List.ne_nil_of_mem h.1) word
  rw [hother, (hbest hother).unique h]

theorem mapM_bestTag?_iff {sentence tags : List String} :
    sentence.mapM (b.bestTag? ρ) = some tags ↔ List.Forall₂ (IsBestTag ρ b.lexicon) sentence tags := by
  simp only [mapM_eq_some_iff, bestTag?_eq_some_iff]

end BestTag

/-! ## Known trees -/

namespace Baseline

/-- The trees that are known with some tags are the training trees with these tags whose leaves are all tagged. -/
theorem records_known (ts : Forest) (tags : List String) :
    ((ts.foldl addKnown ∅).getD tags .empty).Records (fun t => t.LeavesTagged ∧ t.tags = tags) ts := by
  induction ts using List.reverseRecOn with
  | nil =>
    rw [List.foldl_nil, Std.TreeMap.getD_emptyc]
    exact Census.records_empty _
  | append_singleton ts t ih =>
    rw [List.foldl_concat]
    unfold addKnown
    split
    · rename_i hfully
      rw [Std.TreeMap.getD_insert]
      split
      · rename_i htags
        obtain rfl := Std.LawfulEqOrd.eq_of_compare htags
        exact ih.add ⟨Tree.isFullyTagged_iff.1 hfully, rfl⟩
      · rename_i htags
        exact ih.skip fun ⟨_, heq⟩ => htags (by rw [heq, Std.ReflOrd.compare_self])
    · rename_i hfully
      exact ih.skip fun ⟨htagged, _⟩ => hfully (Tree.isFullyTagged_iff.2 htagged)

/-- A known tree has the tags that it was looked up by, one for each of its words. -/
theorem tags_of_known? {ts : Forest} {tags : List String} {t : Tree} (h : (train ts).known? tags = some t) :
    t.tags = tags ∧ t.words.length = tags.length := by
  obtain ⟨-, ⟨htagged, rfl⟩, -⟩ := (records_known ts tags).of_mode? h
  exact ⟨rfl, (Tree.length_tags_eq_iff.2 htagged).symm⟩

/-! ## Combs -/

section Comb

variable (b : Baseline)

theorem taggings_comb (first : Tagging) (rest : List Tagging) : (b.comb first rest).taggings = first :: rest := by
  induction rest generalizing first with
  | nil => rfl
  | cons second rest ih =>
    rw [comb, Tree.taggings_node rfl]
    simp [ih, Tree.preterminal, Tree.leaf]

theorem words_comb (first : Tagging) (rest : List Tagging) :
    (b.comb first rest).words = (first :: rest).map Tagging.word := by
  induction rest generalizing first with
  | nil => rfl
  | cons second rest ih =>
    rw [comb, Tree.words_node _ (by simp)]
    simp [ih, Tree.preterminal, Tree.leaf, Tree.words, Forest.words]

theorem isLeaf_comb (first : Tagging) (rest : List Tagging) : (b.comb first rest).isLeaf = false := by
  cases rest <;> rfl

/-- The tree that is built over tagged words has their tags and words. -/
theorem of_rightBranching? {xs : List Tagging} {t : Tree} (h : b.rightBranching? xs = some t) :
    t.taggings = xs ∧ t.words = xs.map Tagging.word := by
  cases xs with
  | nil => cases h
  | cons first rest =>
    cases h
    have hpre : (Tree.node rootLabel [b.comb first rest]).isPreterminal = false := b.isLeaf_comb first rest
    rw [Tree.taggings_node hpre, Tree.words_node _ (by simp)]
    simp [taggings_comb, words_comb]

end Comb

/-! ## Parses -/

theorem map_word_zipWith {sentence tags : List String} (h : sentence.length = tags.length) :
    (sentence.zipWith Tagging.mk tags).map Tagging.word = sentence ∧
      (sentence.zipWith Tagging.mk tags).map Tagging.tag = tags := by
  constructor <;> exact List.ext_getElem (by simp [h]) (by simp)

variable {ρ : Type} [NatCast ρ] [Add ρ] [Mul ρ] [Div ρ] [LinearOrder ρ] {ts : Forest} {sentence : List String}

/-- A parse has the words of the sentence under their best tags. -/
theorem tagged_of_parse? {t : Tree} (h : (train ts).parse? ρ sentence = some t) :
    t.words = sentence ∧ List.Forall₂ (IsBestTag ρ (Lexicon.ofTrees ts)) sentence t.tags := by
  simp only [parse?, Option.bind_eq_bind, Option.bind_eq_some_iff] at h
  obtain ⟨-, -, tags, htags, h⟩ := h
  have hbest := mapM_bestTag?_iff.1 htags
  have hlength := hbest.length_eq
  split at h
  · rename_i known hknown
    cases h
    obtain ⟨hsame, hwords⟩ := tags_of_known? hknown
    rw [Tree.tags_withWords, hsame]
    exact ⟨Tree.words_withWords (hlength.trans hwords.symm), hbest⟩
  · obtain ⟨htaggings, hwords⟩ := (train ts).of_rightBranching? h
    obtain ⟨hword, htag⟩ := map_word_zipWith hlength
    rw [Tree.tags, htaggings, hwords, hword, htag]
    exact ⟨rfl, hbest⟩

theorem exists_parse? (hsentence : sentence ≠ []) (htags : (Lexicon.ofTrees ts).tags ≠ []) :
    ∃ t, (train ts).parse? ρ sentence = some t := by
  obtain ⟨tags, hbest⟩ := exists_mapM fun word (_ : word ∈ sentence) =>
    exists_bestTag? (ρ := ρ) (b := train ts) htags word
  have hlength := (mapM_bestTag?_iff.1 hbest).length_eq
  unfold parse?
  rw [hbest]
  match sentence, tags, hlength with
  | [], _, _ => contradiction
  | word :: words, tag :: tags, _ =>
    cases hknown : (train ts).known? (tag :: tags) with
    | some t => exact ⟨t.withWords (word :: words), by simp [hknown]⟩
    | none =>
      exact ⟨.node rootLabel [(train ts).comb ⟨word, tag⟩ (words.zipWith Tagging.mk tags)],
        by simp [hknown, rightBranching?]⟩

/-- There is a parse when there is a word and some tag was seen in training. -/
theorem isSome_parse?_iff : ((train ts).parse? ρ sentence).isSome = true ↔
    sentence ≠ [] ∧ (Lexicon.ofTrees ts).tags ≠ [] := by
  constructor
  · intro h
    obtain ⟨t, ht⟩ := Option.isSome_iff_exists.1 h
    obtain ⟨-, hbest⟩ := tagged_of_parse? ht
    cases sentence with
    | nil => cases ht
    | cons word words =>
      obtain ⟨tag, tags, hword, -, -⟩ := List.forall₂_cons_left_iff.1 hbest
      exact ⟨List.cons_ne_nil word words, List.ne_nil_of_mem hword.1⟩
  · rintro ⟨hsentence, htags⟩
    obtain ⟨t, ht⟩ := exists_parse? (ρ := ρ) hsentence htags
    rw [ht]
    rfl

/-- The tree that is known with the best tags of a sentence has a word for each of the sentence, and becomes its
parse. -/
theorem parse?_of_known? {tags : List String} {t : Tree} (hsentence : sentence ≠ [])
    (hbest : List.Forall₂ (IsBestTag ρ (Lexicon.ofTrees ts)) sentence tags)
    (hknown : (train ts).known? tags = some t) :
    t.withWords? sentence = some (t.withWords sentence) ∧
      (train ts).parse? ρ sentence = some (t.withWords sentence) := by
  have hlength : sentence.length = t.words.length := hbest.length_eq.trans (tags_of_known? hknown).2.symm
  refine ⟨if_pos hlength, ?_⟩
  unfold parse?
  rw [mapM_bestTag?_iff.2 hbest]
  simp [hsentence, hknown]

end Baseline

end Constituency
