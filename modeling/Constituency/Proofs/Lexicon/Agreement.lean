/-
The counters of a lexicon agree with one another. Each of them is updated on its own, and those of types look at
another one first: a tagging introduces a type if its word was not counted yet. So a known word is a type of the tag
that it had where it occurred first; one observation keeps this (`Observed.observe`), and so does a whole treebank
(`observed_foldl`). The sums over words and over tags follow from what each counter counts (`agrees_ofTrees`).
-/
import Constituency.Proofs.Counting.Modes
import Constituency.Proofs.Lexicon.Counts
import Constituency.Proofs.Tree.Words

namespace Constituency

/-- Counts of the elements of a list, taken over keys that have all of them once, add up to its length. -/
theorem sum_map_eq_length {α : Type} [DecidableEq α] {keys xs : List α} {f : α → Nat} (hkeys : keys.Nodup)
    (hf : ∀ k, f k = xs.count k) (h : ∀ x ∈ xs, x ∈ keys) : (keys.map f).sum = xs.length := by
  have hmem : ∀ x ∈ (xs : Multiset α), x ∈ keys.toFinset := fun x hx => List.mem_toFinset.2 (h x hx)
  rw [← List.sum_toFinset f hkeys, ← Multiset.coe_card, ← Multiset.sum_count_eq_card hmem]
  refine Finset.sum_congr rfl fun k _ => ?_
  rw [hf, Multiset.coe_count]

/-- Counts of pairs with one part fixed, taken over all values of the other part, add up to the count of that part. -/
theorem sum_map_count_pair {α β γ : Type} [DecidableEq α] [DecidableEq β] [DecidableEq γ] {f : α → β} {g : α → γ}
    (pair : β → γ → α) (hpair : ∀ x b c, x = pair b c ↔ f x = b ∧ g x = c) {keys : List γ} {xs : List α}
    (hkeys : keys.Nodup) (h : ∀ x ∈ xs, g x ∈ keys) (b : β) :
    (keys.map fun c => xs.count (pair b c)).sum = (xs.map f).count b := by
  have hcount (c : γ) : xs.count (pair b c) = ((xs.filter (f · = b)).map g).count c := by
    rw [List.count_eq_countP, List.count_eq_countP, List.countP_map, List.countP_filter]
    refine List.countP_congr fun x _ => ?_
    simp [hpair, and_comm]
  have hmem : ∀ c ∈ (xs.filter (f · = b)).map g, c ∈ keys :=
    List.forall_mem_map.2 fun x hx => h x (List.mem_filter.1 hx).1
  rw [sum_map_eq_length hkeys hcount hmem, List.length_map, ← List.countP_eq_length_filter, List.count_eq_countP,
    List.countP_map]
  rfl

theorem Tally.keys_add_perm {α : Type} [Ord α] [Std.TransOrd α] [Std.LawfulEqOrd α] [DecidableEq α] (t : Tally α)
    (a : α) : (t.add a).keys.Perm (t.keys.insert a) := by
  rw [List.perm_ext_iff_of_nodup (nodup_keys _) t.nodup_keys.insert]
  intro b
  rw [mem_keys_add, List.mem_insert_iff, eq_comm]

/-- A tree has one tagging for each of its preterminals. -/
theorem Tree.length_taggings (t : Tree) : t.taggings.length = t.subtrees.countP isPreterminal := by
  induction t using induction_on_phrases with
  | tagged => rfl
  | other l ts hpre ih =>
    rw [taggings_node hpre, subtrees_node, List.countP_cons_of_neg (by simp [hpre]), children_node,
      List.length_flatMap, List.countP_flatMap]
    exact congrArg List.sum (List.map_congr_left ih)

namespace Lexicon

/-! ## First occurrences -/

/-- The tag of a word where it occurs first. -/
def firstTag? (xs : List Tagging) (word : String) : Option String := (xs.find? (·.word = word)).map Tagging.tag

theorem isSome_firstTag? {xs : List Tagging} {word : String} :
    (firstTag? xs word).isSome = true ↔ word ∈ xs.map Tagging.word := by
  simp [firstTag?]

theorem firstTag?_concat (xs : List Tagging) (x : Tagging) (word : String) :
    firstTag? (xs ++ [x]) word = (firstTag? xs word).or (if x.word = word then some x.tag else none) := by
  unfold firstTag?
  rw [List.find?_append]
  by_cases h : x.word = word <;> cases xs.find? (·.word = word) <;> simp [h]

/-! ## Types -/

section Observe

variable (lex : Lexicon) (x : Tagging)

theorem wordCount_observe (word : String) :
    (lex.observe x).wordCount word = lex.wordCount word + if x.word = word then 1 else 0 :=
  Tally.count_add lex.wordCounts x.word word

theorem words_observe_perm : (lex.observe x).words.Perm (lex.words.insert x.word) :=
  lex.wordCounts.keys_add_perm x.word

theorem types_observe : (lex.observe x).types = lex.types + if lex.isKnown x.word then 0 else 1 := by
  unfold observe
  cases lex.isKnown x.word <;> rfl

theorem introducedTypes_observe (tag : String) : (lex.observe x).introducedTypes.count tag =
    lex.introducedTypes.count tag + if lex.isKnown x.word = false ∧ x.tag = tag then 1 else 0 := by
  unfold observe
  cases lex.isKnown x.word with
  | true => simp
  | false => simp [Tally.count_add]

end Observe

/-- The words and types of a lexicon are those of the taggings that it observed, in order: each word is a type of the
tag that it had first. -/
structure Observed (lex : Lexicon) (xs : List Tagging) : Prop where
  mem_words_iff (word : String) : word ∈ lex.words ↔ word ∈ xs.map Tagging.word
  isKnown_iff (word : String) : lex.isKnown word = true ↔ word ∈ lex.words
  types_eq : lex.types = lex.words.length
  introducedTypes_eq (tag : String) :
    lex.introducedTypes.count tag = lex.words.countP fun word => firstTag? xs word = some tag

theorem observed_empty : empty.Observed [] where
  mem_words_iff _ := Iff.rfl
  isKnown_iff word := by simp [isKnown, wordCount, words, empty]
  types_eq := rfl
  introducedTypes_eq tag := by simp [words, empty]

namespace Observed

variable {lex : Lexicon} {xs : List Tagging} (h : lex.Observed xs) (x : Tagging)

include h

/-- Words that are known keep their first tag. -/
theorem firstTag?_concat_of_mem {word : String} (hword : word ∈ lex.words) :
    firstTag? (xs ++ [x]) word = firstTag? xs word := by
  have hsome := isSome_firstTag?.2 ((h.mem_words_iff word).1 hword)
  rw [firstTag?_concat, Option.or_of_isSome hsome]

theorem firstTag?_concat_of_notMem (hnew : x.word ∉ lex.words) : firstTag? (xs ++ [x]) x.word = some x.tag := by
  have hnone : firstTag? xs x.word = none := by
    rw [← Option.not_isSome_iff_eq_none, isSome_firstTag?, ← h.mem_words_iff]
    exact hnew
  rw [firstTag?_concat, hnone, if_pos rfl, Option.none_or]

/-- Observing one more tagging keeps each word a type of its first tag. -/
theorem observe : (lex.observe x).Observed (xs ++ [x]) where
  mem_words_iff word := by
    rw [(words_observe_perm lex x).mem_iff, List.mem_insert_iff, h.mem_words_iff, List.map_append, List.mem_append,
      List.map_singleton, List.mem_singleton, or_comm]
  isKnown_iff word := by
    have hkey := h.isKnown_iff word
    rw [isKnown, decide_eq_true_eq] at hkey ⊢
    rw [wordCount_observe, (words_observe_perm lex x).mem_iff, List.mem_insert_iff, ← hkey]
    by_cases hword : x.word = word
    · simp [hword]
    · simp [hword, Ne.symm hword]
  types_eq := by
    rw [types_observe, (words_observe_perm lex x).length_eq, h.types_eq]
    by_cases hmem : x.word ∈ lex.words
    · rw [List.insert_of_mem hmem, if_pos ((h.isKnown_iff _).2 hmem), Nat.add_zero]
    · rw [List.insert_of_not_mem hmem, if_neg (mt (h.isKnown_iff _).1 hmem), List.length_cons]
  introducedTypes_eq tag := by
    have hkept : lex.words.countP (fun word => firstTag? (xs ++ [x]) word = some tag) =
        lex.introducedTypes.count tag := by
      rw [h.introducedTypes_eq]
      refine List.countP_congr fun word hword => ?_
      rw [h.firstTag?_concat_of_mem x hword]
    rw [introducedTypes_observe, (words_observe_perm lex x).countP_eq]
    by_cases hmem : x.word ∈ lex.words
    · rw [List.insert_of_mem hmem, hkept, (h.isKnown_iff _).2 hmem]
      simp
    · have hknown : lex.isKnown x.word = false := Bool.eq_false_iff.2 (mt (h.isKnown_iff _).1 hmem)
      rw [List.insert_of_not_mem hmem, List.countP_cons, hkept, h.firstTag?_concat_of_notMem x hmem, hknown]
      simp

end Observed

theorem observed_foldl (xs : List Tagging) : (xs.foldl observe empty).Observed xs := by
  induction xs using List.reverseRecOn with
  | nil => exact observed_empty
  | append_singleton xs x ih =>
    rw [List.foldl_concat]
    exact ih.observe x

/-! ## Sums -/

/-- The counters of a lexicon agree with one another and with the trees that it was made from. -/
structure Agrees (lex : Lexicon) (ts : Forest) : Prop where
  tokens_eq : lex.tokens = (ts.flatMap Tree.subtrees).countP Tree.isPreterminal
  sum_tagCount : (lex.tags.map lex.tagCount).sum = lex.tokens
  sum_wordCount : (lex.words.map lex.wordCount).sum = lex.tokens
  sum_taggingCount_words (tag : String) : (lex.words.map fun word => lex.taggingCount word tag).sum = lex.tagCount tag
  sum_taggingCount_tags (word : String) : (lex.tags.map fun tag => lex.taggingCount word tag).sum = lex.wordCount word
  /-- The known words are listed once each. -/
  nodup_words : lex.words.Nodup
  mem_words_iff (word : String) : word ∈ lex.words ↔ lex.isKnown word = true
  types_eq : lex.types = lex.words.length
  sum_introducedTypes : (lex.introducedTypes.keys.map lex.introducedTypes.count).sum = lex.types
  /-- The first occurrence is taken with the trees in order, each from left to right. -/
  introducedTypes_eq (tag : String) : lex.introducedTypes.count tag =
    lex.words.countP fun word => firstTag? (ts.flatMap Tree.taggings) word = some tag
  sorted_tags : lex.tags.Pairwise (· < ·)
  mem_tags_iff (tag : String) : tag ∈ lex.tags ↔ 0 < lex.tagCount tag
  /-- The set of tags is kept beside the counts, and has those that were counted. -/
  tags_eq : lex.tags = lex.tagCounts.keys

theorem nodup_words (lex : Lexicon) : lex.words.Nodup := Tally.nodup_keys _

theorem sorted_tags (lex : Lexicon) : lex.tags.Pairwise (· < ·) := by
  have hsorted : lex.tags.Pairwise fun a b => compare a b = .lt := Std.TreeSet.ordered_toList
  exact hsorted.imp fun h => compareOfLessAndEq_eq_lt.1 h

theorem nodup_tags (lex : Lexicon) : lex.tags.Nodup := lex.sorted_tags.imp ne_of_lt

section OfTrees

variable (ts : Forest)

theorem observed_ofTrees : (ofTrees ts).Observed (ts.flatMap Tree.taggings) := observed_foldl _

theorem mem_words_of_mem {x : Tagging} (h : x ∈ ts.flatMap Tree.taggings) : x.word ∈ (ofTrees ts).words :=
  ((observed_ofTrees ts).mem_words_iff x.word).2 (List.mem_map_of_mem h)

theorem mem_tags_of_mem {x : Tagging} (h : x ∈ ts.flatMap Tree.taggings) : x.tag ∈ (ofTrees ts).tags :=
  mem_tags_ofTrees.2 (List.mem_map_of_mem h)

theorem tags_ofTrees : (ofTrees ts).tags = (ofTrees ts).tagCounts.keys := by
  refine (sorted_tags _).eq_of_mem_iff (Tally.keys_sorted _) fun {tag} => ?_
  rw [mem_tags_ofTrees, ofTrees, tagCounts_foldl, Tally.mem_keys_addAll]
  simp [empty]

theorem sum_taggingCount_words (tag : String) :
    ((ofTrees ts).words.map fun word => (ofTrees ts).taggingCount word tag).sum = (ofTrees ts).tagCount tag := by
  simp only [taggingCount_ofTrees, tagCount_ofTrees]
  refine sum_map_count_pair (fun tag word => ⟨word, tag⟩) ?_ (nodup_words _) (fun x => mem_words_of_mem ts) tag
  rintro ⟨w, t⟩ tag word
  simp [and_comm]

theorem sum_taggingCount_tags (word : String) :
    ((ofTrees ts).tags.map fun tag => (ofTrees ts).taggingCount word tag).sum = (ofTrees ts).wordCount word := by
  simp only [taggingCount_ofTrees, wordCount_ofTrees]
  refine sum_map_count_pair Tagging.mk ?_ (nodup_tags _) (fun x => mem_tags_of_mem ts) word
  rintro ⟨w, t⟩ word tag
  simp

theorem sum_introducedTypes :
    ((ofTrees ts).introducedTypes.keys.map (ofTrees ts).introducedTypes.count).sum = (ofTrees ts).types := by
  have hobserved := observed_ofTrees ts
  -- the first tags of the known words, one for each
  let firsts := (ofTrees ts).words.filterMap (firstTag? (ts.flatMap Tree.taggings))
  have hcount (tag : String) : (ofTrees ts).introducedTypes.count tag = firsts.count tag := by
    rw [hobserved.introducedTypes_eq, List.count_filterMap]
    exact List.countP_congr fun word _ => by simp
  have hkeys : ∀ tag ∈ firsts, tag ∈ (ofTrees ts).introducedTypes.keys := by
    intro tag htag
    by_contra hno
    have hzero := hcount tag
    rw [Tally.count_eq_zero_of_notMem hno] at hzero
    exact List.count_eq_zero.1 hzero.symm htag
  have hlength : firsts.length = (ofTrees ts).words.length := by
    rw [List.length_filterMap_eq_countP, List.countP_eq_length]
    exact fun word hword => isSome_firstTag?.2 ((hobserved.mem_words_iff word).1 hword)
  rw [sum_map_eq_length (Tally.nodup_keys _) hcount hkeys, hlength, hobserved.types_eq]

theorem agrees_ofTrees : (ofTrees ts).Agrees ts where
  tokens_eq := by
    rw [tokens_ofTrees, List.length_flatMap, List.countP_flatMap]
    exact congrArg List.sum (List.map_congr_left fun t _ => t.length_taggings)
  sum_tagCount := by
    have htags : ∀ t ∈ (ts.flatMap Tree.taggings).map Tagging.tag, t ∈ (ofTrees ts).tags :=
      List.forall_mem_map.2 fun x => mem_tags_of_mem ts
    rw [sum_map_eq_length (nodup_tags _) (tagCount_ofTrees ts) htags, List.length_map, tokens_ofTrees]
  sum_wordCount := by
    have hwords : ∀ w ∈ (ts.flatMap Tree.taggings).map Tagging.word, w ∈ (ofTrees ts).words :=
      List.forall_mem_map.2 fun x => mem_words_of_mem ts
    rw [sum_map_eq_length (nodup_words _) (wordCount_ofTrees ts) hwords, List.length_map, tokens_ofTrees]
  sum_taggingCount_words := sum_taggingCount_words ts
  sum_taggingCount_tags := sum_taggingCount_tags ts
  nodup_words := nodup_words _
  mem_words_iff word := ((observed_ofTrees ts).isKnown_iff word).symm
  types_eq := (observed_ofTrees ts).types_eq
  sum_introducedTypes := sum_introducedTypes ts
  introducedTypes_eq := (observed_ofTrees ts).introducedTypes_eq
  sorted_tags := sorted_tags _
  mem_tags_iff tag := by rw [tagCount_ofTrees, List.count_pos_iff, mem_tags_ofTrees]
  tags_eq := tags_ofTrees ts

end OfTrees

end Lexicon

end Constituency
