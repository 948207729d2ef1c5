/-
What a lexicon counts: its counts are numbers of occurrences in the list of taggings that it was made from, word and
tag together and each of them alone, and its tags are those of that list (`mem_tags_iff`). In exact arithmetic every
tagging that was observed has a positive score (`score_pos`).
-/
import Constituency.Lexicon.Basic
import Mathlib.Algebra.Order.Field.Basic
import Mathlib.Tactic

namespace Constituency.Lexicon

/-! ## Counters -/

theorem taggingCounts_foldl (xs : List Tagging) (lex : Lexicon) :
    (xs.foldl observe lex).taggingCounts = lex.taggingCounts.addAll xs := by
  induction xs generalizing lex with
  | nil => rfl
  | cons x xs ih => exact ih (lex.observe x)

theorem tagCounts_foldl (xs : List Tagging) (lex : Lexicon) :
    (xs.foldl observe lex).tagCounts = lex.tagCounts.addAll (xs.map Tagging.tag) := by
  induction xs generalizing lex with
  | nil => rfl
  | cons x xs ih => exact ih (lex.observe x)

theorem wordCounts_foldl (xs : List Tagging) (lex : Lexicon) :
    (xs.foldl observe lex).wordCounts = lex.wordCounts.addAll (xs.map Tagging.word) := by
  induction xs generalizing lex with
  | nil => rfl
  | cons x xs ih => exact ih (lex.observe x)

theorem tokens_foldl (xs : List Tagging) (lex : Lexicon) : (xs.foldl observe lex).tokens = lex.tokens + xs.length := by
  induction xs generalizing lex with
  | nil => rfl
  | cons x xs ih =>
    rw [List.foldl_cons, ih, List.length_cons]
    show lex.tokens + 1 + xs.length = _
    omega

theorem mem_tags_observe {lex : Lexicon} {x : Tagging} {tag : String} :
    tag ∈ (lex.observe x).tags ↔ x.tag = tag ∨ tag ∈ lex.tags := by
  unfold tags observe
  rw [Std.TreeSet.mem_toList, Std.TreeSet.mem_toList, Std.TreeSet.mem_insert, Std.compare_eq_iff_eq]

theorem mem_tags_foldl {xs : List Tagging} {lex : Lexicon} {tag : String} :
    tag ∈ (xs.foldl observe lex).tags ↔ tag ∈ lex.tags ∨ tag ∈ xs.map Tagging.tag := by
  induction xs generalizing lex with
  | nil => simp
  | cons x xs ih =>
    rw [List.foldl_cons, ih, mem_tags_observe, List.map_cons, List.mem_cons, eq_comm, or_comm (a := tag = x.tag), or_assoc]

/-! ## Counts of a list of trees -/

section OfTrees

variable (ts : Forest)

theorem taggingCount_ofTrees (word tag : String) :
    (ofTrees ts).taggingCount word tag = (ts.flatMap Tree.taggings).count ⟨word, tag⟩ := by
  rw [taggingCount, ofTrees, taggingCounts_foldl, Tally.count_addAll, empty, Tally.count_empty, Nat.zero_add]

theorem tagCount_ofTrees (tag : String) :
    (ofTrees ts).tagCount tag = ((ts.flatMap Tree.taggings).map Tagging.tag).count tag := by
  rw [tagCount, ofTrees, tagCounts_foldl, Tally.count_addAll, empty, Tally.count_empty, Nat.zero_add]

theorem wordCount_ofTrees (word : String) :
    (ofTrees ts).wordCount word = ((ts.flatMap Tree.taggings).map Tagging.word).count word := by
  rw [wordCount, ofTrees, wordCounts_foldl, Tally.count_addAll, empty, Tally.count_empty, Nat.zero_add]

theorem tokens_ofTrees : (ofTrees ts).tokens = (ts.flatMap Tree.taggings).length := by
  rw [ofTrees, tokens_foldl, empty, Nat.zero_add]

variable {ts}

theorem mem_tags_ofTrees {tag : String} :
    tag ∈ (ofTrees ts).tags ↔ tag ∈ (ts.flatMap Tree.taggings).map Tagging.tag := by
  have hnone : tag ∉ empty.tags := by
    unfold tags
    rw [Std.TreeSet.mem_toList]
    exact Std.TreeSet.not_mem_emptyc
  rw [ofTrees, mem_tags_foldl, or_iff_right hnone]

theorem mem_tags_iff {tag : String} : tag ∈ (ofTrees ts).tags ↔ ∃ t ∈ ts, tag ∈ t.tags := by
  simp only [mem_tags_ofTrees, Tree.tags, List.mem_map, List.mem_flatMap]
  constructor
  · rintro ⟨x, ⟨t, ht, hx⟩, rfl⟩
    exact ⟨t, ht, x, hx, rfl⟩
  · rintro ⟨t, ht, x, hx, rfl⟩
    exact ⟨x, ⟨t, ht, hx⟩, rfl⟩

end OfTrees

/-! ## Scores -/

/-- A tagging that was observed has a positive score. -/
theorem score_pos {ρ : Type} [Field ρ] [LinearOrder ρ] [IsStrictOrderedRing ρ] {ts : Forest} {x : Tagging}
    (h : x ∈ ts.flatMap Tree.taggings) : (0 : ρ) < (ofTrees ts).score x.word x.tag := by
  have htagging : 0 < (ofTrees ts).taggingCount x.word x.tag := by
    rw [taggingCount_ofTrees]
    exact List.count_pos_iff.2 h
  have htag : 0 < (ofTrees ts).tagCount x.tag := by
    rw [tagCount_ofTrees]
    exact List.count_pos_iff.2 (List.mem_map_of_mem h)
  have hword : 0 < (ofTrees ts).wordCount x.word := by
    rw [wordCount_ofTrees]
    exact List.count_pos_iff.2 (List.mem_map_of_mem h)
  have htokens : 0 < (ofTrees ts).tokens := by
    rw [tokens_ofTrees]
    exact List.length_pos_of_mem h
  have hshare : (0 : ρ) ≤ (ofTrees ts).typeShare x.tag := div_nonneg (Nat.cast_nonneg _) (Nat.cast_nonneg _)
  unfold score
  rw [if_neg htag.ne']
  -- each factor is positive, whether the word is rare or not
  refine mul_pos (div_pos (div_pos ?_ ?_) ?_) (div_pos ?_ ?_)
  · split
    · exact add_pos_of_pos_of_nonneg (Nat.cast_pos.2 htagging) hshare
    · exact Nat.cast_pos.2 htagging
  · rw [Nat.cast_pos]
    split <;> omega
  · exact div_pos (Nat.cast_pos.2 htag) (Nat.cast_pos.2 htokens)
  · exact Nat.cast_pos.2 (by omega)
  · exact Nat.cast_pos.2 (by omega)

end Constituency.Lexicon
