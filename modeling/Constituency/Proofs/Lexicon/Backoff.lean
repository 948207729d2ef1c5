/-
What rare words borrow. A word that is rare, known or not, has a positive score under a tag exactly when it occurred
with the tag or some word occurred with it first (`score_pos_iff_of_rare`). A tag that introduced no word has no share
of the types, so that it is closed to unknown words although it is one of the tags of the lexicon.
-/
import Constituency.Proofs.Lexicon.Scores

namespace Constituency.Lexicon

variable {ρ : Type} [Field ρ] [LinearOrder ρ] [IsStrictOrderedRing ρ]

/-- The tags with a share of the types are those that some word occurred with first. -/
theorem typeShare_pos_iff {ts : Forest} {tag : String} (htag : (ofTrees ts).tagCount tag ≠ 0) :
    (0 : ρ) < (ofTrees ts).typeShare tag ↔ ∃ word, firstTag? (ts.flatMap Tree.taggings) word = some tag := by
  have htypes : (0 : ρ) < (ofTrees ts).types := Nat.cast_pos.2 (Nat.pos_of_ne_zero (types_ne_zero htag))
  rw [typeShare, div_pos_iff_of_pos_right htypes, Nat.cast_pos, (observed_ofTrees ts).introducedTypes_eq,
    List.countP_pos_iff]
  constructor
  · rintro ⟨word, -, hfirst⟩
    exact ⟨word, of_decide_eq_true hfirst⟩
  · rintro ⟨word, hfirst⟩
    have hword := isSome_firstTag?.1 (Option.isSome_of_eq_some hfirst)
    exact ⟨word, ((observed_ofTrees ts).mem_words_iff word).2 hword, decide_eq_true hfirst⟩

/-- A tag is open to a rare word exactly when the word occurred with it or when it introduced some word. -/
theorem score_pos_iff_of_rare {ts : Forest} {word tag : String} (hrare : (ofTrees ts).wordCount word < rareBelow)
    (htag : tag ∈ (ofTrees ts).tags) : (0 : ρ) < (ofTrees ts).score word tag ↔
      ⟨word, tag⟩ ∈ ts.flatMap Tree.taggings ∨ ∃ w, firstTag? (ts.flatMap Tree.taggings) w = some tag := by
  have hcount : 0 < (ofTrees ts).tagCount tag := ((agrees_ofTrees ts).mem_tags_iff tag).1 htag
  have htokens : 0 < (ofTrees ts).tokens := Nat.pos_of_ne_zero (tokens_ne_zero hcount.ne')
  have hboth : (0 : ρ) ≤ (ofTrees ts).taggingCount word tag := Nat.cast_nonneg _
  have hshare : (0 : ρ) ≤ (ofTrees ts).typeShare tag := div_nonneg (Nat.cast_nonneg _) (Nat.cast_nonneg _)
  have htagging : (0 : ρ) < (ofTrees ts).taggingCount word tag ↔ ⟨word, tag⟩ ∈ ts.flatMap Tree.taggings := by
    rw [Nat.cast_pos, taggingCount_ofTrees, List.count_pos_iff]
  rw [score, if_neg hcount.ne']
  simp only [hrare, if_true]
  rw [mul_pos_iff_of_pos_right (by positivity), div_pos_iff_of_pos_right (by positivity),
    div_pos_iff_of_pos_right (by positivity), ← htagging, ← typeShare_pos_iff (ρ := ρ) hcount.ne']
  constructor
  · intro hpos
    by_contra! hno
    exact absurd hpos (not_lt.2 (add_nonpos hno.1 hno.2))
  · rintro (hpos | hpos)
    · exact add_pos_of_pos_of_nonneg hpos hshare
    · exact add_pos_of_nonneg_of_pos hboth hpos

/-- Nouns introduced both words: an unknown word can be a noun, and the one that was a verb, too, can be one again. -/
theorem score_pos_iff_of_rare_ambiguous :
    ((ofTrees ambiguousTrees).wordCount "cats" < rareBelow ∧ (ofTrees ambiguousTrees).tags = ["N", "V"]) ∧
    (0 : ℚ) < (ofTrees ambiguousTrees).score "cats" "N" ∧ (0 : ℚ) < (ofTrees ambiguousTrees).score "runs" "V" ∧
    ¬ ∃ w, firstTag? (ambiguousTrees.flatMap Tree.taggings) w = some "V" := by
  have hrare : (ofTrees ambiguousTrees).wordCount "cats" < rareBelow := by decide +kernel
  have htags : (ofTrees ambiguousTrees).tags = ["N", "V"] := by decide +kernel
  have hclosed : (ofTrees ambiguousTrees).score "cats" "V" = (0 : ℚ) := by decide +kernel
  refine ⟨⟨hrare, htags⟩, ?_, ?_, fun hfirst => ?_⟩
  · exact (score_pos_iff_of_rare hrare (by simp [htags])).2 (.inr ⟨"dogs", by decide +kernel⟩)
  · exact (score_pos_iff_of_rare (by decide +kernel) (by simp [htags])).2 (.inl (by decide +kernel))
  · have hopen := (score_pos_iff_of_rare (ρ := ℚ) hrare (by simp [htags])).2 (.inr hfirst)
    exact lt_irrefl 0 (hclosed ▸ hopen)

/-- Not every tag is open to every rare word: one that introduced no word is closed to unknown words. -/
theorem not_forall_score_pos_of_rare : ¬ ∀ (ts : Forest) (word tag : String),
    (ofTrees ts).wordCount word < rareBelow → tag ∈ (ofTrees ts).tags → (0 : ℚ) < (ofTrees ts).score word tag := by
  intro h
  have hclosed : (ofTrees ambiguousTrees).score "cats" "V" = (0 : ℚ) := by decide +kernel
  have hopen := h ambiguousTrees "cats" "V" (by decide +kernel) (by decide +kernel)
  exact lt_irrefl 0 (hclosed ▸ hopen)

end Constituency.Lexicon
