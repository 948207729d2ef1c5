/-
Scores are well defined. A score is a chain of divisions whose denominators are counts, and which of them can be zero
depends on how the counters agree. `Checked` arithmetic stops at a division by zero; the definition of scores, taken in
it, gives the same number as in a field (`checked_score`), for known and unknown words and for any tag. A score is
never negative, and it is positive for what was observed (`consistent_ofTrees`).
-/
import Constituency.Proofs.Lexicon.Agreement

namespace Constituency

/-! ## Checked arithmetic -/

/-- The result of a computation that stops where it divides by zero. -/
inductive Checked (ρ : Type) where
  | number (x : ρ)
  | dividedByZero
deriving DecidableEq

namespace Checked

variable {ρ : Type}

/-- Computes with two results if there are both. -/
def bind₂ (f : ρ → ρ → Checked ρ) : Checked ρ → Checked ρ → Checked ρ
  | number x, number y => f x y
  | _, _ => dividedByZero

instance [NatCast ρ] : NatCast (Checked ρ) := ⟨fun n => number (n : ρ)⟩

instance [Add ρ] : Add (Checked ρ) := ⟨bind₂ fun x y => number (x + y)⟩

instance [Mul ρ] : Mul (Checked ρ) := ⟨bind₂ fun x y => number (x * y)⟩

instance [Zero ρ] [DecidableEq ρ] [Div ρ] : Div (Checked ρ) :=
  ⟨bind₂ fun x y => if y = 0 then dividedByZero else number (x / y)⟩

theorem natCast_eq [NatCast ρ] (n : Nat) : (n : Checked ρ) = number (n : ρ) := rfl

theorem number_add [Add ρ] (x y : ρ) : number x + number y = number (x + y) := rfl

theorem number_mul [Mul ρ] (x y : ρ) : number x * number y = number (x * y) := rfl

theorem number_div [Zero ρ] [DecidableEq ρ] [Div ρ] (x : ρ) {y : ρ} (h : y ≠ 0) :
    number x / number y = number (x / y) :=
  if_neg h

example : (number 1 / number 0 : Checked ℚ) = dividedByZero := by decide

end Checked

/-! ## Scores -/

namespace Lexicon

section Denominators

variable {ts : Forest} {tag : String} (h : (ofTrees ts).tagCount tag ≠ 0)

include h

theorem tokens_ne_zero : (ofTrees ts).tokens ≠ 0 := by
  rw [tagCount_ofTrees] at h
  rw [tokens_ofTrees]
  have hle := List.count_le_length (a := tag) (l := (ts.flatMap Tree.taggings).map Tagging.tag)
  rw [List.length_map] at hle
  omega

/-- Where there is a tag, there is a word that had it. -/
theorem types_ne_zero : (ofTrees ts).types ≠ 0 := by
  rw [tagCount_ofTrees] at h
  obtain ⟨x, hx, -⟩ := List.mem_map.1 (List.count_pos_iff.1 (Nat.pos_of_ne_zero h))
  rw [(observed_ofTrees ts).types_eq]
  exact (List.length_pos_of_mem (mem_words_of_mem ts hx)).ne'

end Denominators

variable {ρ : Type} [Field ρ] [LinearOrder ρ] [IsStrictOrderedRing ρ]

/-- No division of a score is by zero. -/
theorem checked_score (ts : Forest) (word tag : String) :
    ((ofTrees ts).score word tag : Checked ρ) = .number ((ofTrees ts).score word tag) := by
  unfold score
  by_cases htag : (ofTrees ts).tagCount tag = 0
  · rw [if_pos htag, if_pos htag]
    rfl
  · have htokens : ((ofTrees ts).tokens : ρ) ≠ 0 := Nat.cast_ne_zero.2 (tokens_ne_zero htag)
    have htypes : ((ofTrees ts).types : ρ) ≠ 0 := Nat.cast_ne_zero.2 (types_ne_zero htag)
    have hboth : (((ofTrees ts).tokens + (ofTrees ts).types : Nat) : ρ) ≠ 0 :=
      Nat.cast_ne_zero.2 fun hzero => tokens_ne_zero htag (Nat.eq_zero_of_add_eq_zero_right hzero)
    have hprobability : ((ofTrees ts).tagCount tag : ρ) / ((ofTrees ts).tokens : ρ) ≠ 0 :=
      div_ne_zero (Nat.cast_ne_zero.2 htag) htokens
    have hshare : ((ofTrees ts).typeShare tag : Checked ρ) = .number ((ofTrees ts).typeShare tag) :=
      Checked.number_div _ htypes
    rw [if_neg htag, if_neg htag]
    -- a word that is not rare was counted, and a rare one counts once more
    by_cases hrare : (ofTrees ts).wordCount word < rareBelow
    · have hword : (((ofTrees ts).wordCount word + 1 : Nat) : ρ) ≠ 0 := Nat.cast_ne_zero.2 (by omega)
      simp only [hrare, if_true, hshare, Checked.natCast_eq, Checked.number_add, Checked.number_mul,
        Checked.number_div _ hword, Checked.number_div _ htokens, Checked.number_div _ hboth,
        Checked.number_div _ hprobability]
    · have hword : ((ofTrees ts).wordCount word : ρ) ≠ 0 := Nat.cast_ne_zero.2 (by unfold rareBelow at hrare; omega)
      simp only [hrare, if_false, Checked.natCast_eq, Checked.number_mul, Checked.number_div _ hword,
        Checked.number_div _ htokens, Checked.number_div _ hboth, Checked.number_div _ hprobability]

theorem score_nonneg (lex : Lexicon) (word tag : String) : (0 : ρ) ≤ lex.score word tag := by
  unfold score typeShare
  split
  · exact Nat.cast_zero.ge
  · refine mul_nonneg (div_nonneg (div_nonneg ?_ (Nat.cast_nonneg _)) ?_) ?_
    · split <;> positivity
    · positivity
    · positivity

/-- The counters of a lexicon agree. So no score divides by zero, no score is negative, and the scores of observed
taggings are positive. -/
theorem consistent_ofTrees (ts : Forest) : (ofTrees ts).Agrees ts ∧ ∀ word tag : String,
    ((ofTrees ts).score word tag : Checked ρ) = .number ((ofTrees ts).score word tag) ∧
      (0 : ρ) ≤ (ofTrees ts).score word tag ∧
        (⟨word, tag⟩ ∈ ts.flatMap Tree.taggings → (0 : ρ) < (ofTrees ts).score word tag) :=
  ⟨agrees_ofTrees ts, fun word tag => ⟨checked_score ts word tag, score_nonneg _ word tag, score_pos⟩⟩

/-- A word with two tags, one of which introduces no word. -/
def ambiguousTrees : Forest :=
  [.node "ROOT" [.preterminal "N" "runs", .preterminal "V" "runs"], .node "ROOT" [.preterminal "N" "dogs"]]

theorem consistent_ofTrees_ambiguous : (ofTrees ambiguousTrees).Agrees ambiguousTrees ∧
    ((ofTrees ambiguousTrees).score "runs" "V" : Checked ℚ) = .number (4 / 5) ∧
    (0 : ℚ) < (ofTrees ambiguousTrees).score "runs" "V" ∧
    ((ofTrees ambiguousTrees).score "cats" "N" : Checked ℚ) = .number (3 / 5) ∧
    ((ofTrees ambiguousTrees).score "cats" "V" : Checked ℚ) = .number 0 := by
  obtain ⟨hagrees, hscores⟩ := consistent_ofTrees (ρ := ℚ) ambiguousTrees
  have hruns : (ofTrees ambiguousTrees).score "runs" "V" = (4 / 5 : ℚ) := by decide +kernel
  have hnoun : (ofTrees ambiguousTrees).score "cats" "N" = (3 / 5 : ℚ) := by decide +kernel
  have hverb : (ofTrees ambiguousTrees).score "cats" "V" = (0 : ℚ) := by decide +kernel
  exact ⟨hagrees, hruns ▸ (hscores "runs" "V").1, (hscores "runs" "V").2.2 (by decide +kernel),
    hnoun ▸ (hscores "cats" "N").1, hverb ▸ (hscores "cats" "V").1⟩

end Lexicon

end Constituency
