/-
Scores of guessed trees against gold trees: precision, recall, their harmonic mean, and the share of
sentences whose guess is exact. The scores of a test set are those of the sums of the counts of its
sentences, so that the order of the sentences does not matter.
-/
import Constituency.Score.Bracket

namespace Constituency

structure Totals where
  /-- Brackets both guessed and gold. -/
  correct : Nat
  guessed : Nat
  gold : Nat
  /-- Sentences whose guess has exactly the gold brackets. -/
  exactMatches : Nat
  sentences : Nat
deriving Repr, DecidableEq

namespace Totals

def zero : Totals := ⟨0, 0, 0, 0, 0⟩

def add (a b : Totals) : Totals :=
  ⟨a.correct + b.correct, a.guessed + b.guessed, a.gold + b.gold, a.exactMatches + b.exactMatches,
    a.sentences + b.sentences⟩

instance : Add Totals := ⟨add⟩

/-- The counts of one sentence. A missing guess has no brackets and is never exact. -/
def ofPair (s : Scoring) (guess : Option Tree) (gold : Tree) : Totals :=
  let guessed := match guess with
    | none => []
    | some t => s.constituents t
  let gold := s.constituents gold
  let correct := (guessed.filter (· ∈ gold)).length
  let isExact := guess.isSome && correct == guessed.length && correct == gold.length
  ⟨correct, guessed.length, gold.length, if isExact then 1 else 0, 1⟩

end Totals

structure Scores (ρ : Type) where
  precision : ρ
  recallRate : ρ
  f1 : ρ
  exactMatch : ρ
deriving Repr

section

variable {ρ : Type} [NatCast ρ] [Add ρ] [Div ρ] [LT ρ] [DecidableLT ρ]

/-- A quotient of counts, zero when there is nothing to divide by. -/
def ratio (num den : Nat) : ρ := if den = 0 then ((0 : Nat) : ρ) else (num : ρ) / (den : ρ)

/-- The harmonic mean of two positive numbers, zero when one of them is not positive. -/
def harmonicMean (x y : ρ) : ρ :=
  if ((0 : Nat) : ρ) < x ∧ ((0 : Nat) : ρ) < y then
    ((2 : Nat) : ρ) / (((1 : Nat) : ρ) / x + ((1 : Nat) : ρ) / y)
  else ((0 : Nat) : ρ)

def Totals.scores (t : Totals) : Scores ρ :=
  let precision := ratio t.correct t.guessed
  let recallRate := ratio t.correct t.gold
  ⟨precision, recallRate, harmonicMean precision recallRate, ratio t.exactMatches t.sentences⟩

end

end Constituency
