/-
The line in which scores are reported, as percentages with two places.
-/
import Constituency.Decimal.Fixed
import Constituency.Score.Basic

namespace Constituency

/-- A share as a percentage with two places. -/
def percentage (x : Float) : String := Decimal.fixed 2 (x * 100)

def Scores.report (s : Scores Float) : String :=
  "P: " ++ percentage s.precision ++ " R: " ++ percentage s.recallRate ++ " F1: " ++ percentage s.f1
    ++ " EX: " ++ percentage s.exactMatch

end Constituency
