/-
Decimals with a fixed number of places. The exact value is rounded to the nearest multiple of the last
place; a value halfway between two of them goes to the even one.
-/
import Constituency.Decimal.Binary64

namespace Constituency.Decimal

/-- The whole number nearest to `num / den`; halfway, the even one. -/
def roundHalfEven (num den : Nat) : Nat :=
  let whole := num / den
  match compare (2 * (num % den)) den with
  | .lt => whole
  | .gt => whole + 1
  | .eq => whole + whole % 2

/-- A number of units of the last place, written with that many places. -/
def writeUnits (places units : Nat) : String :=
  let digits := Nat.toDigits 10 (units % Nat.pow 10 places)
  let whole := Nat.repr (units / Nat.pow 10 places)
  if places = 0 then whole
  else whole ++ "." ++ String.ofList (List.replicate (places - digits.length) '0' ++ digits)

def Magnitude.fixed (places : Nat) (x : Magnitude) : String :=
  let (num, den) := x.inUnits (-(places : Int))
  writeUnits places (roundHalfEven num den)

def Binary64.fixed (places : Nat) : Binary64 → String
  | notANumber => "NaN"
  | infinite negative => sign negative ++ "inf"
  | finite negative x => sign negative ++ x.fixed places

/-- The text of a number with a fixed number of places, rounded from its exact value. -/
def fixed (places : Nat) (x : Float) : String := (Binary64.ofFloat x).fixed places

end Constituency.Decimal
