/-
The shortest decimal of a floating point number: the fewest digits that read back to the same number, and
of those the nearest to its exact value. The search goes through the grids of multiples of a power of ten,
the coarsest first. On each it tries the two neighbours of the exact value, and the first grid that has one
of them inside the interval of reals that round to the number wins. The decimal is written out in full,
without an exponent.
-/
import Constituency.Decimal.Binary64

namespace Constituency.Decimal

structure Positional where
  digits : Nat
  exponent : Int
deriving Repr, DecidableEq

namespace Positional

/-- The decimal written out in full: no point without places, no place beyond the last digit. -/
def write (d : Positional) : String :=
  let digits := Nat.toDigits 10 d.digits
  if 0 ≤ d.exponent then String.ofList (digits ++ List.replicate d.exponent.toNat '0')
  else
    let places := (-d.exponent).toNat
    let padded := List.replicate (places + 1 - digits.length) '0' ++ digits
    let whole := padded.length - places
    String.ofList (padded.take whole ++ '.' :: padded.drop whole)

end Positional

namespace Magnitude

/-- Whether the next smaller number lies only half as far away as the next larger one. -/
def isLowerEnd (x : Magnitude) : Bool :=
  x.mantissa == Nat.pow 2 Binary64.fractionBits && -1074 < x.exponent

/-- Whether the decimal `c · 10 ^ g` reads back to the number: it lies between the midpoints to the two
neighbouring numbers, which themselves read back only to an even mantissa. The midpoints are counted in
quarters of the last bit. -/
def readsBack (x : Magnitude) (c : Nat) (g : Int) : Bool :=
  let below := compareScaled c g (4 * x.mantissa - if x.isLowerEnd then 1 else 2) (x.exponent - 2)
  let above := compareScaled c g (4 * x.mantissa + 2) (x.exponent - 2)
  if x.mantissa % 2 = 0 then below != .lt && above != .gt else below == .gt && above == .lt

/-- The decimal on the grid of multiples of `10 ^ g` that reads back to the number, if there is one: the
nearer of the neighbours of the exact value, and the upper one halfway. -/
def onGrid? (x : Magnitude) (g : Int) : Option Positional :=
  let (num, den) := x.inUnits g
  let c := num / den
  match x.readsBack c g, x.readsBack (c + 1) g with
  | true, true => some ⟨if 2 * num < (2 * c + 1) * den then c else c + 1, g⟩
  | true, false => some ⟨c, g⟩
  | false, true => some ⟨c + 1, g⟩
  | false, false => none

/-- An exponent of ten whose grid is coarser than the number: the number is below two to the power of its
bits, 0.302 is the logarithm of two to within one power of ten over the whole range, and the rest is room. -/
def coarsest (x : Magnitude) : Int :=
  ((x.mantissa.log2 : Int) + x.exponent + 1) * 302 / 1000 + 4

def exact (x : Magnitude) : Positional :=
  let g := min x.exponent 0
  ⟨(x.inUnits g).1 / (x.inUnits g).2, g⟩

/-- The shortest decimal that reads back; the grids in the list reach beyond seventeen digits. -/
def shortest (x : Magnitude) : Positional :=
  if x.mantissa = 0 then ⟨0, 0⟩
  else ((List.range 26).findSome? fun (i : Nat) => x.onGrid? (x.coarsest - i)).getD x.exact

end Magnitude

def Binary64.shortest : Binary64 → String
  | notANumber => "NaN"
  | infinite negative => sign negative ++ "inf"
  | finite negative x => sign negative ++ x.shortest.write

/-- The fewest digits that read back to the same number, written out in full. -/
def shortest (x : Float) : String := (Binary64.ofFloat x).shortest

end Constituency.Decimal
