/-
The exact value of a binary floating point number of 64 bits: a sign and a magnitude that is a natural
number times a power of two, or infinity, or no number at all. Magnitudes are compared with decimal grids,
the multiples of a power of ten, in exact arithmetic on natural numbers.
-/

namespace Constituency.Decimal

structure Magnitude where
  mantissa : Nat
  exponent : Int
deriving Repr, DecidableEq

inductive Binary64 where
  | notANumber
  | infinite (negative : Bool)
  | finite (negative : Bool) (magnitude : Magnitude)
deriving Repr, DecidableEq

namespace Binary64

def fractionBits : Nat := 52

/-- Reads 1 bit of sign, 11 bits of exponent and 52 bits of fraction. -/
def ofBits (bits : UInt64) : Binary64 :=
  let n := bits.toNat
  let negative := n / Nat.pow 2 63 == 1
  let biased : Nat := n / Nat.pow 2 fractionBits % Nat.pow 2 11
  let fraction := n % Nat.pow 2 fractionBits
  if biased = Nat.pow 2 11 - 1 then if fraction = 0 then infinite negative else notANumber
  else if biased = 0 then finite negative ⟨fraction, -1074⟩
  else finite negative ⟨Nat.pow 2 fractionBits + fraction, Int.ofNat biased - 1075⟩

def ofFloat (x : Float) : Binary64 := ofBits x.toBits

end Binary64

/-! ## Exact scaling -/

def sign (negative : Bool) : String := if negative then "-" else ""

/-- Compares `a · 10 ^ g` with `b · 2 ^ q`. -/
def compareScaled (a : Nat) (g : Int) (b : Nat) (q : Int) : Ordering :=
  compare (a * Nat.pow 10 g.toNat * Nat.pow 2 (-q).toNat) (b * Nat.pow 2 q.toNat * Nat.pow 10 (-g).toNat)

/-- The magnitude as a fraction in units of `10 ^ g`: numerator and denominator. -/
def Magnitude.inUnits (x : Magnitude) (g : Int) : Nat × Nat :=
  (x.mantissa * Nat.pow 2 x.exponent.toNat * Nat.pow 10 (-g).toNat,
    Nat.pow 2 (-x.exponent).toNat * Nat.pow 10 g.toNat)

end Constituency.Decimal
