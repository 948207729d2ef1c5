/-
The law of costs that charts rely on, besides a total order and an addition that is monotone on both sides:
adding the cost of a probability that is at most one lowers no cost. Addition need be neither associative
nor commutative nor strictly monotone, so that arithmetic that rounds is covered. Two exact kinds of cost
have the law: the negative natural logarithm and the number of whole bits.
-/
import Constituency.Grammar.Basic
import Mathlib.Analysis.SpecialFunctions.Log.Basic
import Mathlib.Data.Int.Log

namespace Constituency

/-- Adding the cost of a probability that is at most one lowers no cost. -/
class LawfulSurprisal (ρ κ : Type) [NatCast ρ] [LT ρ] [LE ρ] [Surprisal ρ κ] [LE κ] [Add κ] : Prop where
  le_add_surprisal {p : ρ} : ((0 : Nat) : ρ) < p → p ≤ ((1 : Nat) : ρ) → ∀ c : κ, c ≤ c + surprisal p

/-- No rule is more than certain: every possible rule has a probability of at most one. -/
def AtMostCertain {ρ : Type} [NatCast ρ] [LT ρ] [LE ρ] (rules : List (Rule ρ)) : Prop :=
  ∀ r ∈ rules, ((0 : Nat) : ρ) < r.probability → r.probability ≤ ((1 : Nat) : ρ)

/-! ## Exact costs -/

noncomputable instance surprisalReal : Surprisal ℝ ℝ := ⟨fun p => -Real.log p⟩

instance : LawfulSurprisal ℝ ℝ where
  le_add_surprisal {p} h0 h1 c := by
    have h : Real.log p ≤ 0 := Real.log_nonpos (by exact_mod_cast h0.le) (by exact_mod_cast h1)
    show c ≤ c + -Real.log p
    linarith

/-- The cost of a probability in whole bits, rounded up. -/
instance surprisalBits : Surprisal ℚ ℤ := ⟨fun p => -Int.log 2 p⟩

instance : LawfulSurprisal ℚ ℤ where
  le_add_surprisal {p} h0 h1 c := by
    have h : Int.log 2 p ≤ Int.log 2 (1 : ℚ) := Int.log_mono_right (by exact_mod_cast h0) (by exact_mod_cast h1)
    rw [Int.log_one_right] at h
    show c ≤ c + -Int.log 2 p
    omega

end Constituency
