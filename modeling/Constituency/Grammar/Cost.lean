/-
Costs of probabilities. A chart adds costs where a product of probabilities would be due; all it asks of a
cost is that costs can be added and compared. The program itself takes floating point numbers for both and
the negative natural logarithm as the cost of a probability.
-/

namespace Constituency

/-- The cost of a probability. -/
class Surprisal (ρ κ : Type) where
  surprisal : ρ → κ

export Surprisal (surprisal)

instance natCastFloat : NatCast Float := ⟨Float.ofNat⟩

instance surprisalFloat : Surprisal Float Float := ⟨fun p => -p.log⟩

end Constituency
