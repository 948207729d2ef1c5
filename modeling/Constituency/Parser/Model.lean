/-
The trained probabilistic grammar: a grammar and a lexicon, both estimated from the annotated training
trees. The parse of a sentence is its cheapest derivation with the annotation undone.
-/
import Constituency.Annotation.Basic
import Constituency.Chart.Derivation
import Constituency.Lexicon.Basic

namespace Constituency

structure Model (ρ κ : Type) where
  grammar : Grammar ρ κ
  lexicon : Lexicon

namespace Model

variable {ρ κ : Type} [NatCast ρ] [Add ρ] [Mul ρ] [Div ρ] [LT ρ] [DecidableLT ρ] [Surprisal ρ κ]

def train (ts : Forest) : Except Error (Model ρ κ) := do
  let annotated := ts.map Tree.annotate
  let grammar ← Grammar.ofTrees annotated
  return ⟨grammar, Lexicon.ofTrees annotated⟩

variable [Add κ] [LT κ] [DecidableLT κ] [BEq κ]

/-- The cheapest derivation of a sentence, in annotated form. -/
def derive? (m : Model ρ κ) (sentence : List String) : Option (Derivation κ) :=
  m.grammar.derive? m.lexicon.scorer sentence rootLabel

def parse? (m : Model ρ κ) (sentence : List String) : Option Tree :=
  (m.derive? sentence).map (·.tree.unannotate)

end Model

end Constituency
