/-
The cheapest derivation of a sentence, read off its chart. The steps kept in the chart are followed down
from the start symbol over the whole sentence to the words.
-/
import Constituency.Chart.Basic

namespace Constituency

/-- The tree of a derivation over the symbols of the grammar, and its cost: the sum of the costs of its
rules and taggings. -/
structure Derivation (κ : Type) where
  tree : Tree
  cost : κ

variable {ρ κ : Type}

/-- The tree of a symbol over a span, found by following steps to the given depth. -/
def Chart.tree? (g : Grammar ρ κ) (words : Array String) (c : Chart κ) :
    (depth symbol start stop : Nat) → Option Tree
  | 0, _, _, _ => none
  | depth + 1, symbol, start, stop => do
    let label ← g.symbols.name? symbol
    let entry ← (c.cell start stop)[symbol]?
    match entry.step with
    | .lexical => return .preterminal label (← words[start]?)
    | .unary child =>
      let t ← c.tree? g words depth child start stop
      return .node label [t]
    | .binary split left right =>
      let s ← c.tree? g words depth left start split
      let t ← c.tree? g words depth right split stop
      return .node label [s, t]

/-- More steps than a derivation in the chart is deep: no chain of unary steps repeats a symbol, and every
binary step shortens the span. -/
def Chart.depthLimit (g : Grammar ρ κ) (c : Chart κ) : Nat := (c.length + 1) * (g.numSymbols + 1)

variable [NatCast ρ] [LT ρ] [DecidableLT ρ] [Surprisal ρ κ] [Add κ] [LT κ] [DecidableLT κ] [BEq κ]

/-- The cheapest derivation of a sentence from the start symbol. An empty sentence has none. -/
def Grammar.derive? (g : Grammar ρ κ) (scorer : TagScorer ρ) (words : List String) (start : String) :
    Option (Derivation κ) := do
  guard (!words.isEmpty)
  let symbol ← g.symbols.number? start
  let chart := Chart.fill g scorer words
  let cost ← chart.cost? 0 words.length symbol
  let tree ← chart.tree? g words.toArray (chart.depthLimit g) symbol 0 words.length
  return ⟨tree, cost⟩

end Constituency
