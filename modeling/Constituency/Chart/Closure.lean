/-
Closing a cell under unary rules. A pass goes through the symbols that the cell had when the pass began, in
order, and offers each of their unary edges at the cost that the child has by then. Passes are repeated
until one changes nothing; the passes that changed something are counted.
-/
import Constituency.Chart.Cell
import Constituency.Grammar.Basic

namespace Constituency

variable {ρ κ : Type} [Add κ] [LT κ] [DecidableLT κ] [BEq κ]

/-- A cell in the course of a pass, and whether the pass has changed it. -/
structure Pass (κ : Type) where
  cell : Cell κ
  changed : Bool

/-- Offers the parent of a unary edge, if the child is in the cell. -/
def Pass.follow (pass : Pass κ) (edge : UnaryEdge κ) : Pass κ :=
  match pass.cell[edge.child]? with
  | none => pass
  | some child =>
    let cost := child.cost + edge.cost
    if pass.cell.takesUnary edge.parent edge.child cost then
      ⟨pass.cell.insert edge.parent ⟨cost, .unary edge.child⟩, true⟩
    else pass

/-- A cell that is closed under unary rules, and the number of passes that changed it. -/
structure Closed (κ : Type) where
  cell : Cell κ
  passes : Nat

namespace Cell

/-- The edges that a pass follows: those of each symbol present, in order. -/
def unaryEdges (g : Grammar ρ κ) (cell : Cell κ) : List (UnaryEdge κ) :=
  cell.keys.flatMap g.unaryEdges.get

def pass (g : Grammar ρ κ) (cell : Cell κ) : Pass κ :=
  (cell.unaryEdges g).foldl Pass.follow ⟨cell, false⟩

/-- Repeats passes until one changes nothing, at most as often as the first argument says. -/
def closeWithin (g : Grammar ρ κ) : Nat → Cell κ → Closed κ
  | 0, cell => ⟨cell, 0⟩
  | limit + 1, cell =>
    match cell.pass g with
    | ⟨_, false⟩ => ⟨cell, 0⟩
    | ⟨cell, true⟩ =>
      let closed := closeWithin g limit cell
      ⟨closed.cell, closed.passes + 1⟩

/-- A number of passes that the closure of a cell never uses up. -/
def passLimit (g : Grammar ρ κ) : Nat := (g.numSymbols + 1) * (g.numSymbols + 1)

def close (g : Grammar ρ κ) (cell : Cell κ) : Closed κ := cell.closeWithin g (passLimit g)

end Cell

end Constituency
