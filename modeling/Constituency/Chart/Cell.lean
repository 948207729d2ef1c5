/-
The cell of a chart for one span of words: for each symbol that covers the span the least cost found so far
and the step that found it. An offer is taken when its symbol is new to the cell or when it is strictly
cheaper, so that of equally cheap steps the first one stays. A unary step also takes the place of a lexical
one of equal cost, unless the chain of unary steps below it leads back to the symbol itself.
-/
import Std.Data.TreeMap

namespace Constituency

/-- The last step of a derivation over a span. -/
inductive Step where
  | lexical
  | unary (child : Nat)
  /-- A binary rule whose left child ends, and whose right child starts, at the split. -/
  | binary (split left right : Nat)
deriving Repr, DecidableEq, Inhabited

/-- The cheapest derivation known for a symbol over a span. -/
structure Entry (κ : Type) where
  cost : κ
  step : Step
deriving Repr

abbrev Cell (κ : Type) := Std.TreeMap Nat (Entry κ)

namespace Cell

variable {κ : Type}

/-- Whether the chain of unary steps from a symbol comes to the target. A chain that is longer than the
cell has symbols repeats one of them; it counts as leading there. -/
def leadsTo (cell : Cell κ) (target : Nat) : (steps symbol : Nat) → Bool
  | 0, _ => true
  | steps + 1, symbol =>
    symbol == target ||
      match cell[symbol]? with
      | some ⟨_, .unary child⟩ => leadsTo cell target steps child
      | _ => false

def reaches (cell : Cell κ) (symbol target : Nat) : Bool := cell.leadsTo target (cell.size + 1) symbol

variable [LT κ] [DecidableLT κ]

/-- Whether a cost is below that of the entry, which any cost is if there is none. -/
def improves (cost : κ) : Option (Entry κ) → Bool
  | none => true
  | some e => decide (cost < e.cost)

def offer (cell : Cell κ) (symbol : Nat) (e : Entry κ) : Cell κ :=
  if improves e.cost cell[symbol]? then cell.insert symbol e else cell

variable [BEq κ]

/-- Whether a unary step from `child` takes the place of a lexical entry of the parent: the costs are equal
and the chain below the child does not come to the parent. -/
def replacesLexical (cell : Cell κ) (parent child : Nat) (cost : κ) : Option (Entry κ) → Bool
  | some ⟨known, .lexical⟩ => cost == known && !cell.reaches child parent
  | _ => false

def takesUnary (cell : Cell κ) (parent child : Nat) (cost : κ) : Bool :=
  cell.replacesLexical parent child cost cell[parent]? || improves cost cell[parent]?

end Cell

end Constituency
