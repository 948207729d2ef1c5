/-
Weighted grammars whose rules have one or two children. The rules are kept in the order of their
productions, rules with the same production in the order they were given in; they can be looked up by their
children. For the chart the symbols are numbered and the rules of positive probability become edges between
numbers, each with the cost of its probability, grouped under the only or the left child.
-/
import Constituency.Counting.Index
import Constituency.Error
import Constituency.Grammar.Cost
import Constituency.Grammar.ProductionCounts
import Constituency.Grammar.SymbolTable

namespace Constituency

structure UnaryEdge (κ : Type) where
  parent : Nat
  child : Nat
  cost : κ
deriving Repr

structure BinaryEdge (κ : Type) where
  parent : Nat
  left : Nat
  right : Nat
  cost : κ
deriving Repr

structure Grammar (ρ κ : Type) where
  /-- The rules in the order of their productions. -/
  rules : List (Rule ρ)
  symbols : SymbolTable
  nonTerminals : Std.TreeSet String
  byLeft : Index String (Rule ρ)
  byRight : Index String (Rule ρ)
  byChild : Index String (Rule ρ)
  unaryEdges : Index Nat (UnaryEdge κ)
  binaryEdges : Index Nat (BinaryEdge κ)

namespace Rule

variable {ρ κ : Type}

def isUnary (r : Rule ρ) : Bool := r.production matches .unary ..

def isBinary (r : Rule ρ) : Bool := r.production matches .binary ..

def underLeft? (r : Rule ρ) : Option (String × Rule ρ) :=
  match r.production with
  | .unary _ _ => none
  | .binary _ left _ => some (left, r)

def underRight? (r : Rule ρ) : Option (String × Rule ρ) :=
  match r.production with
  | .unary _ _ => none
  | .binary _ _ right => some (right, r)

def underChild? (r : Rule ρ) : Option (String × Rule ρ) :=
  match r.production with
  | .unary _ child => some (child, r)
  | .binary _ _ _ => none

variable [NatCast ρ] [LT ρ] [DecidableLT ρ]

/-- Rules of probability zero, and whatever else is not above zero, take no part in derivations. -/
def isPossible (r : Rule ρ) : Bool := decide (((0 : Nat) : ρ) < r.probability)

variable [Surprisal ρ κ]

/-- The edge of a possible unary rule, under its child. -/
def unaryEdge? (symbols : SymbolTable) (r : Rule ρ) : Option (Nat × UnaryEdge κ) :=
  match r.production with
  | .binary _ _ _ => none
  | .unary parent child => do
    guard r.isPossible
    let parent ← symbols.number? parent
    let child ← symbols.number? child
    return (child, ⟨parent, child, surprisal r.probability⟩)

/-- The edge of a possible binary rule, under its left child. -/
def binaryEdge? (symbols : SymbolTable) (r : Rule ρ) : Option (Nat × BinaryEdge κ) :=
  match r.production with
  | .unary _ _ => none
  | .binary parent left right => do
    guard r.isPossible
    let parent ← symbols.number? parent
    let left ← symbols.number? left
    let right ← symbols.number? right
    return (left, ⟨parent, left, right, surprisal r.probability⟩)

end Rule

namespace Grammar

variable {ρ κ : Type}

def unaryRules (g : Grammar ρ κ) : List (Rule ρ) := g.rules.filter Rule.isUnary

def binaryRules (g : Grammar ρ κ) : List (Rule ρ) := g.rules.filter Rule.isBinary

def numSymbols (g : Grammar ρ κ) : Nat := g.symbols.size

variable [NatCast ρ] [LT ρ] [DecidableLT ρ] [Surprisal ρ κ]

/-- The grammar of a list of rules, given in any order and with any probabilities. -/
def ofRules (rules : List (Rule ρ)) : Grammar ρ κ :=
  let rules := sortedOn Rule.production rules
  let symbols := SymbolTable.ofList (rules.flatMap (·.production.symbols))
  { rules
    symbols
    nonTerminals := .ofList (rules.map (·.production.parent))
    byLeft := .ofPairs (rules.filterMap Rule.underLeft?)
    byRight := .ofPairs (rules.filterMap Rule.underRight?)
    byChild := .ofPairs (rules.filterMap Rule.underChild?)
    unaryEdges := .ofPairs (rules.filterMap (Rule.unaryEdge? symbols))
    binaryEdges := .ofPairs (rules.filterMap (Rule.binaryEdge? symbols)) }

/-- The grammar of the productions of binarized trees with their relative frequencies. -/
def ofTrees [Div ρ] (ts : Forest) : Except Error (Grammar ρ κ) :=
  match ProductionCounts.ofTrees? ts with
  | .ok counts => .ok (ofRules counts.rules)
  | .error node => .error (.illegalTree node)

end Grammar

end Constituency
