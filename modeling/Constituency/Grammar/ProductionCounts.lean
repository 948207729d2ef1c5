/-
Counting productions in binarized trees. Every node that is neither a leaf nor a preterminal counts once for
its production and once for its parent symbol. A tree with more than two children at some node is no
training tree: counting visits the nodes in preorder and stops in front of the first such node, and what was
counted up to there stays counted. The relative frequency of a production is its count divided by the count
of its parent.
-/
import Constituency.Counting.Tally
import Constituency.Grammar.Production

namespace Constituency

structure ProductionCounts where
  productions : Tally Production
  /-- How often each symbol was the parent of a counted production. -/
  parents : Tally String

namespace ProductionCounts

def empty : ProductionCounts := ⟨.empty, .empty⟩

def add (c : ProductionCounts) (p : Production) : ProductionCounts :=
  ⟨c.productions.add p, c.parents.add p.parent⟩

end ProductionCounts

/-- The counts reached, and the node that stopped the counting if there was one. -/
structure CountingRun where
  counts : ProductionCounts
  stoppedAt : Option Tree

mutual

def Tree.countProductions (c : ProductionCounts) : Tree → CountingRun
  | .node l ts =>
    if (Tree.node l ts).isLexical then ⟨c, none⟩
    else match Production.ofNode? (.node l ts) with
      | some p => Forest.countProductions (c.add p) ts
      | none => ⟨c, some (.node l ts)⟩

/-- Counts the productions of a forest, as far as the first node with more than two children. -/
def Forest.countProductions (c : ProductionCounts) : Forest → CountingRun
  | [] => ⟨c, none⟩
  | t :: ts =>
    match t.countProductions c with
    | ⟨c, none⟩ => Forest.countProductions c ts
    | ⟨c, some node⟩ => ⟨c, some node⟩

end

namespace ProductionCounts

/-- The counts of the productions of some trees, when all of them are binarized. -/
def ofTrees? (ts : Forest) : Except Tree ProductionCounts :=
  match Forest.countProductions .empty ts with
  | ⟨c, none⟩ => .ok c
  | ⟨_, some node⟩ => .error node

variable {ρ : Type} [NatCast ρ] [Div ρ]

/-- The count of a production divided by that of its parent; zero when the parent was not counted. -/
def relativeFrequency (c : ProductionCounts) (p : Production) : ρ :=
  if 0 < c.parents.count p.parent then (c.productions.count p : ρ) / (c.parents.count p.parent : ρ)
  else ((0 : Nat) : ρ)

/-- The counted productions in their order, each with its relative frequency. -/
def rules (c : ProductionCounts) : List (Rule ρ) :=
  c.productions.keys.map fun p => ⟨p, c.relativeFrequency p⟩

end ProductionCounts

end Constituency
