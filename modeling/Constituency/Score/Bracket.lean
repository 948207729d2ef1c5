/-
The labelled brackets of a tree. Positions are counted in units, which are the preterminals and the leaves
without a preterminal of their own; a unit labelled as punctuation has no width. Every other node is a
bracket from where its first unit starts to where its last one ends, unless its label is ignored.
-/
import Constituency.Tree.Basic

namespace Constituency

structure Bracket where
  label : String
  start : Nat
  stop : Nat
deriving Repr, DecidableEq

/-- What scoring leaves out. -/
structure Scoring where
  ignored : List String
  punctuation : List String

/-- The usual scoring: neither the node over the whole sentence nor quotes, periods, colons and commas. -/
def Scoring.standard : Scoring := ⟨[rootLabel], ["''", "``", ".", ":", ","]⟩

/-- The brackets under a node, and the position behind it. -/
structure Bracketed where
  stop : Nat
  brackets : List Bracket

namespace Scoring

/-- The width of a unit. -/
def unitWidth (s : Scoring) (label : String) : Nat := if label ∈ s.punctuation then 0 else 1

end Scoring

mutual

/-- The brackets of a tree that begins at the given position, one for each node that is one. -/
def Tree.brackets (s : Scoring) (start : Nat) : Tree → Bracketed
  | .node l ts =>
    if (Tree.node l ts).isLexical then ⟨start + s.unitWidth l, []⟩
    else
      let below := Forest.brackets s start ts
      ⟨below.stop, if l ∈ s.ignored then below.brackets else ⟨l, start, below.stop⟩ :: below.brackets⟩

def Forest.brackets (s : Scoring) (start : Nat) : Forest → Bracketed
  | [] => ⟨start, []⟩
  | t :: ts =>
    let first := t.brackets s start
    let rest := Forest.brackets s first.stop ts
    ⟨rest.stop, first.brackets ++ rest.brackets⟩

end

/-- The brackets of a tree as a set: each of them once. -/
def Scoring.constituents (s : Scoring) (t : Tree) : List Bracket :=
  (t.brackets s 0).brackets.foldr List.insert []

end Constituency
