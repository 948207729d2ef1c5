/-
The chart of a sentence: a closed cell for each span of words, filled from the shorter spans to the longer
ones. The cell of one word starts from its tags, the cell of a longer span from the binary rules over every
way to split it in two; both are then closed under unary rules.
-/
import Constituency.Chart.Closure
import Constituency.Lexicon.TagScorer

namespace Constituency

/-- The closed cells of the spans of a sentence, by length and start; there are none of length zero. -/
structure Chart (κ : Type) where
  length : Nat
  levels : Array (Array (Closed κ))

/-! ## Looking up -/

/-- The cell of a span among the levels filled so far; it is empty if the span is none of them. -/
def cellIn {κ : Type} (levels : Array (Array (Closed κ))) (start stop : Nat) : Cell κ :=
  match levels[stop - start]? with
  | none => ∅
  | some level => match level[start]? with
    | none => ∅
    | some closed => closed.cell

namespace Chart

variable {κ : Type}

def cell (c : Chart κ) (start stop : Nat) : Cell κ := cellIn c.levels start stop

def cost? (c : Chart κ) (start stop symbol : Nat) : Option κ := (c.cell start stop)[symbol]?.map Entry.cost

def symbols (c : Chart κ) (start stop : Nat) : List Nat := (c.cell start stop).keys

/-- The largest number of passes that changed a cell. -/
def maxPasses (c : Chart κ) : Nat :=
  c.levels.foldl (fun m level => level.foldl (fun m closed => max m closed.passes) m) 0

end Chart

/-! ## Filling -/

section Fill

variable {ρ κ : Type} [NatCast ρ] [LT ρ] [DecidableLT ρ] [Surprisal ρ κ]
  [Add κ] [LT κ] [DecidableLT κ] [BEq κ]

/-- Enters a word's tag, if the grammar knows it and the word can have it. -/
def Cell.enterTag (g : Grammar ρ κ) (scorer : TagScorer ρ) (word : String) (cell : Cell κ) (tag : String) :
    Cell κ :=
  match g.symbols.number? tag with
  | none => cell
  | some symbol =>
    let score := scorer.score word tag
    if ((0 : Nat) : ρ) < score then cell.insert symbol ⟨surprisal score, .lexical⟩ else cell

def Cell.ofWord (g : Grammar ρ κ) (scorer : TagScorer ρ) (word : String) : Cell κ :=
  scorer.tags.foldl (Cell.enterTag g scorer word) ∅

structure Combination (κ : Type) where
  symbol : Nat
  entry : Entry κ

/-- The derivations by one binary edge from a left and a right cell. -/
def combineEdge (split : Nat) (left : Entry κ) (right : Cell κ) (edge : BinaryEdge κ) :
    Option (Combination κ) :=
  right[edge.right]?.map fun r =>
    ⟨edge.parent, left.cost + r.cost + edge.cost, .binary split edge.left edge.right⟩

/-- The derivations over a split, by left child, then in the order of the edges. -/
def combineAt (g : Grammar ρ κ) (split : Nat) (left right : Cell κ) : List (Combination κ) :=
  left.toList.flatMap fun (symbol, entry) =>
    (g.binaryEdges.get symbol).filterMap (combineEdge split entry right)

/-- The derivations over a span by binary rules, split by split from the left. -/
def combinations (g : Grammar ρ κ) (levels : Array (Array (Closed κ))) (start length : Nat) :
    List (Combination κ) :=
  (List.range' (start + 1) (length - 1)).flatMap fun split =>
    combineAt g split (cellIn levels start split) (cellIn levels split (start + length))

/-- The cheapest of some derivations for each symbol, the first of equally cheap ones. -/
def Cell.ofCombinations (cs : List (Combination κ)) : Cell κ :=
  cs.foldl (fun cell c => cell.offer c.symbol c.entry) ∅

/-- The cell of a span before it is closed, from the levels of shorter spans. -/
def Cell.initial (g : Grammar ρ κ) (scorer : TagScorer ρ) (words : Array String)
    (levels : Array (Array (Closed κ))) (start length : Nat) : Cell κ :=
  if length = 1 then Cell.ofWord g scorer (words.getD start "")
  else Cell.ofCombinations (combinations g levels start length)

def level (g : Grammar ρ κ) (scorer : TagScorer ρ) (words : Array String)
    (levels : Array (Array (Closed κ))) (length : Nat) : Array (Closed κ) :=
  (Array.range (words.size + 1 - length)).map fun start =>
    (Cell.initial g scorer words levels start length).close g

def levelsUpTo (g : Grammar ρ κ) (scorer : TagScorer ρ) (words : Array String) :
    Nat → Array (Array (Closed κ))
  | 0 => #[#[]]
  | n + 1 =>
    let levels := levelsUpTo g scorer words n
    levels.push (level g scorer words levels (n + 1))

def Chart.fill (g : Grammar ρ κ) (scorer : TagScorer ρ) (words : List String) : Chart κ :=
  ⟨words.length, levelsUpTo g scorer words.toArray words.length⟩

end Fill

end Constituency
