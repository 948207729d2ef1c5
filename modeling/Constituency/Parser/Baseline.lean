/-
The baseline parser. It gives each word its best tag by itself and then takes the training tree that occurred
most often with this sequence of tags. If there is none, it builds a tree that branches to the right and
labels each node with the category that most training nodes of the same width had.
-/
import Constituency.Lexicon.Basic

namespace Constituency

/-! ## Phrases -/

/-- A node above the tagged words: its label and its width, the number of tagged words and of untagged leaves
under it. -/
structure Phrase where
  label : String
  width : Nat
deriving Repr, DecidableEq

/-- The width of a tree, and the phrases in it other than those over a whole sentence. -/
structure Widths where
  width : Nat
  phrases : List Phrase

mutual

def Tree.widths : Tree → Widths
  | .node l ts =>
    if (Tree.node l ts).isLexical then ⟨1, []⟩
    else
      let below := Forest.widths ts
      ⟨below.width, if l = rootLabel then below.phrases else ⟨l, below.width⟩ :: below.phrases⟩

/-- The sum of the widths of some trees, and the phrases in all of them. -/
def Forest.widths : Forest → Widths
  | [] => ⟨0, []⟩
  | t :: ts =>
    let first := t.widths
    let rest := Forest.widths ts
    ⟨first.width + rest.width, first.phrases ++ rest.phrases⟩

end

/-! ## Training -/

structure Baseline where
  lexicon : Lexicon
  /-- The fully tagged training trees by their tags. -/
  knownTrees : Std.TreeMap (List String) (Census Tree)
  labelsByWidth : Std.TreeMap Nat (Tally String)
  labels : Tally String

namespace Baseline

/-- Counts a training tree under its tags, if each of its words has one. -/
def addKnown (known : Std.TreeMap (List String) (Census Tree)) (t : Tree) :
    Std.TreeMap (List String) (Census Tree) :=
  if t.isFullyTagged then known.insert t.tags ((known.getD t.tags .empty).add t) else known

/-- Counts a phrase under its width. -/
def addPhrase (byWidth : Std.TreeMap Nat (Tally String)) (p : Phrase) : Std.TreeMap Nat (Tally String) :=
  byWidth.insert p.width ((byWidth.getD p.width .empty).add p.label)

def train (ts : Forest) : Baseline :=
  let phrases := ts.flatMap fun t => t.widths.phrases
  { lexicon := .ofTrees ts
    knownTrees := ts.foldl addKnown ∅
    labelsByWidth := phrases.foldl addPhrase ∅
    labels := Tally.empty.addAll (phrases.map Phrase.label) }

/-! ## Parsing -/

/-- The training tree that occurred most often with the given tags; of several, the first. -/
def known? (b : Baseline) (tags : List String) : Option Tree :=
  (b.knownTrees.getD tags .empty).mode?

def defaultLabel : String := "S"

/-- The label of a node of the given width: the most frequent one of that width, or else of all widths; of
several, the smallest. -/
def labelOfWidth (b : Baseline) (width : Nat) : String :=
  match (b.labelsByWidth.getD width .empty).mode? with
  | some l => l
  | none => b.labels.mode?.getD defaultLabel

/-- Tagged words as a tree that branches to the right, each node labelled by its width. -/
def comb (b : Baseline) (first : Tagging) : List Tagging → Tree
  | [] => .preterminal first.tag first.word
  | second :: rest =>
    .node (b.labelOfWidth (rest.length + 2)) [.preterminal first.tag first.word, b.comb second rest]

def rightBranching? (b : Baseline) : List Tagging → Option Tree
  | [] => none
  | first :: rest => some (.node rootLabel [b.comb first rest])

/-- The tag with the highest score for a word; of several, the smallest. The scores are taken in `ρ`. -/
def bestTag? (ρ : Type) [NatCast ρ] [Add ρ] [Mul ρ] [Div ρ] [LT ρ] [DecidableLT ρ] (b : Baseline)
    (word : String) : Option String :=
  heaviest (fun tag => (b.lexicon.score word tag : ρ)) b.lexicon.tags

/-- The tree for a sentence. There is none for an empty sentence or without any tag. -/
def parse? (ρ : Type) [NatCast ρ] [Add ρ] [Mul ρ] [Div ρ] [LT ρ] [DecidableLT ρ] (b : Baseline)
    (sentence : List String) : Option Tree := do
  guard (!sentence.isEmpty)
  let tags ← sentence.mapM (b.bestTag? ρ)
  match b.known? tags with
  | some t => return t.withWords sentence
  | none => b.rightBranching? (sentence.zipWith Tagging.mk tags)

end Baseline

end Constituency
