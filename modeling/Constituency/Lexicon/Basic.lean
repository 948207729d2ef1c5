/-
The lexicon of a treebank: how often each word occurs, each tag, and each word with each tag. A tag also
counts the word types that it introduced, those words whose first occurrence carries it; rare and unknown
words borrow from that share. The score of a word under a tag turns the tag's probability given the word
around, `P(tag | word) / P(tag) * P(word)`. Counts are whole numbers, as counters in floating point are below
2^53; only the score divides.
-/
import Std.Data.TreeSet
import Constituency.Counting.Tally
import Constituency.Lexicon.TagScorer

namespace Constituency

namespace Tagging

/-- Taggings are ordered by word, then by tag. -/
def sortKey (t : Tagging) : List String := [t.word, t.tag]

theorem eq_of_sortKey_eq {s t : Tagging} (h : s.sortKey = t.sortKey) : s = t := by
  cases s; cases t; simp_all [sortKey]

instance : Ord Tagging := ⟨compareOn sortKey⟩

instance : Std.TransOrd Tagging := inferInstanceAs (Std.TransCmp (compareOn sortKey))

instance : Std.LawfulEqOrd Tagging where
  eq_of_compare h := eq_of_sortKey_eq (Std.LawfulEqOrd.eq_of_compare (α := List String) h)

end Tagging

structure Lexicon where
  taggingCounts : Tally Tagging
  tagCounts : Tally String
  wordCounts : Tally String
  /-- For each tag, the number of words that occurred with it first. -/
  introducedTypes : Tally String
  tokens : Nat
  types : Nat
  /-- The tags that occurred. -/
  tagSet : Std.TreeSet String

namespace Lexicon

def empty : Lexicon := ⟨.empty, .empty, .empty, .empty, 0, 0, ∅⟩

def wordCount (lex : Lexicon) (word : String) : Nat := lex.wordCounts.count word

def tagCount (lex : Lexicon) (tag : String) : Nat := lex.tagCounts.count tag

def taggingCount (lex : Lexicon) (word tag : String) : Nat := lex.taggingCounts.count ⟨word, tag⟩

/-- A word is known when it occurred with a tag. -/
def isKnown (lex : Lexicon) (word : String) : Bool := 0 < lex.wordCount word

/-- Counts one occurrence of a tagged word. A word that is not known yet is a new type, credited to its
tag. -/
def observe (lex : Lexicon) (t : Tagging) : Lexicon :=
  let isNew := !lex.isKnown t.word
  { taggingCounts := lex.taggingCounts.add t
    tagCounts := lex.tagCounts.add t.tag
    wordCounts := lex.wordCounts.add t.word
    introducedTypes := if isNew then lex.introducedTypes.add t.tag else lex.introducedTypes
    tokens := lex.tokens + 1
    types := if isNew then lex.types + 1 else lex.types
    tagSet := lex.tagSet.insert t.tag }

/-- The lexicon of the tagged words of some trees; words without a tag are left out. -/
def ofTrees (ts : Forest) : Lexicon := (ts.flatMap Tree.taggings).foldl observe empty

def words (lex : Lexicon) : List String := lex.wordCounts.keys

/-- The tags that occurred, in order. -/
def tags (lex : Lexicon) : List String := lex.tagSet.toList

/-- The observed taggings, ordered by word, then by tag. -/
def taggings (lex : Lexicon) : List Tagging := lex.taggingCounts.keys

/-! ## Scores -/

/-- Words seen fewer times than this are rare. -/
def rareBelow : Nat := 10

variable {ρ : Type} [NatCast ρ] [Add ρ] [Mul ρ] [Div ρ]

/-- The tag's share of the word types. -/
def typeShare (lex : Lexicon) (tag : String) : ρ := (lex.introducedTypes.count tag : ρ) / (lex.types : ρ)

/-- The score of a word under a tag: zero for a tag that never occurred, and otherwise the probability of
the tag given the word, divided by that of the tag, times that of the word. A rare word counts once more,
with a tag drawn from the tags' shares of the types; the probability of a word counts every word, known or
not, once more. -/
def score (lex : Lexicon) (word tag : String) : ρ :=
  if lex.tagCount tag = 0 then ((0 : Nat) : ρ)
  else
    let isRare := lex.wordCount word < rareBelow
    let wordCount := if isRare then lex.wordCount word + 1 else lex.wordCount word
    let both : ρ := (lex.taggingCount word tag : ρ)
    let taggingCount := if isRare then both + lex.typeShare tag else both
    let tagProbability : ρ := (lex.tagCount tag : ρ) / (lex.tokens : ρ)
    let wordProbability : ρ := ((1 + wordCount : Nat) : ρ) / ((lex.tokens + lex.types : Nat) : ρ)
    taggingCount / (wordCount : ρ) / tagProbability * wordProbability

def scorer (lex : Lexicon) : TagScorer ρ := ⟨lex.tags, lex.score⟩

end Lexicon

end Constituency
