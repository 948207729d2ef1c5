/-
What a chart asks of a lexicon: the tags to try on a word, and the probability of a word under a tag, zero
where the word cannot have the tag. The simplest lexicon is a table of entries.
-/
import Constituency.Grammar.SymbolTable
import Constituency.Tree.Basic

namespace Constituency

structure TagScorer (ρ : Type) where
  /-- The tags to try on a word, in a fixed order. -/
  tags : List String
  score : (word tag : String) → ρ

namespace TagScorer

variable {ρ : Type} [NatCast ρ]

/-- The probability that a table gives to a tagging in its first entry for it, zero without an entry. -/
def tableScore (table : List (Tagging × ρ)) (word tag : String) : ρ :=
  match table.find? fun entry => entry.1 = ⟨word, tag⟩ with
  | some entry => entry.2
  | none => ((0 : Nat) : ρ)

/-- The tags of a table in order, with the probabilities of the table. -/
def ofTable (table : List (Tagging × ρ)) : TagScorer ρ :=
  ⟨sortedDistinct (table.map (·.1.tag)), tableScore table⟩

end TagScorer

end Constituency
