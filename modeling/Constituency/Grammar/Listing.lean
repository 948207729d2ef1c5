/-
Grammars and lexicons as text files. The rules of a grammar are listed one to a line, in the order of the
lines as strings; a lexicon is listed by word, then by tag, with the score of each tagging that was
observed, and its words once more alone. The writer of numerals is a parameter.
-/
import Constituency.Grammar.Basic
import Constituency.Lexicon.Basic

namespace Constituency

def unlines (lines : List String) : String := String.join (lines.map (· ++ "\n"))

/-- The lines of a grammar: one for each rule, in the order of strings. -/
def Grammar.lines {ρ κ : Type} (numeral : ρ → String) (g : Grammar ρ κ) : List String :=
  sortedOn id (g.rules.map (Rule.write numeral))

def Grammar.listing {ρ κ : Type} (numeral : ρ → String) (g : Grammar ρ κ) : String :=
  unlines (g.lines numeral)

namespace Lexicon

/-- The lines of a lexicon: tag, word and score of each observed tagging. -/
def lines {ρ : Type} [NatCast ρ] [Add ρ] [Mul ρ] [Div ρ] (numeral : ρ → String) (lex : Lexicon) : List String :=
  lex.taggings.map fun t => t.tag ++ " " ++ t.word ++ " " ++ numeral (lex.score t.word t.tag)

def listing {ρ : Type} [NatCast ρ] [Add ρ] [Mul ρ] [Div ρ] (numeral : ρ → String) (lex : Lexicon) : String :=
  unlines (lex.lines numeral)

def wordListing (lex : Lexicon) : String := unlines lex.words

end Lexicon

end Constituency
