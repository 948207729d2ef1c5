/-
Two notions of white space. The blanks are the four characters that may stand between the parts of a
bracketed tree; white space is the Unicode property White_Space, which ends a word and divides a line
into words. Every blank is white space (`isWhiteSpace_of_isBlank`), but not the other way round.
-/

namespace Constituency.Text

/-- Space, tab, carriage return and line feed. -/
def isBlank (c : Char) : Bool :=
  c == ' ' || c == '\t' || c == '\r' || c == '\n'

/-- The Unicode property White_Space. -/
def isWhiteSpace (c : Char) : Bool :=
  let n := c.toNat
  (0x9 ≤ n && n ≤ 0xd) || n == 0x20 || n == 0x85 || n == 0xa0 || n == 0x1680 || (0x2000 ≤ n && n ≤ 0x200a)
    || n == 0x2028 || n == 0x2029 || n == 0x202f || n == 0x205f || n == 0x3000

theorem isWhiteSpace_of_isBlank {c : Char} (h : isBlank c = true) : isWhiteSpace c = true := by
  simp only [isBlank, Bool.or_eq_true, beq_iff_eq] at h
  obtain ((rfl | rfl) | rfl) | rfl := h <;> rfl

/-- A text without the blanks at its start. -/
def skipBlanks (text : List Char) : List Char := text.dropWhile isBlank

/-- One step of `wordsOf`: white space ends the word that follows it, any other character extends it. The
head of the list is the word that a further character would extend. -/
def extendWords (c : Char) : List (List Char) → List (List Char)
  | [] => if isWhiteSpace c then [[]] else [[c]]
  | w :: ws => if isWhiteSpace c then [] :: w :: ws else (c :: w) :: ws

/-- The words of a line: its maximal runs of characters that are not white space. -/
def wordsOf (line : String) : List String :=
  ((line.toList.foldr extendWords []).filter (!·.isEmpty)).map String.ofList

end Constituency.Text
