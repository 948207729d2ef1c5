/-
Reading bracketed trees from text by recursive descent. A reader looks at the start of a text and gives what it reads
there with the text behind it, which is shorter; only a reader that may read nothing can leave the text as it is. A
bracket that is not complete is given up as a whole, so that the place of an error depends on the outermost bracket
only: it is the end of the last complete item inside that bracket. Labels are checked when all has been read.
-/
import Constituency.Error
import Constituency.Text.Blank
import Constituency.Treebank.Bracketing

namespace Constituency.Treebank

open Text

/-- The characters that words and labels are made of. -/
def isWordChar (c : Char) : Bool := !isWhiteSpace c && c != '(' && c != ')'

/-! ## Results -/

/-- What has been read and the text behind it, which is shorter than the bound. -/
structure Parsed (α : Type) (bound : Nat) where
  value : α
  rest : List Char
  lt : rest.length < bound

namespace Parsed

variable {α β : Type} {bound bound' : Nat}

def map (f : α → β) (p : Parsed α bound) : Parsed β bound := ⟨f p.value, p.rest, p.lt⟩

def weaken (p : Parsed α bound) (h : bound ≤ bound') : Parsed α bound' := ⟨p.value, p.rest, Nat.lt_of_lt_of_le p.lt h⟩

end Parsed

theorem length_skipBlanks_le (text : List Char) : (skipBlanks text).length ≤ text.length :=
  (List.dropWhile_suffix isBlank).length_le

/-! ## Characters and words -/

/-- The given character, or the text that should start with it. -/
def readChar (c : Char) : (text : List Char) → Except (List Char) (Parsed Unit text.length)
  | [] => .error []
  | d :: rest => if d = c then .ok ⟨(), rest, Nat.lt_succ_self _⟩ else .error (d :: rest)

/-- All word characters at the start of the text, of which there must be one. -/
def readWord : (text : List Char) → Option (Parsed String text.length)
  | [] => none
  | c :: text =>
    if isWordChar c then
      some ⟨String.ofList (c :: text.takeWhile isWordChar), text.dropWhile isWordChar,
        Nat.lt_succ_of_le (List.dropWhile_suffix isWordChar).length_le⟩
    else none

/-- A word, if there is one. -/
def readLabel (text : List Char) : Parsed (Option String) (text.length + 1) :=
  match readWord text with
  | some word => (word.map some).weaken (Nat.le_succ _)
  | none => ⟨none, text, Nat.lt_succ_self _⟩

def readLeaf (text : List Char) : Option (Parsed Bracketing text.length) :=
  (readWord text).map (·.map .word)

/-- Items behind optional blanks, as many as there are. -/
def readMany {α : Type} (text : List Char)
    (item : (start : List Char) → start.length ≤ text.length → Option (Parsed α start.length)) :
    Parsed (List α) (text.length + 1) :=
  match item (skipBlanks text) (length_skipBlanks_le text) with
  | none => ⟨[], text, Nat.lt_succ_self _⟩
  | some first =>
    have shorter : first.rest.length < text.length := Nat.lt_of_lt_of_le first.lt (length_skipBlanks_le text)
    let more := readMany first.rest fun start h => item start (Nat.le_trans h (Nat.le_of_lt shorter))
    ⟨first.value :: more.value, more.rest, Nat.lt_trans more.lt (Nat.succ_lt_succ shorter)⟩
termination_by text.length

/-! ## Brackets -/

mutual

/-- A bracket at the start of the text, or the text behind the blanks where a bracket is missing. -/
def readNode (text : List Char) : Except (List Char) (Parsed Bracketing text.length) := do
  let opening ← readChar '(' text
  let label := readLabel (skipBlanks opening.rest)
  let items := readItems label.rest
  let closing ← readChar ')' (skipBlanks items.rest)
  return ⟨.bracket label.value items.value, closing.rest, by
    have := opening.lt
    have := length_skipBlanks_le opening.rest
    have := label.lt
    have := items.lt
    have := length_skipBlanks_le items.rest
    have := closing.lt
    omega⟩
termination_by 3 * text.length
decreasing_by
  all_goals
    have := opening.lt
    have := length_skipBlanks_le opening.rest
    have := (readLabel (skipBlanks opening.rest)).lt
    omega

/-- A bracket or a word at the start of the text. -/
def readItem (text : List Char) : Option (Parsed Bracketing text.length) :=
  match readNode text with
  | .ok node => some node
  | .error _ => readLeaf text
termination_by 3 * text.length + 1

def readItems (text : List Char) : Parsed (List Bracketing) (text.length + 1) :=
  readMany text fun start _ => readItem start
termination_by 3 * text.length + 2

end

def readNodes (text : List Char) : Parsed (List Bracketing) (text.length + 1) :=
  readMany text fun start _ => (readNode start).toOption

/-! ## Whole texts -/

/-- The tree of an outermost bracketing, when its labels are in order. -/
def checkLabels (b : Bracketing) : Except SyntaxError Tree :=
  match b.tree? with
  | some t => .ok t
  | none => .error .emptyLabel

def unread (expected : Expectation) (rest : List Char) : SyntaxError :=
  .unread expected (String.ofList rest)

def readTree (text : String) : Except SyntaxError Tree :=
  match readNode (skipBlanks text.toList) with
  | .error rest => .error (unread .bracket rest)
  | .ok node =>
    let rest := skipBlanks node.rest
    if rest.isEmpty then checkLabels node.value else .error (unread .endOfText rest)

def readTrees (text : String) : Except SyntaxError Forest :=
  let nodes := readNodes text.toList
  let rest := skipBlanks nodes.rest
  if rest.isEmpty then nodes.value.mapM checkLabels else .error (unread .endOfText rest)

end Constituency.Treebank
