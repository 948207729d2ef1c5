/-
Quoted text: a text between double quotes in which a quote or a backslash stands behind a backslash, the
common controls have a letter, and every other character that would not show is spelled out as its code
point in hexadecimal, `\u{a0}`.
-/
import Constituency.Text.Category

namespace Constituency.Text

/-- Whether a character is lost or misread when it stands in a text as it is. -/
def isSpelledOut (c : Char) : Bool :=
  combining.has c || ignorable.has c || unprintable.has c

/-- The code point of a character between braces, in lower-case hexadecimal without leading zeros. -/
def spelledOut (c : Char) : List Char :=
  ['\\', 'u', '\x7b'] ++ Nat.toDigits 16 c.toNat ++ ['\x7d']

/-- The form of one character inside a quoted text. -/
def escape (c : Char) : List Char :=
  match c with
  | '\x00' => ['\\', '0']
  | '\t' => ['\\', 't']
  | '\n' => ['\\', 'n']
  | '\r' => ['\\', 'r']
  | '"' => ['\\', '"']
  | '\\' => ['\\', '\\']
  | c => if isSpelledOut c then spelledOut c else [c]

def quoted (text : String) : String :=
  String.ofList ('"' :: text.toList.flatMap escape ++ ['"'])

end Constituency.Text
