/-
What can go wrong, by cause: a treebank text that does not read as bracketed trees, a tree with more than
two children where a grammar is estimated, a parser used before training, and a file or stream that cannot
be used. Each cause has one wording (`Error.message`) and one form for the last line of a failed run
(`Error.report`).
-/
import Constituency.Tree.Layout
import Constituency.Text.Quoted

namespace Constituency

inductive Expectation where
  | bracket
  | endOfText
deriving Repr, DecidableEq

def Expectation.code : Expectation → String
  | bracket => "Char"
  | endOfText => "Eof"

/-- Why a text is no tree or no list of trees. -/
inductive SyntaxError where
  /-- A bracket without a label that is not an outermost bracket around something. -/
  | emptyLabel
  | unread (expected : Expectation) (rest : String)
deriving Repr, DecidableEq

def SyntaxError.message : SyntaxError → String
  | emptyLabel => "Node label cannot be empty"
  | unread expected rest =>
    "Parsing Error: Error \x7b input: " ++ Text.quoted rest ++ ", code: " ++ expected.code ++ " \x7d"

inductive FileFault where
  /-- A refusal by the operating system, with its number. -/
  | system (description : String) (code : Nat)
  /-- Bytes that are not UTF-8. -/
  | notText
deriving Repr, DecidableEq

def FileFault.notFound : FileFault := system "No such file or directory" 2

def FileFault.notFolder : FileFault := system "Not a directory" 20

def FileFault.isFolder : FileFault := system "Is a directory" 21

def FileFault.nameTooLong : FileFault := system "File name too long" 36

def FileFault.message : FileFault → String
  | system description code => description ++ " (os error " ++ Nat.repr code ++ ")"
  | notText => "stream did not contain valid UTF-8"

inductive Error where
  | malformed (cause : SyntaxError)
  /-- A node with more than two children. -/
  | illegalTree (node : Tree)
  | notTrained
  /-- A fault of the named file, or of a stream or an output file, which go unnamed. -/
  | file (name : Option String) (cause : FileFault)
deriving DecidableEq

namespace Error

/-- The text inside the report of a fault: the wording without its introduction. -/
def detail : Error → Option String
  | malformed cause => some cause.message
  | illegalTree node => some node.bracketed
  | notTrained => none
  | file none cause => some cause.message
  | file (some name) cause => some (name ++ ": " ++ cause.message)

def kind : Error → String
  | malformed _ => "TreeSyntax"
  | illegalTree _ => "IllegalTree"
  | notTrained => "NotTrained"
  | file _ _ => "Io"

def message : Error → String
  | malformed cause => "Malformed tree: " ++ cause.message
  | illegalTree node => "Attempted to construct a grammar with an illegal tree: " ++ node.bracketed
  | notTrained => "Parser has not been trained"
  | file none cause => "I/O failure: " ++ cause.message
  | file (some name) cause => "I/O failure: " ++ name ++ ": " ++ cause.message

/-- The line that ends a failed run: the kind of the error and, quoted, its detail. -/
def report (e : Error) : String :=
  "Error: " ++ e.kind ++ match e.detail with
    | some text => "(" ++ Text.quoted text ++ ")"
    | none => ""

end Error

end Constituency
