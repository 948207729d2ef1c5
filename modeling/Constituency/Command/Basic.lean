/-
The command line: the subcommands `induce`, `parse` and `evaluate` with their options, and the request for
the version. A command line that is none of these is refused.
-/
import Constituency.Command.Arguments
import Constituency.Parser.Basic

namespace Constituency

inductive Command where
  /-- Writes the grammar of the trees on standard input, to files if a stem for their names is given. -/
  | induce (stem : Option String)
  /-- Parses the sentences on standard input. -/
  | parse (train : String) (kind : ParserKind)
  /-- Scores a parser on the trees of a file whose sentences are not too long. -/
  | evaluate (train test : String) (kind : ParserKind) (maxLength : Nat) (render : Bool)
deriving Repr, DecidableEq

inductive Invocation where
  | version
  | run (command : Command)
  | refused
deriving Repr, DecidableEq

namespace Command

/-- Sentences longer than this are left out of an evaluation unless another limit is given. -/
def defaultMaxLength : Nat := 20

/-- The text of a file name must not be empty. -/
def fileName? (text : String) : Option String := if text.isEmpty then none else some text

def kind? : String → Option ParserKind
  | "pcfg" => some .pcfg
  | "baseline" => some .baseline
  | _ => none

/-- A number of at most 64 bits in decimal digits, with or without a plus sign in front. -/
def limit? (text : String) : Option Nat :=
  let digits := match text.toList with
    | '+' :: digits => digits
    | digits => digits
  if digits.isEmpty || !digits.all Char.isDigit then none
  else
    let n := digits.foldl (fun n c => 10 * n + (c.toNat - '0'.toNat)) 0
    if n < Nat.pow 2 64 then some n else none

/-- The value of an option read by `read?`, or the default where the option is not given. -/
def valueOr {α : Type} (read? : String → Option α) (standard : α) (a : Arguments) (name : String) : Option α :=
  match a.value? name with
  | none => some standard
  | some text => read? text

def arguments? (valued flags args : List String) : Option Arguments :=
  (Arguments.sort? ⟨valued, flags⟩ args).filter Arguments.isUnambiguous

def induce? (args : List String) : Option Command := do
  let a ← arguments? [] [] args
  match a.positionals with
  | [] => return induce none
  | [stem] => return induce (some stem)
  | _ => none

def parse? (args : List String) : Option Command := do
  let a ← arguments? ["--train", "--parser"] [] args
  guard a.positionals.isEmpty
  let train ← (a.value? "--train").bind fileName?
  let kind ← valueOr kind? .pcfg a "--parser"
  return parse train kind

def evaluate? (args : List String) : Option Command := do
  let a ← arguments? ["--train", "--test", "--parser", "--max-length"] ["--render"] args
  guard a.positionals.isEmpty
  let train ← (a.value? "--train").bind fileName?
  let test ← (a.value? "--test").bind fileName?
  let kind ← valueOr kind? .pcfg a "--parser"
  let maxLength ← valueOr limit? defaultMaxLength a "--max-length"
  return evaluate train test kind maxLength (a.flags.contains "--render")

def ofArgs? : List String → Option Command
  | "induce" :: args => induce? args
  | "parse" :: args => parse? args
  | "evaluate" :: args => evaluate? args
  | _ => none

end Command

namespace Invocation

/-- The version is shown for `--version`, and for an argument that starts with `-V`. -/
def asksVersion (arg : String) : Bool := arg == "--version" || ['-', 'V'].isPrefixOf arg.toList

def ofArgs (args : List String) : Invocation :=
  if args.head?.any asksVersion then version
  else match Command.ofArgs? args with
    | some command => run command
    | none => refused

end Invocation

end Constituency
