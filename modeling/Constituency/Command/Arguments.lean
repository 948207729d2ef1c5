/-
Command-line arguments of one subcommand. An option with a value is written `--name value` or `--name=value`;
in the first form the value must not look like an option itself. A flag is an option without a value. Options
may stand anywhere and are given at most once; everything behind `--` is positional.
-/

namespace Constituency.Command

structure Known where
  valued : List String
  flags : List String

structure Arguments where
  values : List (String × String)
  flags : List String
  positionals : List String
deriving Repr, DecidableEq

namespace Arguments

def withValue (name value : String) (a : Arguments) : Arguments := { a with values := (name, value) :: a.values }

def withFlag (name : String) (a : Arguments) : Arguments := { a with flags := name :: a.flags }

def withPositional (text : String) (a : Arguments) : Arguments :=
  { a with positionals := text :: a.positionals }

/-- A dash alone is an ordinary argument; anything else that starts with a dash is an option. -/
def looksLikeOption (arg : String) : Bool := arg.toList.head? == some '-' && arg != "-"

/-- The name of an option, and the value behind its equals sign if it has one. -/
def splitOption (arg : String) : String × Option String :=
  let name := arg.toList.takeWhile (· != '=')
  match arg.toList.dropWhile (· != '=') with
  | [] => (String.ofList name, none)
  | _ :: value => (String.ofList name, some (String.ofList value))

/-- Sorts arguments. Fails on an option that is not known, that lacks its value or that has one too many. -/
def sort? (known : Known) : List String → Option Arguments
  | [] => some ⟨[], [], []⟩
  | [arg] =>
    if arg = "--" then some ⟨[], [], []⟩
    else if looksLikeOption arg then single? (splitOption arg) ⟨[], [], []⟩
    else some ⟨[], [], [arg]⟩
  | arg :: next :: rest =>
    if arg = "--" then some ⟨[], [], next :: rest⟩
    else if looksLikeOption arg then
      if arg ∈ known.valued then
        if looksLikeOption next then none else (sort? known rest).map (withValue arg next)
      else (sort? known (next :: rest)).bind (single? (splitOption arg))
    else (sort? known (next :: rest)).map (withPositional arg)
where
  /-- An option that is one argument: a flag, or a name with its value behind an equals sign. -/
  single? (option : String × Option String) (a : Arguments) : Option Arguments :=
    match option with
    | (name, some value) => if name ∈ known.valued then some (a.withValue name value) else none
    | (name, none) => if name ∈ known.flags then some (a.withFlag name) else none

/-- No option is given twice. -/
def isUnambiguous (a : Arguments) : Bool := decide ((a.values.map Prod.fst).Nodup ∧ a.flags.Nodup)

def value? (a : Arguments) (name : String) : Option String := a.values.lookup name

end Arguments

end Constituency.Command
