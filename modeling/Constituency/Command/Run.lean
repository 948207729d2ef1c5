/-
What the commands do, over any host that can read and write files and print. A command stops at the first
error; what it printed and wrote before stays.
-/
import Constituency.Command.Basic
import Constituency.Decimal.Shortest
import Constituency.Grammar.Listing
import Constituency.Score.Report
import Constituency.Text.Separated
import Constituency.Treebank.Reader

namespace Constituency

/-- The means that a program has to act on its surroundings. -/
structure Host (m : Type → Type) where
  input : m ByteArray
  read : (name : String) → m (Except FileFault ByteArray)
  /-- Makes a file empty, creating it if need be. -/
  create : (name : String) → m (Except FileFault Unit)
  write : (name text : String) → m Unit
  print : (text : String) → m Unit

namespace Command

/-! ## Texts -/

/-- The text in some bytes, which must be UTF-8. -/
def decode (source : Option String) (bytes : ByteArray) : Except Error String :=
  match String.fromUTF8? bytes with
  | some text => .ok text
  | none => .error (.file source .notText)

/-- The trees of a treebank text after cleanup. Trees without words are left out. -/
def readTreebank (text : String) : Except Error Forest :=
  match Treebank.readTrees text with
  | .ok ts => .ok (ts.filterMap Tree.normalize?)
  | .error cause => .error (.malformed cause)

/-- The lines of some bytes, between line feeds. -/
def linesOf (bytes : ByteArray) : List ByteArray :=
  (Text.separated 10 bytes.toList).map fun line => ⟨line.toArray⟩

def noParse (sentence : List String) : String := "(NOPARSE " ++ " ".intercalate sentence ++ ")"

/-- A guess as it is rendered in an evaluation. -/
def guessText (sentence : List String) : Option Tree → String
  | some t => t.penn
  | none => noParse sentence ++ "\n"

/-! ## Commands -/

abbrev Trained := Parser Float Float

variable {m : Type → Type} [Monad m]

def treebankFile (host : Host m) (name : String) : ExceptT Error m Forest := do
  match ← host.read name with
  | .error fault => throw (.file (some name) fault)
  | .ok bytes => MonadExcept.ofExcept (decode (some name) bytes >>= readTreebank)

def createFile (host : Host m) (name : String) : ExceptT Error m Unit := do
  match ← host.create name with
  | .ok _ => return
  | .error fault => throw (.file none fault)

/-- Writes the grammar and the lexicon of a model to three files. -/
def writeModel (host : Host m) (stem : String) (model : Model Float Float) : ExceptT Error m Unit := do
  let rules := stem ++ ".rules"
  let lexicon := stem ++ ".lexicon"
  let words := stem ++ ".words"
  createFile host rules
  host.write rules (model.grammar.listing Decimal.shortest)
  createFile host lexicon
  createFile host words
  host.write words model.lexicon.wordListing
  host.write lexicon (model.lexicon.listing (Decimal.shortest : Float → String))

def runInduce (host : Host m) (stem : Option String) : ExceptT Error m Unit := do
  let ts ← MonadExcept.ofExcept (decode none (← host.input) >>= readTreebank)
  let model : Model Float Float ← MonadExcept.ofExcept (Model.train ts)
  match stem with
  | none => host.print (model.grammar.listing Decimal.shortest)
  | some stem => writeModel host stem model

def trained (kind : ParserKind) (ts : Forest) : ExceptT Error m Trained :=
  MonadExcept.ofExcept ((Parser.untrained kind : Trained).train ts)

/-- Parses one line of standard input, unless there are no words in it. -/
def parseLine (host : Host m) (parser : Trained) (line : ByteArray) : ExceptT Error m Unit := do
  let text ← MonadExcept.ofExcept (decode none line)
  let sentence := Text.wordsOf text
  unless sentence.isEmpty do
    match ← MonadExcept.ofExcept (parser.bestParse sentence) with
    | some t => host.print (t.bracketed ++ "\n")
    | none => host.print (noParse sentence ++ "\n")

def runParse (host : Host m) (train : String) (kind : ParserKind) : ExceptT Error m Unit := do
  let parser ← trained kind (← treebankFile host train)
  for line in linesOf (← host.input) do
    parseLine host parser line

/-- Scores one gold tree, and shows it beside the guess if asked to. -/
def evaluateTree (host : Host m) (parser : Trained) (render : Bool) (total : Totals) (gold : Tree) :
    ExceptT Error m Totals := do
  let sentence := gold.words
  let guess ← MonadExcept.ofExcept (parser.bestParse sentence)
  let one := Totals.ofPair .standard guess gold
  if render then
    host.print ("Guess:\n" ++ guessText sentence guess ++ "\n")
    host.print ("Gold:\n" ++ gold.penn ++ "\n")
    host.print (one.scores.report ++ "\n\n")
  return total + one

def runEvaluate (host : Host m) (train test : String) (kind : ParserKind) (maxLength : Nat) (render : Bool) :
    ExceptT Error m Unit := do
  let trainTrees ← treebankFile host train
  let testTrees ← treebankFile host test
  let parser ← trained kind trainTrees
  let chosen := testTrees.filter fun t => t.words.length ≤ maxLength
  let total ← chosen.foldlM (evaluateTree host parser render) Totals.zero
  host.print ("[Average] " ++ total.scores.report ++ "\n")

def execute (host : Host m) : Command → ExceptT Error m Unit
  | induce stem => runInduce host stem
  | parse train kind => runParse host train kind
  | evaluate train test kind maxLength render => runEvaluate host train test kind maxLength render

end Command

/-! ## The whole program -/

/-- How a run ended: with its exit code and, after a fault, the line that reports it. -/
structure Ending where
  code : Nat
  report : Option String
deriving Repr, DecidableEq

def versionLine : String := "pcfg_tool 0.1.0"

/-- Runs a command line. -/
def Invocation.execute {m : Type → Type} [Monad m] (host : Host m) : Invocation → m Ending
  | version => do
    host.print (versionLine ++ "\n")
    return ⟨0, none⟩
  | refused => return ⟨2, none⟩
  | run command => do
    match ← (command.execute host).run with
    | .ok _ => return ⟨0, none⟩
    | .error e => return ⟨1, some e.report⟩

end Constituency
