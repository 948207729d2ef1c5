/-
Parsers of either kind, trained or not. Training replaces what a parser learned before; parsing with a
parser that was never trained is an error.
-/
import Constituency.Parser.Baseline
import Constituency.Parser.Model

namespace Constituency

inductive ParserKind where
  | pcfg
  | baseline
deriving Repr, DecidableEq

/-- A parser with what it learned in its last training. -/
inductive Parser (ρ κ : Type) where
  | pcfg (model : Option (Model ρ κ))
  | baseline (model : Option Baseline)

namespace Parser

variable {ρ κ : Type}

def untrained : ParserKind → Parser ρ κ
  | .pcfg => pcfg none
  | .baseline => baseline none

variable [NatCast ρ] [Add ρ] [Mul ρ] [Div ρ] [LT ρ] [DecidableLT ρ] [Surprisal ρ κ]

def train (p : Parser ρ κ) (ts : Forest) : Except Error (Parser ρ κ) :=
  match p with
  | pcfg _ => do return pcfg (some (← Model.train ts))
  | baseline _ => return baseline (some (Baseline.train ts))

variable [Add κ] [LT κ] [DecidableLT κ] [BEq κ]

def bestParse (p : Parser ρ κ) (sentence : List String) : Except Error (Option Tree) :=
  match p with
  | pcfg (some m) => return m.parse? sentence
  | baseline (some b) => return b.parse? ρ sentence
  | pcfg none | baseline none => throw .notTrained

end Parser

end Constituency
