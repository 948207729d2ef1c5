/-
Numbering symbols. The numbers of a set of symbols start at zero and follow the order of the symbols, so
that going through symbols by number is going through them in order.
-/
import Std.Data.TreeMap
import Std.Data.TreeSet

namespace Constituency

/-- The strings of a list in order, each once. -/
def sortedDistinct (xs : List String) : List String := (Std.TreeSet.ofList xs).toList

structure SymbolTable where
  names : Array String
  numbers : Std.TreeMap String Nat

namespace SymbolTable

def ofList (symbols : List String) : SymbolTable :=
  let names := sortedDistinct symbols
  ⟨names.toArray, Std.TreeMap.ofList names.zipIdx⟩

def size (s : SymbolTable) : Nat := s.names.size

def number? (s : SymbolTable) (symbol : String) : Option Nat := s.numbers.get? symbol

def name? (s : SymbolTable) (number : Nat) : Option String := s.names[number]?

end SymbolTable

end Constituency
