/-
Choosing the element of greatest weight, the first of several.
-/

namespace Constituency

variable {α β : Type} [LT β] [DecidableLT β]

/-- Keeps the choice so far unless the next element outweighs it. -/
def heavier (weight : α → β) (best : Option α) (a : α) : Option α :=
  match best with
  | none => some a
  | some b => if weight b < weight a then some a else some b

/-- The first element that no element before it reaches and none behind it outweighs. -/
def heaviest (weight : α → β) (xs : List α) : Option α := xs.foldl (heavier weight) none

end Constituency
