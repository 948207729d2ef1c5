/-
Bracketings as they are written, before labels are checked: a bracket may lack its label. As a tree, an
outermost bracket without a label is the node over the whole sentence, provided that it holds something,
and every other bracket needs a label of its own; a bracket around nothing but its label is a leaf.
-/
import Constituency.Tree.Basic

namespace Constituency.Treebank

inductive Bracketing where
  | word (text : String)
  | bracket (label : Option String) (items : List Bracketing)
deriving Repr, Inhabited

mutual

/-- The tree of a bracketing inside another one. -/
def Bracketing.innerTree? : Bracketing → Option Tree
  | .word text => some (.leaf text)
  | .bracket none _ => none
  | .bracket (some label) items => (Bracketing.innerForest? items).map (.node label)

def Bracketing.innerForest? : List Bracketing → Option Forest
  | [] => some []
  | item :: items => do
    let t ← item.innerTree?
    let ts ← Bracketing.innerForest? items
    return t :: ts

end

def Bracketing.tree? : Bracketing → Option Tree
  | .bracket none (item :: items) => (innerForest? (item :: items)).map (.node rootLabel)
  | b => b.innerTree?

end Constituency.Treebank
