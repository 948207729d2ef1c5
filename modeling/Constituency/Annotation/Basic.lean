/-
The form of trees that grammars are estimated from: annotated with parents first and binarized after that.
Undoing it splices inserted nodes out, cuts function tags and cuts the parent annotation.
-/
import Constituency.Annotation.Binary
import Constituency.Annotation.Parent
import Constituency.Treebank.Cleanup

namespace Constituency.Tree

/-- The tree as a grammar is estimated from it. -/
def annotate (t : Tree) : Tree := t.annotateParents.binarize

def unannotate (t : Tree) : Tree := t.splice.stripFunctionTags.removeParents

end Constituency.Tree
