/-
Constituency trees: labelled ordered trees whose leaves carry the words of a sentence. A node whose
only child is a leaf is a preterminal, and its label is the tag of that word. The views kept here are
the words, the taggings (each word that hangs under a preterminal, with its tag) and the nodes in
preorder; a forest is a list of trees read from left to right. The lemmas turn each function on a
forest into a library operation on lists.
-/

namespace Constituency

/-- A labelled ordered tree. A node without children is a leaf and its label is a word. -/
inductive Tree where
  | node (label : String) (children : List Tree)
deriving Repr, Inhabited

/-- Trees side by side, such as the children of one node. -/
abbrev Forest := List Tree

def rootLabel : String := "ROOT"

namespace Tree

def label : Tree → String
  | node label _ => label

def children : Tree → Forest
  | node _ children => children

def leaf (word : String) : Tree := node word []

/-- The tree of a single tagged word. -/
def preterminal (tag word : String) : Tree := node tag [leaf word]

def isLeaf : Tree → Bool
  | node _ children => children.isEmpty

/-- A preterminal is a node whose only child is a leaf. -/
def isPreterminal : Tree → Bool
  | node _ [child] => child.isLeaf
  | node _ _ => false

/-- Leaves and preterminals are lexical; every other node is a phrase over lexical nodes. -/
def isLexical (t : Tree) : Bool := t.isLeaf || t.isPreterminal

@[simp] theorem label_node (l : String) (ts : Forest) : (node l ts).label = l := rfl

@[simp] theorem children_node (l : String) (ts : Forest) : (node l ts).children = ts := rfl

@[simp] theorem isLeaf_node (l : String) (ts : Forest) : (node l ts).isLeaf = ts.isEmpty := rfl

@[simp] theorem isPreterminal_leaf (w : String) : (node w []).isPreterminal = false := rfl

@[simp] theorem isPreterminal_singleton (l : String) (t : Tree) : (node l [t]).isPreterminal = t.isLeaf := rfl

@[simp] theorem isPreterminal_cons_cons (l : String) (s t : Tree) (ts : Forest) :
    (node l (s :: t :: ts)).isPreterminal = false := rfl

/-- A property of all trees follows when it passes from the children of a node to the node. -/
theorem induction_on_children {P : Tree → Prop} (h : ∀ l ts, (∀ t ∈ ts, P t) → P (node l ts)) (t : Tree) : P t :=
  Tree.rec (motive_1 := P) (motive_2 := fun ts => ∀ t ∈ ts, P t) h (by simp)
    (fun _ _ ht hts => by simpa using ⟨ht, hts⟩) t

end Tree

/-! ## Equality -/

mutual

def Tree.decEq : (s t : Tree) → Decidable (s = t)
  | .node l ss, .node m ts =>
    match decEq l m, Forest.decEq ss ts with
    | isTrue hl, isTrue hs => isTrue (by rw [hl, hs])
    | isFalse hl, _ => isFalse (fun h => hl (Tree.node.inj h).1)
    | _, isFalse hs => isFalse (fun h => hs (Tree.node.inj h).2)

def Forest.decEq : (ss ts : Forest) → Decidable (ss = ts)
  | [], [] => isTrue rfl
  | [], _ :: _ => isFalse nofun
  | _ :: _, [] => isFalse nofun
  | s :: ss, t :: ts =>
    match Tree.decEq s t, Forest.decEq ss ts with
    | isTrue h, isTrue hs => isTrue (by rw [h, hs])
    | isFalse h, _ => isFalse (fun e => h (List.cons.inj e).1)
    | _, isFalse hs => isFalse (fun e => hs (List.cons.inj e).2)

end

instance : DecidableEq Tree := Tree.decEq

/-! ## Words -/

mutual

/-- The words of the sentence under a tree: its leaf labels from left to right. -/
def Tree.words : Tree → List String
  | .node w [] => [w]
  | .node _ (t :: ts) => t.words ++ Forest.words ts

def Forest.words : Forest → List String
  | [] => []
  | t :: ts => t.words ++ Forest.words ts

end

@[simp] theorem Forest.words_eq (ts : Forest) : Forest.words ts = ts.flatMap Tree.words := by
  induction ts with
  | nil => rfl
  | cons t ts ih => rw [Forest.words, ih, List.flatMap_cons]

@[simp] theorem Tree.words_leaf (w : String) : (Tree.node w []).words = [w] := rfl

theorem Tree.words_node (l : String) {ts : Forest} (h : ts ≠ []) :
    (Tree.node l ts).words = ts.flatMap Tree.words := by
  cases ts with
  | nil => contradiction
  | cons t ts => simp [Tree.words]

/-! ## Taggings -/

/-- A word together with the label of the preterminal above it. -/
structure Tagging where
  word : String
  tag : String
deriving Repr, DecidableEq, Inhabited

mutual

/-- The tagged words of a tree from left to right; a leaf that is not the only child of its parent has
no tag and is passed over. -/
def Tree.taggings : Tree → List Tagging
  | .node _ [] => []
  | .node tag [.node word []] => [⟨word, tag⟩]
  | .node _ (t :: ts) => t.taggings ++ Forest.taggings ts

def Forest.taggings : Forest → List Tagging
  | [] => []
  | t :: ts => t.taggings ++ Forest.taggings ts

end

@[simp] theorem Forest.taggings_eq (ts : Forest) : Forest.taggings ts = ts.flatMap Tree.taggings := by
  induction ts with
  | nil => rfl
  | cons t ts ih => rw [Forest.taggings, ih, List.flatMap_cons]

@[simp] theorem Tree.taggings_leaf (w : String) : (Tree.node w []).taggings = [] := rfl

@[simp] theorem Tree.taggings_preterminal (tag word : String) :
    (Tree.node tag [.node word []]).taggings = [⟨word, tag⟩] := rfl

theorem Tree.taggings_node {t : Tree} (h : t.isPreterminal = false) :
    t.taggings = t.children.flatMap Tree.taggings := by
  match t with
  | .node _ [] => rfl
  | .node _ [.node _ []] => simp at h
  | .node _ [.node _ (_ :: _)] => simp [Tree.taggings]
  | .node _ (_ :: _ :: _) => simp [Tree.taggings]

/-- The tags of a tree: its preterminal labels from left to right. -/
def Tree.tags (t : Tree) : List String := t.taggings.map Tagging.tag

/-- Every word of a fully tagged tree has a tag of its own. -/
def Tree.isFullyTagged (t : Tree) : Bool := t.tags.length == t.words.length

/-! ## Nodes -/

mutual

/-- The nodes of a tree, each as the subtree it heads, in preorder. -/
def Tree.subtrees : Tree → List Tree
  | .node l ts => .node l ts :: Forest.subtrees ts

def Forest.subtrees : Forest → List Tree
  | [] => []
  | t :: ts => t.subtrees ++ Forest.subtrees ts

end

@[simp] theorem Forest.subtrees_eq (ts : Forest) : Forest.subtrees ts = ts.flatMap Tree.subtrees := by
  induction ts with
  | nil => rfl
  | cons t ts ih => rw [Forest.subtrees, ih, List.flatMap_cons]

theorem Tree.subtrees_node (l : String) (ts : Forest) :
    (Tree.node l ts).subtrees = .node l ts :: ts.flatMap Tree.subtrees := by
  simp [Tree.subtrees]

theorem Tree.forall_mem_subtrees_node {P : Tree → Prop} {l : String} {ts : Forest} :
    (∀ s ∈ (Tree.node l ts).subtrees, P s) ↔ P (.node l ts) ∧ ∀ t ∈ ts, ∀ s ∈ t.subtrees, P s := by
  rw [Tree.subtrees_node, List.forall_mem_cons]
  simp only [List.mem_flatMap, forall_exists_index, and_imp]
  exact and_congr_right fun _ => ⟨fun h t ht s hs => h s t ht hs, fun h s t ht hs => h t ht s hs⟩

theorem Tree.self_mem_subtrees (t : Tree) : t ∈ t.subtrees := by
  cases t; simp [Tree.subtrees]

/-! ## Replacing words -/

mutual

/-- Puts words on the leaves from left to right; leaves past the last word keep theirs. The words that
were not used are returned beside the tree. -/
def Tree.fill (words : List String) : Tree → Tree × List String
  | .node w [] => (.node (words.headD w) [], words.tail)
  | .node l (t :: ts) =>
    let (t, words) := t.fill words
    let (ts, words) := Forest.fill words ts
    (.node l (t :: ts), words)

def Forest.fill (words : List String) : Forest → Forest × List String
  | [] => ([], words)
  | t :: ts =>
    let (t, words) := t.fill words
    let (ts, words) := Forest.fill words ts
    (t :: ts, words)

end

def Tree.withWords (t : Tree) (words : List String) : Tree := (t.fill words).1

/-- The same tree over another sentence, when that sentence has one word for each leaf. -/
def Tree.withWords? (t : Tree) (words : List String) : Option Tree :=
  if words.length = t.words.length then some (t.withWords words) else none

end Constituency
