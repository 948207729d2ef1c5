/-
Annotated trees as training input. The nodes of a binarized tree are the nodes of the tree, each binarized, and the
inserted ones, which have exactly two children (`subtrees_binarize_perm`); so no leaf becomes the only child of a node
that was not there before. A preterminal keeps its word, and its tag changes by the label of its parent alone
(`taggings_annotate`). So training accepts every list of trees and counts all that is in it (`annotate_legal`).
-/
import Constituency.Proofs.Parser.Training

namespace Constituency

/-! ## Inserted nodes -/

namespace Forest

/-- The nodes inserted above the children of one node, from the top down. -/
def inserted (trail : String) : Forest → List Tree
  | [] | [_] | [_, _] => []
  | s :: t :: u :: ts =>
    let trail := trailPast trail s.label
    .node trail (binarize trail (t :: u :: ts)) :: inserted trail (t :: u :: ts)

theorem length_binarize_cons_cons (trail : String) (s t : Tree) (ts : Forest) :
    (binarize trail (s :: t :: ts)).length = 2 := by
  obtain ⟨r, hr⟩ := binarize_cons_cons trail s t ts
  rw [hr]
  rfl

/-- An inserted node has two children and a label that starts with an at sign. -/
theorem of_mem_inserted : ∀ {trail : String} (ts : Forest), trail.toList.head? = some '@' →
    ∀ s ∈ inserted trail ts, s.children.length = 2 ∧ s.label.toList.head? = some '@'
  | _, [], _ | _, [_], _ | _, [_, _], _ => by simp [inserted]
  | trail, s :: t :: u :: ts, h => by
    have hpast := head?_trailPast h s.label
    rw [inserted, List.forall_mem_cons]
    exact ⟨⟨length_binarize_cons_cons _ t u ts, hpast⟩, of_mem_inserted (t :: u :: ts) hpast⟩

theorem subtrees_binarize_perm : ∀ (trail : String) (ts : Forest), ((binarize trail ts).flatMap Tree.subtrees).Perm
    ((ts.flatMap fun t => t.binarize.subtrees) ++ inserted trail ts)
  | _, [] | _, [_] | _, [_, _] => by simp [binarize, inserted]
  | trail, s :: t :: u :: ts => by
    have hrest := subtrees_binarize_perm (trailPast trail s.label) (t :: u :: ts)
    rw [binarize, inserted, List.flatMap_cons, List.flatMap_singleton, Tree.subtrees_node, List.flatMap_cons,
      List.append_assoc]
    exact ((hrest.cons _).trans List.perm_middle.symm).append_left _

end Forest

namespace Tree

/-- The nodes that binarization inserts into a tree. -/
def inserted (t : Tree) : List Tree := t.subtrees.flatMap fun s => Forest.inserted (trailStart s.label) s.children

theorem inserted_node (l : String) (ts : Forest) :
    (node l ts).inserted = Forest.inserted (trailStart l) ts ++ ts.flatMap inserted := by
  rw [inserted, subtrees_node, List.flatMap_cons, List.flatMap_assoc]
  rfl

theorem of_mem_inserted {s t : Tree} (h : s ∈ t.inserted) :
    s.children.length = 2 ∧ s.label.toList.head? = some '@' := by
  obtain ⟨u, -, hs⟩ := List.mem_flatMap.1 h
  exact Forest.of_mem_inserted u.children (by simp [trailStart]) s hs

/-- The nodes of a binarized tree are the binarized nodes of the tree and the inserted ones. -/
theorem subtrees_binarize_perm (t : Tree) : t.binarize.subtrees.Perm (t.subtrees.map binarize ++ t.inserted) := by
  induction t using induction_on_children with
  | h l ts ih =>
    have hchildren : (ts.flatMap fun t => t.binarize.subtrees).Perm
        (ts.flatMap (fun t => t.subtrees.map binarize) ++ ts.flatMap inserted) :=
      (List.Perm.flatMap_left ts ih).trans (List.flatMap_append_perm ts _ _).symm
    rw [binarize_node, subtrees_node, subtrees_node, List.map_cons, binarize_node, List.map_flatMap, inserted_node,
      List.cons_append]
    refine (((Forest.subtrees_binarize_perm _ ts).trans (hchildren.append_right _)).trans ?_).cons _
    rw [List.append_assoc]
    exact List.perm_append_comm.append_left _

end Tree

/-! ## Taggings and the labels above them -/

/-- A tagging with the label of the node above its preterminal, if there is one. -/
structure PlacedTagging where
  tagging : Tagging
  above : Option String

/-- The tagging once the tree is annotated with parents. -/
def PlacedTagging.annotated (x : PlacedTagging) : Tagging :=
  { x.tagging with tag := x.above.elim x.tagging.tag fun parent => underParent parent x.tagging.tag }

mutual

/-- The taggings of a tree that hangs under a node with the label `above`, or under none. -/
def Tree.placedTaggings (above : Option String) : Tree → List PlacedTagging
  | .node _ [] => []
  | .node tag [.node word []] => [⟨⟨word, tag⟩, above⟩]
  | .node l (t :: ts) => t.placedTaggings (some l) ++ Forest.placedTaggings (some l) ts

def Forest.placedTaggings (above : Option String) : Forest → List PlacedTagging
  | [] => []
  | t :: ts => t.placedTaggings above ++ Forest.placedTaggings above ts

end

@[simp] theorem Forest.placedTaggings_eq (above : Option String) (ts : Forest) :
    Forest.placedTaggings above ts = ts.flatMap (Tree.placedTaggings above) := by
  induction ts with
  | nil => rfl
  | cons t ts ih => rw [Forest.placedTaggings, ih, List.flatMap_cons]

namespace Tree

@[simp] theorem placedTaggings_preterminal (above : Option String) (tag word : String) :
    (preterminal tag word).placedTaggings above = [⟨⟨word, tag⟩, above⟩] := by
  simp [preterminal, leaf, placedTaggings]

theorem placedTaggings_node {l : String} {ts : Forest} (above : Option String)
    (h : (node l ts).isPreterminal = false) :
    (node l ts).placedTaggings above = ts.flatMap (placedTaggings (some l)) := by
  match ts with
  | [] => simp [placedTaggings]
  | [node _ []] => simp at h
  | [node _ (_ :: _)] => simp [placedTaggings]
  | _ :: _ :: _ => simp [placedTaggings]

@[simp] theorem map_tagging_placedTaggings (above : Option String) (t : Tree) :
    (t.placedTaggings above).map PlacedTagging.tagging = t.taggings := by
  induction t using induction_on_phrases generalizing above with
  | tagged =>
    rw [placedTaggings_preterminal]
    rfl
  | other l ts hpre ih =>
    rw [placedTaggings_node above hpre, taggings_node hpre, List.map_flatMap]
    exact List.flatMap_congr fun t ht => ih t ht (some l)

theorem taggings_annotateUnder (parent : String) (t : Tree) :
    (t.annotateUnder parent).taggings = (t.placedTaggings (some parent)).map PlacedTagging.annotated := by
  induction t using induction_on_phrases generalizing parent with
  | tagged =>
    rw [placedTaggings_preterminal]
    rfl
  | other l ts hpre ih =>
    rw [taggings_node ((isPreterminal_annotateUnder parent _).trans hpre), placedTaggings_node _ hpre,
      List.map_flatMap]
    by_cases hts : ts = []
    · subst hts; rfl
    · rw [annotateUnder_node parent l hts, children_node, List.flatMap_map]
      exact List.flatMap_congr fun t ht => ih t ht l

/-- The taggings of an annotated tree are those of the tree, each with the label above it behind its tag. -/
theorem taggings_annotate (t : Tree) :
    t.annotate.taggings = (t.placedTaggings none).map PlacedTagging.annotated := by
  rw [annotate, taggings_binarize]
  induction t using induction_on_phrases with
  | tagged =>
    rw [placedTaggings_preterminal]
    rfl
  | other l ts hpre _ =>
    rw [taggings_node ((isPreterminal_annotateParents _).trans hpre), placedTaggings_node _ hpre, annotateParents,
      children_node, List.flatMap_map, List.map_flatMap]
    exact List.flatMap_congr fun t _ => taggings_annotateUnder l t

end Tree

/-! ## Legal training input -/

/-- Lexicons look at taggings alone. -/
theorem Lexicon.ofTrees_congr {ss ts : Forest} (h : ss.flatMap Tree.taggings = ts.flatMap Tree.taggings) :
    ofTrees ss = ofTrees ts := by
  rw [ofTrees, ofTrees, h]

theorem Lexicon.ofTrees_map_binarize (ts : Forest) : ofTrees (ts.map Tree.binarize) = ofTrees ts := by
  refine ofTrees_congr ?_
  rw [List.flatMap_map]
  exact List.flatMap_congr fun t _ => t.taggings_binarize

section Legal

variable {ρ κ : Type} [NatCast ρ] [Div ρ] [LT ρ] [DecidableLT ρ] [Surprisal ρ κ]

/-- Annotation leaves no node with more than two children, gives each node that it inserts two, and keeps the words
and, up to the labels of parents, the taggings; binarization keeps the lexicon. So training accepts all trees: the model
has the rules of all productions of the annotated trees, and their lexicon. -/
theorem annotate_legal (t : Tree) (ts : Forest) :
    (∀ s ∈ t.annotate.subtrees, s.children.length ≤ 2) ∧
    (t.binarize.subtrees.Perm (t.subtrees.map Tree.binarize ++ t.inserted) ∧
      ∀ s ∈ t.inserted, s.children.length = 2 ∧ s.isInserted = true) ∧
    t.annotate.words = t.words ∧
    ((t.placedTaggings none).map PlacedTagging.tagging = t.taggings ∧
      t.annotate.taggings = (t.placedTaggings none).map PlacedTagging.annotated) ∧
    Lexicon.ofTrees (ts.map Tree.binarize) = Lexicon.ofTrees ts ∧
    (Model.train ts : Except Error (Model ρ κ)) =
      .ok ⟨.ofRules (ProductionCounts.empty.addAll ((ts.map Tree.annotate).flatMap Tree.productions)).rules,
        Lexicon.ofTrees (ts.map Tree.annotate)⟩ := by
  refine ⟨fun s hs => of_decide_eq_true (t.isNarrow_of_mem_annotate s hs), ⟨t.subtrees_binarize_perm, fun s hs => ?_⟩,
    t.words_annotate, ⟨t.map_tagging_placedTaggings none, t.taggings_annotate⟩, Lexicon.ofTrees_map_binarize ts,
    Model.train_eq ts⟩
  obtain ⟨hlength, hhead⟩ := Tree.of_mem_inserted hs
  obtain ⟨l, us⟩ := s
  refine ⟨hlength, ?_⟩
  cases us with
  | nil => cases hlength
  | cons u us => simpa [Tree.isInserted] using hhead

end Legal

end Constituency
