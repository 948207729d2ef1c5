/-
How counts grow when a tree is counted. The nodes of the tree are visited in preorder, and each phrase among them
raises the count of its production and the count of its parent by one (`Grown`). Counting stops in front of the first
node with more than two children, which is the node that the error shows; the phrases visited before it stay counted,
whatever had been counted before (`countProductions_exact`).
-/
import Constituency.Error
import Constituency.Proofs.Grammar.Counts

namespace Constituency

/-! ## Productions and labels -/

theorem Production.ofNode?_eq_some_iff {t : Tree} {p : Production} :
    Production.ofNode? t = some p ↔ t.label = p.parent ∧ t.children.map Tree.label = p.children := by
  rcases p with ⟨parent, child⟩ | ⟨parent, left, right⟩
  · match t with
    | .node _ [] | .node _ [_] | .node _ [_, _] | .node _ (_ :: _ :: _ :: _) =>
      simp [Production.ofNode?, Production.parent, Production.children]
  · match t with
    | .node _ [] | .node _ [_] | .node _ [_, _] | .node _ (_ :: _ :: _ :: _) =>
      simp [Production.ofNode?, Production.parent, Production.children]

namespace Tree

/-- The production that is counted at a node has the label of the node and the labels of its children. -/
theorem production?_eq_some_iff {t : Tree} {p : Production} :
    t.production? = some p ↔ t.isLexical = false ∧ t.label = p.parent ∧ t.children.map label = p.children := by
  unfold production?
  cases t.isLexical with
  | true => simp
  | false => simp [Production.ofNode?_eq_some_iff]

theorem map_parent_production? {t : Tree} (h : t.isNarrow = true) (l : String) :
    t.production?.map Production.parent = some l ↔ t.isLexical = false ∧ t.label = l := by
  constructor
  · intro hmap
    obtain ⟨p, hp, rfl⟩ := Option.map_eq_some_iff.1 hmap
    obtain ⟨hlex, hlabel, -⟩ := production?_eq_some_iff.1 hp
    exact ⟨hlex, hlabel⟩
  · rintro ⟨hlex, rfl⟩
    obtain ⟨p, hp⟩ := exists_ofNode? hlex h
    rw [production?_of_not_isLexical hlex, hp, Option.map_some, parent_of_ofNode? hp]

end Tree

/-! ## What visited nodes add -/

namespace ProductionCounts

/-- Each count has grown by the number of phrases among the nodes that have its labels. -/
structure Grown (c : ProductionCounts) (nodes : List Tree) (c' : ProductionCounts) : Prop where
  production (p : Production) : c'.productions.count p = c.productions.count p +
    nodes.countP fun t => t.isLexical = false ∧ t.label = p.parent ∧ t.children.map Tree.label = p.children
  parent (l : String) : c'.parents.count l = c.parents.count l +
    nodes.countP fun t => t.isLexical = false ∧ t.label = l

theorem grown_addAll (c : ProductionCounts) {nodes : List Tree} (h : ∀ t ∈ nodes, t.isNarrow = true) :
    c.Grown nodes (c.addAll (nodes.filterMap Tree.production?)) := by
  constructor
  · intro p
    rw [productions_addAll, Tally.count_addAll, List.count_filterMap]
    congr 1
    apply List.countP_congr
    intro t _
    simp [Tree.production?_eq_some_iff]
  · intro l
    rw [parents_addAll, Tally.count_addAll, List.map_filterMap, List.count_filterMap]
    congr 1
    apply List.countP_congr
    intro t ht
    simp [Tree.map_parent_production? (h t ht)]

/-- Visiting stops in front of the first node with more than two children. -/
theorem visit_append_cons (c : ProductionCounts) {before : List Tree} {node : Tree} (after : List Tree)
    (hbefore : ∀ t ∈ before, t.isNarrow = true) (hnode : node.isNarrow = false) :
    c.visit (before ++ node :: after) = ⟨c.addAll (before.filterMap Tree.production?), some node⟩ := by
  rw [visit_append, visit_of_isNarrow c before hbefore]
  show visit _ (node :: after) = _
  rw [visit, if_neg (by simp [hnode])]

end ProductionCounts

/-! ## Counting a tree -/

/-- How a run ended: with an error that shows the node that stopped it, if there was one. -/
def CountingRun.result (run : CountingRun) : Except Error Unit :=
  match run.stoppedAt with
  | none => .ok ()
  | some node => .error (.illegalTree node)

namespace Tree

theorem countProductions_of_isNarrow (c : ProductionCounts) {t : Tree} (h : ∀ s ∈ t.subtrees, s.isNarrow = true) :
    (t.countProductions c).result = .ok () ∧ c.Grown t.subtrees (t.countProductions c).counts := by
  rw [countProductions_eq, ProductionCounts.visit_of_isNarrow c t.subtrees h]
  exact ⟨rfl, c.grown_addAll h⟩

theorem countProductions_of_split (c : ProductionCounts) {t node : Tree} {before after : List Tree}
    (hsplit : t.subtrees = before ++ node :: after) (hbefore : ∀ s ∈ before, s.isNarrow = true)
    (hnode : node.isNarrow = false) : (t.countProductions c).result = .error (.illegalTree node) ∧
      c.Grown before (t.countProductions c).counts := by
  rw [countProductions_eq, hsplit, c.visit_append_cons after hbefore hnode]
  exact ⟨rfl, c.grown_addAll hbefore⟩

/-- Either all nodes have at most two children, or there is a first one in preorder that has more. -/
theorem isNarrow_or_exists_split (t : Tree) : (∀ s ∈ t.subtrees, s.isNarrow = true) ∨
    ∃ before node after, t.subtrees = before ++ node :: after ∧ (∀ s ∈ before, s.isNarrow = true) ∧
      node.isNarrow = false := by
  rcases hfind : t.subtrees.find? (!·.isNarrow) with _ | node
  · exact .inl (by simpa using hfind)
  · obtain ⟨hnode, before, after, hsplit, hbefore⟩ := List.find?_eq_some_iff_append.1 hfind
    exact .inr ⟨before, node, after, hsplit, by simpa using hbefore, by simpa using hnode⟩

/-- Counting the productions of a tree succeeds exactly when no node has more than two children, and then all phrases
of the tree are counted. Otherwise the error shows the first node in preorder that has more, and the phrases before it
are counted. Either way the counts grow from what they were. -/
theorem countProductions_exact (c : ProductionCounts) (t : Tree) :
    ((t.countProductions c).result = .ok () ↔ ∀ s ∈ t.subtrees, s.children.length ≤ 2) ∧
    ((t.countProductions c).result = .ok () ∧ c.Grown t.subtrees (t.countProductions c).counts ∨
      ∃ before node after, t.subtrees = before ++ node :: after ∧ (∀ s ∈ before, s.children.length ≤ 2) ∧
        2 < node.children.length ∧ (t.countProductions c).result = .error (.illegalTree node) ∧
        (Error.illegalTree node).detail = some node.bracketed ∧ c.Grown before (t.countProductions c).counts) := by
  rcases t.isNarrow_or_exists_split with hall | ⟨before, node, after, hsplit, hbefore, hnode⟩
  · obtain ⟨hok, hgrown⟩ := countProductions_of_isNarrow c hall
    exact ⟨iff_of_true hok (by simpa [isNarrow] using hall), .inl ⟨hok, hgrown⟩⟩
  · obtain ⟨herror, hgrown⟩ := countProductions_of_split c hsplit hbefore hnode
    have hwide : 2 < node.children.length := by simpa [isNarrow] using hnode
    have hmem : node ∈ t.subtrees := by simp [hsplit]
    refine ⟨iff_of_false (by simp [herror]) fun h => ?_,
      .inr ⟨before, node, after, hsplit, ?_, hwide, herror, rfl, hgrown⟩⟩
    · exact absurd (h node hmem) (by omega)
    · simpa [isNarrow] using hbefore

example : ((Tree.node "S" [.node "NP" [.leaf "a", .leaf "b"],
    .node "X" [.leaf "c", .leaf "d", .leaf "e"]]).countProductions .empty).stoppedAt.map Tree.bracketed =
      some "(X c d e)" := by decide +kernel

end Tree

end Constituency
