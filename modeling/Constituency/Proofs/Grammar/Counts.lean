/-
What counting productions comes to. Every node that is neither a leaf nor a preterminal heads a production, and
counting a tree is visiting its nodes in preorder (`Tree.countProductions_eq`). So the counts of trees with at most
two children at each node are numbers of occurrences in the list of their productions (`ofTrees?_eq`): the rules are
the productions of that list, each once (`mem_rules_iff`, `nodup_rules`), with their share of the occurrences of
their parent, which in exact arithmetic is positive and at most one.
-/
import Constituency.Proofs.Grammar.Cost
import Mathlib.Algebra.Order.Field.Basic
import Mathlib.Tactic

namespace Constituency

/-! ## The productions of a tree -/

namespace Tree

/-- A node with at most two children. -/
def isNarrow (t : Tree) : Bool := t.children.length ≤ 2

/-- The production that is counted at a node. -/
def production? (t : Tree) : Option Production := if t.isLexical then none else Production.ofNode? t

/-- The productions at the nodes of a tree, in preorder. -/
def productions (t : Tree) : List Production := t.subtrees.filterMap production?

theorem production?_of_not_isLexical {t : Tree} (h : t.isLexical = false) : t.production? = Production.ofNode? t := by
  rw [production?, h, if_neg Bool.false_ne_true]

theorem productions_node (l : String) (ts : Forest) :
    (node l ts).productions = (node l ts).production?.toList ++ ts.flatMap productions := by
  simp only [productions, subtrees_node, List.filterMap_cons, List.filterMap_flatMap]
  cases (node l ts).production? <;> rfl

theorem productions_of_isLexical {t : Tree} (h : t.isLexical = true) : t.productions = [] := by
  match t with
  | node _ [] | node _ [node _ []] => simp [productions, subtrees_node, production?, isLexical]
  | node _ [node _ (_ :: _)] | node _ (_ :: _ :: _) => simp [isLexical] at h

/-- A node over children has a production exactly when it is not too wide and no preterminal. -/
theorem exists_ofNode? {t : Tree} (hlex : t.isLexical = false) (hnarrow : t.isNarrow = true) :
    ∃ p, Production.ofNode? t = some p := by
  match t with
  | node _ [] => simp [isLexical] at hlex
  | node _ [_] | node _ [_, _] => exact ⟨_, rfl⟩
  | node _ (_ :: _ :: _ :: _) => simp [isNarrow] at hnarrow

theorem ofNode?_eq_none {t : Tree} (h : t.isNarrow = false) : Production.ofNode? t = none := by
  match t with
  | node _ [] | node _ [_] | node _ [_, _] => simp [isNarrow] at h
  | node _ (_ :: _ :: _ :: _) => rfl

theorem parent_of_ofNode? {t : Tree} {p : Production} (h : Production.ofNode? t = some p) : p.parent = t.label := by
  match t with
  | node _ [] | node _ (_ :: _ :: _ :: _) => cases h
  | node _ [_] | node _ [_, _] => cases h; rfl

end Tree

/-! ## Visiting nodes -/

namespace ProductionCounts

def addAll (c : ProductionCounts) (ps : List Production) : ProductionCounts := ps.foldl add c

/-- Counts nodes one after the other, as far as the first one with more than two children. -/
def visit (c : ProductionCounts) : List Tree → CountingRun
  | [] => ⟨c, none⟩
  | t :: ts => if t.isNarrow then visit (c.addAll t.production?.toList) ts else ⟨c, some t⟩

theorem visit_append : ∀ (c : ProductionCounts) (ss ts : List Tree),
    c.visit (ss ++ ts) = match c.visit ss with
      | ⟨c', none⟩ => c'.visit ts
      | ⟨c', some node⟩ => ⟨c', some node⟩
  | _, [], _ => rfl
  | c, s :: ss, ts => by
    rw [List.cons_append, visit, visit]
    split
    · exact visit_append _ ss ts
    · rfl

theorem visit_of_isLexical (c : ProductionCounts) {t : Tree} (h : t.isLexical = true) :
    c.visit t.subtrees = ⟨c, none⟩ := by
  match t with
  | .node _ [] | .node _ [.node _ []] =>
    simp [Tree.subtrees_node, visit, Tree.isNarrow, Tree.production?, Tree.isLexical, addAll]
  | .node _ [.node _ (_ :: _)] | .node _ (_ :: _ :: _) => simp [Tree.isLexical] at h

theorem visit_of_isNarrow : ∀ (c : ProductionCounts) (ts : List Tree), (∀ t ∈ ts, t.isNarrow = true) →
    c.visit ts = ⟨c.addAll (ts.filterMap Tree.production?), none⟩
  | _, [], _ => rfl
  | c, t :: ts, h => by
    rw [visit, if_pos (h t List.mem_cons_self), visit_of_isNarrow _ ts fun s hs => h s (List.mem_cons_of_mem _ hs),
      List.filterMap_cons]
    cases t.production? <;> rfl

end ProductionCounts

mutual

/-- Counting the productions of a tree is visiting its nodes in preorder. -/
theorem Tree.countProductions_eq : ∀ (c : ProductionCounts) (t : Tree), t.countProductions c = c.visit t.subtrees
  | c, .node l ts => by
    cases hlex : (Tree.node l ts).isLexical with
    | true => rw [Tree.countProductions, if_pos hlex, ProductionCounts.visit_of_isLexical c hlex]
    | false =>
      rw [Tree.countProductions, if_neg (by simp [hlex]), Tree.subtrees, ProductionCounts.visit,
        Tree.production?_of_not_isLexical hlex]
      cases hnarrow : (Tree.node l ts).isNarrow with
      | true =>
        obtain ⟨p, hp⟩ := Tree.exists_ofNode? hlex hnarrow
        rw [hp, if_pos rfl]
        exact Forest.countProductions_eq (c.add p) ts
      | false => rw [Tree.ofNode?_eq_none hnarrow, if_neg Bool.false_ne_true]

theorem Forest.countProductions_eq : ∀ (c : ProductionCounts) (ts : Forest),
    Forest.countProductions c ts = c.visit (Forest.subtrees ts)
  | c, [] => rfl
  | c, t :: ts => by
    rw [Forest.countProductions, Tree.countProductions_eq c t, Forest.subtrees, ProductionCounts.visit_append]
    obtain ⟨c', _ | node⟩ := c.visit t.subtrees
    · exact Forest.countProductions_eq c' ts
    · rfl

end

/-! ## Counts -/

namespace ProductionCounts

theorem productions_addAll (c : ProductionCounts) (ps : List Production) :
    (c.addAll ps).productions = c.productions.addAll ps := by
  induction ps generalizing c with
  | nil => rfl
  | cons p ps ih => exact ih (c.add p)

theorem parents_addAll (c : ProductionCounts) (ps : List Production) :
    (c.addAll ps).parents = c.parents.addAll (ps.map Production.parent) := by
  induction ps generalizing c with
  | nil => rfl
  | cons p ps ih => exact ih (c.add p)

/-- The counts of trees with at most two children at each node are those of the list of their productions. -/
theorem ofTrees?_eq {ts : Forest} (h : ∀ t ∈ ts, ∀ s ∈ t.subtrees, s.isNarrow = true) :
    ofTrees? ts = .ok (empty.addAll (ts.flatMap Tree.productions)) := by
  have hvisit : Forest.countProductions .empty ts = ⟨empty.addAll (ts.flatMap Tree.productions), none⟩ := by
    rw [Forest.countProductions_eq, Forest.subtrees_eq, visit_of_isNarrow, List.filterMap_flatMap]
    · rfl
    · intro s hs
      obtain ⟨t, ht, hs⟩ := List.mem_flatMap.1 hs
      exact h t ht s hs
  rw [ofTrees?, hvisit]

variable {ps : List Production} {p : Production}

@[simp] theorem count_productions (ps : List Production) (p : Production) :
    (empty.addAll ps).productions.count p = ps.count p := by
  rw [productions_addAll, Tally.count_addAll, empty, Tally.count_empty, Nat.zero_add]

@[simp] theorem count_parents (ps : List Production) (l : String) :
    (empty.addAll ps).parents.count l = (ps.map Production.parent).count l := by
  rw [parents_addAll, Tally.count_addAll, empty, Tally.count_empty, Nat.zero_add]

@[simp] theorem mem_keys (ps : List Production) (p : Production) :
    p ∈ (empty.addAll ps).productions.keys ↔ p ∈ ps := by
  rw [productions_addAll, Tally.mem_keys_addAll]
  simp [empty]

/-! ## Rules -/

section Rules

variable {ρ : Type} [NatCast ρ] [Div ρ]

theorem mem_rules_iff {r : Rule ρ} : r ∈ (empty.addAll ps).rules ↔
    r.production ∈ ps ∧ r.probability = (empty.addAll ps).relativeFrequency r.production := by
  simp only [rules, List.mem_map, mem_keys]
  constructor
  · rintro ⟨p, hp, rfl⟩
    exact ⟨hp, rfl⟩
  · rintro ⟨hp, hr⟩
    exact ⟨r.production, hp, by rw [← hr]⟩

theorem map_production_rules (c : ProductionCounts) :
    (c.rules : List (Rule ρ)).map Rule.production = c.productions.keys := by
  simp [rules, Function.comp_def]

/-- Each production has one rule. -/
theorem nodup_rules (c : ProductionCounts) : ((c.rules : List (Rule ρ)).map Rule.production).Nodup := by
  rw [map_production_rules]
  exact c.productions.nodup_keys

theorem count_parent_pos (h : p ∈ ps) : 0 < (ps.map Production.parent).count p.parent :=
  List.count_pos_iff.2 (List.mem_map_of_mem h)

/-- The parent of a production that was counted was counted too. -/
theorem relativeFrequency_of_mem (h : p ∈ ps) : (empty.addAll ps).relativeFrequency p =
    (ps.count p : ρ) / ((ps.map Production.parent).count p.parent : ρ) := by
  simp only [relativeFrequency, count_productions, count_parents]
  rw [if_pos (count_parent_pos h)]

end Rules

section Exact

variable {ρ : Type} [Field ρ] [LinearOrder ρ] [IsStrictOrderedRing ρ]

theorem count_le_count_parent (ps : List Production) (p : Production) :
    ps.count p ≤ (ps.map Production.parent).count p.parent :=
  List.count_le_count_map

theorem relativeFrequency_pos (h : p ∈ ps) : (0 : ρ) < (empty.addAll ps).relativeFrequency p := by
  rw [relativeFrequency_of_mem h]
  exact div_pos (Nat.cast_pos.2 (List.count_pos_iff.2 h)) (Nat.cast_pos.2 (count_parent_pos h))

/-- Each production that was counted has a possible rule. -/
theorem exists_rule_of_mem (h : p ∈ ps) : ∃ r ∈ ((empty.addAll ps).rules : List (Rule ρ)),
    r.production = p ∧ ((0 : Nat) : ρ) < r.probability := by
  refine ⟨⟨p, (empty.addAll ps).relativeFrequency p⟩, mem_rules_iff.2 ⟨h, rfl⟩, rfl, ?_⟩
  rw [Nat.cast_zero]
  exact relativeFrequency_pos h

theorem relativeFrequency_le_one (h : p ∈ ps) : (empty.addAll ps).relativeFrequency p ≤ (1 : ρ) := by
  rw [relativeFrequency_of_mem h]
  exact div_le_one_of_le₀ (Nat.cast_le.2 (count_le_count_parent ps p)) (Nat.cast_nonneg _)

/-- No rule that was estimated is more than certain. -/
theorem atMostCertain_rules (ps : List Production) : AtMostCertain ((empty.addAll ps).rules : List (Rule ρ)) := by
  intro r hr _
  obtain ⟨hmem, hr⟩ := mem_rules_iff.1 hr
  rw [hr, Nat.cast_one]
  exact relativeFrequency_le_one hmem

end Exact

end ProductionCounts

/-- The grammar of trees with at most two children at each node has the rules of their productions. -/
theorem Grammar.ofTrees_eq {ρ κ : Type} [NatCast ρ] [LT ρ] [DecidableLT ρ] [Surprisal ρ κ] [Div ρ] {ts : Forest}
    (h : ∀ t ∈ ts, ∀ s ∈ t.subtrees, s.isNarrow = true) : (Grammar.ofTrees ts : Except Error (Grammar ρ κ)) =
      .ok (.ofRules (ProductionCounts.empty.addAll (ts.flatMap Tree.productions)).rules) := by
  rw [Grammar.ofTrees, ProductionCounts.ofTrees?_eq h]

end Constituency
