/-
Every training sentence parses. The annotated tree of a sentence is narrow, each of its productions was counted and so
has a rule of positive probability, and each of its taggings was observed and so has a positive score. So the annotated
tree is a derivation under the model, and what the parser finds costs no more (`Model.exists_derive?_of_mem`).
-/
import Constituency.Proofs.Chart.Completeness
import Constituency.Proofs.Parser.Training

namespace Constituency.Model

section Coverage

variable {ρ κ : Type} [Field ρ] [LinearOrder ρ] [IsStrictOrderedRing ρ] [Surprisal ρ κ] [LinearOrder κ] [Add κ]
  {ts : Forest} {t : Tree}

/-- The annotated tree of a training sentence is a derivation from the rules and the tags of the trained model. -/
theorem exists_derives_annotate (ht : t ∈ ts) (hpre : t.isPreterminal = false) (htagged : t.LeavesTagged)
    {m : Model ρ κ} (hm : train ts = .ok m) : ∃ c : κ, t.annotate.cost? κ m.grammar.rules m.lexicon.scorer = some c ∧
      Derives m.grammar.rules m.lexicon.scorer t.annotate c := by
  obtain rfl := Except.ok.inj ((train_eq ts).symm.trans hm)
  have hseen : t.annotate ∈ ts.map Tree.annotate := List.mem_map_of_mem ht
  have hrules : ∀ p ∈ t.annotate.productions, ∃ r ∈ (Grammar.ofRules (ProductionCounts.empty.addAll
      ((ts.map Tree.annotate).flatMap Tree.productions)).rules : Grammar ρ κ).rules,
      r.production = p ∧ ((0 : Nat) : ρ) < r.probability := by
    intro p hp
    obtain ⟨r, hr, hprod, hpos⟩ := ProductionCounts.exists_rule_of_mem (ρ := ρ)
      (List.mem_flatMap.2 ⟨_, hseen, hp⟩ : p ∈ (ts.map Tree.annotate).flatMap Tree.productions)
    exact ⟨r, mem_sortedOn.2 hr, hprod, hpos⟩
  have htags : ∀ x ∈ t.annotate.taggings, x.tag ∈ (Lexicon.ofTrees (ts.map Tree.annotate)).tags ∧
      ((0 : Nat) : ρ) < (Lexicon.ofTrees (ts.map Tree.annotate)).score x.word x.tag := by
    intro x hx
    refine ⟨Lexicon.mem_tags_iff.2 ⟨_, hseen, List.mem_map_of_mem hx⟩, ?_⟩
    rw [Nat.cast_zero]
    exact Lexicon.score_pos (List.mem_flatMap.2 ⟨_, hseen, hx⟩)
  have hlex : t.annotate.isLexical = false := by
    rw [Tree.isLexical_eq_false_iff, Tree.isPreterminal_annotate]
    exact ⟨htagged.annotate.1, hpre⟩
  -- the root has a production, so that its label is a symbol of the grammar
  obtain ⟨p, hp⟩ := Tree.exists_ofNode? hlex (Tree.isNarrow_of_mem_annotate t _ t.annotate.self_mem_subtrees)
  have hroot : p ∈ t.annotate.productions :=
    List.mem_filterMap.2 ⟨_, t.annotate.self_mem_subtrees, (Tree.production?_of_not_isLexical hlex).trans hp⟩
  obtain ⟨r, hr, rfl, -⟩ := hrules p hroot
  refine Tree.exists_derives (Tree.isNarrow_of_mem_annotate t) htagged.annotate hrules htags ⟨r, hr, ?_⟩
  rw [← Tree.parent_of_ofNode? hp]
  exact List.mem_cons_self

variable [LawfulSurprisal ρ κ] [AddLeftMono κ] [AddRightMono κ]

/-- The sentence of a training tree is parsed, by a derivation that costs no more than the annotated tree. -/
theorem exists_derive?_of_mem (ht : t ∈ ts) (hroot : t.label = rootLabel) (hpre : t.isPreterminal = false)
    (htagged : t.LeavesTagged) : ∃ m : Model ρ κ, train ts = .ok m ∧ ∃ d c, m.derive? t.words = some d ∧
      t.annotate.cost? κ m.grammar.rules m.lexicon.scorer = some c ∧ d.cost ≤ c ∧
      m.parse? t.words = some d.tree.unannotate := by
  refine ⟨_, train_eq ts, ?_⟩
  obtain ⟨c, hc, hderives⟩ := exists_derives_annotate (ρ := ρ) (κ := κ) ht hpre htagged (train_eq ts)
  have hrules := ProductionCounts.atMostCertain_rules (ρ := ρ) ((ts.map Tree.annotate).flatMap Tree.productions)
  obtain ⟨d, hd, hle⟩ := Grammar.exists_derive? hrules (hderives.mono fun r => mem_sortedOn.1)
  rw [Tree.words_annotate, Tree.label_annotate, hroot] at hd
  exact ⟨d, c, hd, hc, hle, by rw [parse?, derive?, hd, Option.map_some]⟩

end Coverage

/-- A tree with a wide phrase, a unary chain, and labels that hold the marks of annotations. -/
def markedTree : Tree :=
  .node "ROOT" [.node "@NP_" [.preterminal "D" "the", .preterminal "J^" "old", .preterminal "N-X" "dog"],
    .node "VP" [.node "VP" [.preterminal "V" "barks"]]]

/-- The marked tree among a word alone, a tag at the root and words without a tag. -/
def oddTrees : Forest :=
  [.leaf "dog", .preterminal "ROOT" "barks", .node "" [.leaf "D", .leaf "_", .node "@" [.leaf "old"]], markedTree]

theorem exists_derive?_of_mem_odd : markedTree ∈ oddTrees ∧ markedTree.label = rootLabel ∧
    markedTree.isPreterminal = false ∧ markedTree.LeavesTagged ∧ ∃ m : Model ℚ ℤ, train oddTrees = .ok m ∧
      ∃ d c, m.derive? ["the", "old", "dog", "barks"] = some d ∧
        markedTree.annotate.cost? ℤ m.grammar.rules m.lexicon.scorer = some c ∧ d.cost ≤ c ∧
        m.parse? ["the", "old", "dog", "barks"] = some d.tree.unannotate := by
  have hmem : markedTree ∈ oddTrees := by decide +kernel
  have htagged : markedTree.LeavesTagged := by unfold Tree.LeavesTagged; decide +kernel
  exact ⟨hmem, rfl, rfl, htagged, exists_derive?_of_mem hmem rfl rfl htagged⟩

end Constituency.Model
