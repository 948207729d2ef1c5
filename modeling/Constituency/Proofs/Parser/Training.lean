/-
What a trained model derives. Training never fails, and the productions of the grammar are those on the chains of the
expansions in the annotated trees (`Model.train_eq`), so that a derivation is put together from them, whatever the
arithmetic of scores and costs. If the labels of the trees have none of the marks of inserted nodes, then splicing a
derivation leaves a tree whose expansions and tags were all seen in training (`Model.seen_of_derive?`), and if they
have no mark of annotation at all, then annotating a parse gives the derivation back (`Model.annotate_parse?`).
-/
import Constituency.Parser.Model
import Constituency.Proofs.Annotation.Recovery
import Constituency.Proofs.Chart.Licensed
import Constituency.Proofs.Lexicon.Counts

namespace Constituency

/-! ## From licensed nodes to productions -/

/-- A tree that is licensed at every node is put together from the productions of the rules and the tags. -/
theorem Pieced.of_licensed {ρ : Type} [NatCast ρ] [LT ρ] {rules : List (Rule ρ)} {scorer : TagScorer ρ}
    {es : List Expansion} {tags : List String} (hrules : ∀ r ∈ rules, ∃ e ∈ es, r.production ∈ e.chain)
    (htags : scorer.tags ⊆ tags) {t : Tree} (hleaf : t.isLeaf = false)
    (h : ∀ s ∈ t.subtrees, s.isLeaf = true ∨ Licensed rules scorer s) : Pieced es tags t := by
  induction t using Tree.induction_on_children with
  | h l ts ih =>
    obtain ⟨hself, hbelow⟩ := Tree.forall_mem_subtrees_node.1 h
    rcases hself.resolve_left (by simp [hleaf]) with ⟨tag, word, heq, htag, -⟩ | ⟨r, hr, hprod, -, hchildren⟩
    · rw [heq]
      exact .tagging (htags htag)
    · obtain ⟨e, he, hmem⟩ := hrules r hr
      have hpieced : ∀ t ∈ ts, Pieced es tags t := fun t ht => ih t ht (hchildren t ht) (hbelow t ht)
      match ts with
      | [] | _ :: _ :: _ :: _ => cases hprod
      | [t] =>
        rw [← Option.some.inj hprod] at hmem
        exact .only he hmem (hpieced t (by simp))
      | [s, t] =>
        rw [← Option.some.inj hprod] at hmem
        exact .pair he hmem (hpieced s (by simp)) (hpieced t (by simp))

/-! ## Annotated labels -/

theorem head?_underParent_ne {l : String} (h : l.toList.head? ≠ some '@') (parent : String) :
    (underParent parent l).toList.head? ≠ some '@' := by
  by_cases hl : l = ""
  · subst hl
    simp [underParent]
  · rwa [head?_underParent hl]

/-- Annotation makes no label look like that of an inserted node. -/
theorem Tree.EveryInner.head_annotateParents {t : Tree} (h : t.EveryInner fun l => l.toList.head? ≠ some '@') :
    t.annotateParents.EveryInner fun l => l.toList.head? ≠ some '@' := by
  obtain ⟨l, ts⟩ := t
  obtain ⟨hl, hchildren⟩ := Tree.everyInner_node.1 h
  rw [Tree.annotateParents, Tree.everyInner_node, List.forall_mem_map]
  exact ⟨fun hts => hl (by simpa using hts),
    fun t ht => (hchildren t ht).annotateUnder (fun _ parent hm => head?_underParent_ne hm parent) l⟩

/-! ## What was seen in training -/

/-- The tags in trees annotated with parents. -/
def annotatedTags (ts : Forest) : List String := ts.flatMap fun t => t.annotateParents.tags

section Seen

variable {ts : Forest}

theorem mem_tags_ofTrees_iff {tag : String} : tag ∈ (Lexicon.ofTrees (ts.map Tree.annotate)).tags ↔
    tag ∈ annotatedTags ts := by
  simp [Lexicon.mem_tags_iff, annotatedTags, Tree.annotate, Tree.tags_binarize]

theorem plain_annotatedTags (h : ∀ t ∈ ts, t.EverySymbol Plain) : ∀ tag ∈ annotatedTags ts, Plain tag := by
  intro tag htag
  obtain ⟨t, ht, htag⟩ := List.mem_flatMap.1 htag
  obtain ⟨word, hmem⟩ := Tree.mem_tags_iff.1 htag
  have hannotated := (h t ht).annotateParents fun _ _ => plain_underParent
  exact (hannotated.of_mem_subtrees hmem rfl).label

/-- What holds of the labels above the words of annotated trees holds of the parents and the tags seen in them. -/
theorem everyInner_seen {P : String → Prop} (h : ∀ t ∈ ts, t.annotateParents.EveryInner P) :
    (∀ e ∈ annotatedExpansions ts, P e.parent) ∧ ∀ tag ∈ annotatedTags ts, P tag := by
  constructor
  · intro e he
    obtain ⟨t, ht, s, hs, rfl⟩ := mem_annotatedExpansions_iff.1 he
    obtain ⟨hmem, hlex⟩ := Tree.mem_phrases_iff.1 hs
    exact h t ht s hmem (Tree.isLexical_eq_false_iff.1 hlex).1
  · intro tag htag
    obtain ⟨t, ht, htag⟩ := List.mem_flatMap.1 htag
    obtain ⟨word, hmem⟩ := Tree.mem_tags_iff.1 htag
    exact h t ht _ hmem rfl

end Seen

/-! ## Trained models -/

namespace Model

variable {ρ κ : Type} [NatCast ρ] [Add ρ] [Mul ρ] [Div ρ] [LT ρ] [DecidableLT ρ] [Surprisal ρ κ]

section Train

omit [Add ρ] [Mul ρ]

/-- Training succeeds on all trees. -/
theorem train_eq (ts : Forest) : (train ts : Except Error (Model ρ κ)) =
    .ok ⟨.ofRules (ProductionCounts.empty.addAll ((ts.map Tree.annotate).flatMap Tree.productions)).rules,
      Lexicon.ofTrees (ts.map Tree.annotate)⟩ := by
  have hnarrow : ∀ t ∈ ts.map Tree.annotate, ∀ s ∈ t.subtrees, s.isNarrow = true := by
    rw [List.forall_mem_map]
    exact fun t _ => Tree.isNarrow_of_mem_annotate t
  rw [train, Grammar.ofTrees_eq hnarrow]
  rfl

end Train

variable [Add κ] [LT κ] [DecidableLT κ] [BEq κ] {ts : Forest}

/-- A derivation is the binarization of a tree that is assembled from what was seen in training. -/
theorem exists_assembled (hplain : ∀ t ∈ ts, t.EverySymbol Plain) : ∃ m : Model ρ κ, train ts = .ok m ∧
    ∀ sentence d, m.derive? sentence = some d → d.tree.label = rootLabel ∧
      ∃ u, Assembled (annotatedExpansions ts) (annotatedTags ts) u ∧ u.binarize = d.tree := by
  refine ⟨_, train_eq ts, fun sentence d hd => ?_⟩
  obtain ⟨hlabel, hleaf, hlicensed⟩ := Grammar.licensed_of_derive? hd
  have hrules : ∀ r ∈ ((ProductionCounts.empty.addAll ((ts.map Tree.annotate).flatMap Tree.productions)).rules :
      List (Rule ρ)), ∃ e ∈ annotatedExpansions ts, r.production ∈ e.chain := fun r hr =>
    List.mem_flatMap.1 ((productions_annotate_perm ts).mem_iff.1 (ProductionCounts.mem_rules_iff.1 hr).1)
  have hpieced := Pieced.of_licensed hrules (fun _ => mem_tags_ofTrees_iff.1) hleaf hlicensed
  have hroot : Plain d.tree.label := by
    rw [hlabel]
    decide
  exact ⟨hlabel, hpieced.exists_binarize (isPlain_annotatedExpansions hplain) (plain_annotatedTags hplain) hroot⟩

/-- Every phrase of a derivation, with the inserted nodes spliced out, has a label and children that a phrase of an
annotated training tree has, and every tag in it is a tag of an annotated training tree. -/
theorem seen_of_derive? (ts : Forest) (hplain : ∀ t ∈ ts, t.EverySymbol Plain)
    (hhead : ∀ t ∈ ts, t.EveryInner fun l => l.toList.head? ≠ some '@') : ∃ m : Model ρ κ, train ts = .ok m ∧
    ∀ sentence d, m.derive? sentence = some d →
      (∀ s ∈ d.tree.splice.phrases, ∃ t ∈ ts, ∃ u ∈ t.annotateParents.phrases, u.expansion = s.expansion) ∧
      ∀ tag ∈ d.tree.splice.tags, ∃ t ∈ ts, tag ∈ t.annotateParents.tags := by
  obtain ⟨m, hm, hderive⟩ := exists_assembled (ρ := ρ) (κ := κ) hplain
  refine ⟨m, hm, fun sentence d hd => ?_⟩
  obtain ⟨-, u, hu, hbinarize⟩ := hderive sentence d hd
  obtain ⟨hparents, htags⟩ := everyInner_seen fun t ht => (hhead t ht).head_annotateParents
  rw [← hbinarize, hu.splice_binarize hparents htags]
  exact ⟨fun s hs => mem_annotatedExpansions_iff.1 (hu.expansion_mem s hs),
    fun tag htag => List.mem_flatMap.1 (hu.tags_subset htag)⟩

/-- Two trees with wide noun phrases, and a word that looks like the label of an inserted node. -/
def nounPhraseTrees : Forest :=
  [.node "ROOT" [.node "NP" [.preterminal "D" "the", .preterminal "J" "old", .preterminal "N" "@dog_s"],
      .preterminal "V" "barks"],
    .node "ROOT" [.node "NP" [.preterminal "D" "a", .preterminal "J" "grey", .preterminal "N" "cat"],
      .preterminal "V" "sleeps"]]

/-- A derivation with words of both trees. -/
def mixedDerivation : Tree :=
  .node "ROOT" [.node "NP^ROOT" [.preterminal "D^NP" "a",
      .node "@NP^ROOT->_D^NP" [.preterminal "J^NP" "old", .preterminal "N^NP" "@dog_s"]],
    .preterminal "V^ROOT" "sleeps"]

theorem exists_mixedDerivation {m : Model ℚ ℤ} (h : train nounPhraseTrees = .ok m) :
    ∃ d, m.derive? ["a", "old", "@dog_s", "sleeps"] = some d ∧ d.tree = mixedDerivation := by
  have hderive : ((train nounPhraseTrees : Except Error (Model ℚ ℤ)).toOption.bind fun m =>
      (m.derive? ["a", "old", "@dog_s", "sleeps"]).map Derivation.tree) = some mixedDerivation := by decide +kernel
  rw [h] at hderive
  exact Option.map_eq_some_iff.1 hderive

theorem seen_of_derive?_mixed : (∀ t ∈ nounPhraseTrees, t.EverySymbol Plain) ∧
    (∀ t ∈ nounPhraseTrees, t.EveryInner fun l => l.toList.head? ≠ some '@') ∧
    ∃ m : Model ℚ ℤ, train nounPhraseTrees = .ok m ∧
      ∃ d, m.derive? ["a", "old", "@dog_s", "sleeps"] = some d ∧ d.tree = mixedDerivation ∧
        (∀ s ∈ mixedDerivation.splice.phrases, ∃ t ∈ nounPhraseTrees, ∃ u ∈ t.annotateParents.phrases,
          u.expansion = s.expansion) ∧
        ∀ tag ∈ mixedDerivation.splice.tags, ∃ t ∈ nounPhraseTrees, tag ∈ t.annotateParents.tags := by
  have hplain : ∀ t ∈ nounPhraseTrees, t.EverySymbol Plain := by
    unfold Tree.EverySymbol; decide +kernel
  have hhead : ∀ t ∈ nounPhraseTrees, t.EveryInner fun l => l.toList.head? ≠ some '@' := by
    unfold Tree.EveryInner; decide +kernel
  obtain ⟨m, hm, hseen⟩ := seen_of_derive? (ρ := ℚ) (κ := ℤ) nounPhraseTrees hplain hhead
  obtain ⟨d, hd, hmixed⟩ := exists_mixedDerivation hm
  exact ⟨hplain, hhead, m, hm, d, hd, hmixed, hmixed ▸ hseen _ d hd⟩

/-- Annotating the parse of a sentence gives the derivation that it was read off from. -/
theorem annotate_parse? (ts : Forest) (htagged : ∀ t ∈ ts, t.LeavesTagged)
    (hlabels : ∀ t ∈ ts, t.EveryInner Unmarked) : ∃ m : Model ρ κ, train ts = .ok m ∧
    (∀ sentence d, m.derive? sentence = some d → d.tree.unannotate.annotate = d.tree) ∧
    ∀ sentence, (m.parse? sentence).map Tree.annotate = (m.derive? sentence).map Derivation.tree := by
  have hplain : ∀ t ∈ ts, t.EverySymbol Plain := fun t ht =>
    (htagged t ht).everySymbol fun s hs hleaf => (hlabels t ht s hs hleaf).plain
  have hnamed : ∀ e ∈ annotatedExpansions ts, e.NamesParent := by
    intro e he
    obtain ⟨t, ht, s, hs, rfl⟩ := mem_annotatedExpansions_iff.1 he
    exact Tree.namesParent_annotateParents (htagged t ht) (hlabels t ht) s hs
  have hhead : ∀ t ∈ ts, t.EveryInner fun l => l.toList.head? ≠ some '@' := fun t ht s hs hleaf =>
    (hlabels t ht s hs hleaf).head_ne
  obtain ⟨hparents, htags⟩ := everyInner_seen fun t ht => (hhead t ht).head_annotateParents
  obtain ⟨m, hm, hderive⟩ := exists_assembled (ρ := ρ) (κ := κ) hplain
  have hback : ∀ sentence d, m.derive? sentence = some d → d.tree.unannotate.annotate = d.tree := by
    intro sentence d hd
    obtain ⟨hlabel, u, hu, hbinarize⟩ := hderive sentence d hd
    have hroot : u.label = rootLabel := by rw [← hlabel, ← hbinarize, Tree.label_binarize]
    rw [← hbinarize]
    exact hu.annotate_unannotate hnamed hparents htags (by rw [hroot]; decide +kernel)
  refine ⟨m, hm, hback, fun sentence => ?_⟩
  rw [parse?, Option.map_map]
  exact Option.map_congr fun d hd => hback sentence d hd

theorem annotate_parse?_mixed : (∀ t ∈ nounPhraseTrees, t.LeavesTagged) ∧
    (∀ t ∈ nounPhraseTrees, t.EveryInner Unmarked) ∧ ∃ m : Model ℚ ℤ, train nounPhraseTrees = .ok m ∧
      (m.parse? ["a", "old", "@dog_s", "sleeps"]).map Tree.annotate = some mixedDerivation := by
  have htagged : ∀ t ∈ nounPhraseTrees, t.LeavesTagged := by
    unfold Tree.LeavesTagged; decide +kernel
  have hlabels : ∀ t ∈ nounPhraseTrees, t.EveryInner Unmarked := by
    unfold Tree.EveryInner; decide +kernel
  obtain ⟨m, hm, -, hback⟩ := annotate_parse? (ρ := ℚ) (κ := ℤ) nounPhraseTrees htagged hlabels
  obtain ⟨d, hd, hmixed⟩ := exists_mixedDerivation hm
  exact ⟨htagged, hlabels, m, hm, by rw [hback, hd, Option.map_some, hmixed]⟩

end Model

end Constituency
