/-
The tree that the baseline parser builds when it knows none. The nodes that training counts are the phrases that do not
stand for the whole sentence, each under the number of units that it covers (`Tree.phrases_widths`), so that the label of
a width is the one that most of the phrases of that width have, or of all phrases if there are none of that width
(`Baseline.isLabelOfWidth`). In the tree that is built, the node over the last words of the sentence has the label of
their number (`Baseline.bestParse_rightBranching`). The tables of labels can be looked through in any order.
-/
import Constituency.Proofs.Annotation.Chain
import Constituency.Proofs.Parser.Reuse
import Constituency.Proofs.Score.Constituents

namespace Constituency

/-! ## Phrases and their widths -/

/-- The number of units of a tree, which are its preterminals and the leaves outside preterminals. -/
def Tree.unitCount (t : Tree) : Nat := (t.places none).countP Tree.Place.isUnit

/-- A phrase with the number of units that it covers. -/
def Tree.asPhrase (t : Tree) : Phrase := ⟨t.label, t.unitCount⟩

/-- The scoring in which all units have a width and all phrases are brackets. -/
def Scoring.plain : Scoring := ⟨[], []⟩

mutual

theorem Tree.stop_brackets_plain (start : Nat) : ∀ t : Tree,
    (t.brackets .plain start).stop = start + t.widths.width
  | .node l ts => by
    rw [Tree.brackets, Tree.widths]
    split
    · rfl
    · exact Forest.stop_brackets_plain start ts

theorem Forest.stop_brackets_plain (start : Nat) : ∀ ts : Forest,
    (Forest.brackets .plain start ts).stop = start + (Forest.widths ts).width
  | [] => rfl
  | t :: ts => by
    rw [Forest.brackets, Forest.widths]
    dsimp only
    rw [Forest.stop_brackets_plain _ ts, Tree.stop_brackets_plain start t, Nat.add_assoc]

end

theorem Tree.width_widths (t : Tree) : t.widths.width = t.unitCount := by
  have hstop := Tree.stop_brackets .plain 0 t t.apart_root
  rw [Tree.stop_brackets_plain, Nat.zero_add, Nat.zero_add] at hstop
  rw [hstop, unitCount]
  exact List.countP_congr fun x _ => by simp [Scoring.counts, Scoring.plain]

mutual

/-- What training counts in a tree are its phrases other than those over a whole sentence. -/
theorem Tree.phrases_widths : ∀ t : Tree,
    t.widths.phrases = (t.phrases.filter (·.label ≠ rootLabel)).map Tree.asPhrase
  | .node l ts => by
    cases hlex : (Tree.node l ts).isLexical with
    | true =>
      rw [Tree.widths, if_pos hlex, Tree.phrases_of_isLexical hlex]
      rfl
    | false =>
      have hwidth : (Forest.widths ts).width = (Tree.node l ts).unitCount := by
        rw [← Tree.width_widths, Tree.widths, if_neg (by simp [hlex])]
      rw [Tree.widths, if_neg (by simp [hlex]), Tree.phrases_node hlex]
      dsimp only
      rw [Forest.phrases_widths ts, hwidth]
      by_cases hl : l = rootLabel
      · simp [hl]
      · simp [hl, Tree.asPhrase]

theorem Forest.phrases_widths : ∀ ts : Forest,
    (Forest.widths ts).phrases = ((ts.flatMap Tree.phrases).filter (·.label ≠ rootLabel)).map Tree.asPhrase
  | [] => rfl
  | t :: ts => by
    rw [Forest.widths]
    dsimp only
    rw [Tree.phrases_widths t, Forest.phrases_widths ts, List.flatMap_cons, List.filter_append, List.map_append]

end

/-! ## Labels -/

/-- The nodes of some trees that are not leaves, not preterminals and not labelled as a whole sentence. -/
def Forest.labelled (ts : Forest) : Forest := (ts.flatMap Tree.phrases).filter (·.label ≠ rootLabel)

/-- The labels of these nodes, one for each node. -/
def Forest.labels (ts : Forest) : List String := (Forest.labelled ts).map Tree.label

/-- The labels of those nodes that cover a number of units. -/
def Forest.labelsOfWidth (ts : Forest) (width : Nat) : List String :=
  ((Forest.labelled ts).filter (·.unitCount = width)).map Tree.label

theorem Forest.labelsOfWidth_eq_nil {ts : Forest} (h : Forest.labels ts = []) (width : Nat) :
    Forest.labelsOfWidth ts width = [] := by
  simp [labelsOfWidth, List.map_eq_nil_iff.1 h]

/-- The label for a width: the mode of that width, or else of all widths, or else the default. -/
inductive IsLabelOfWidth (ts : Forest) (width : Nat) : String → Prop
  | ofWidth {l : String} (h : IsMode (Forest.labelsOfWidth ts width) l) : IsLabelOfWidth ts width l
  | ofAll {l : String} (none : Forest.labelsOfWidth ts width = []) (h : IsMode (Forest.labels ts) l) :
      IsLabelOfWidth ts width l
  | default (none : Forest.labels ts = []) : IsLabelOfWidth ts width "S"

theorem IsLabelOfWidth.unique {ts : Forest} {width : Nat} {l m : String} (hl : IsLabelOfWidth ts width l)
    (hm : IsLabelOfWidth ts width m) : l = m := by
  have hsome {xs : List String} {a : String} (h : IsMode xs a) : xs ≠ [] := List.ne_nil_of_mem h.1
  cases hl with
  | ofWidth hl =>
    cases hm with
    | ofWidth hm => exact hl.unique hm
    | ofAll none _ => exact absurd none (hsome hl)
    | default none => exact absurd (Forest.labelsOfWidth_eq_nil none width) (hsome hl)
  | ofAll none hl =>
    cases hm with
    | ofWidth hm => exact absurd none (hsome hm)
    | ofAll _ hm => exact hl.unique hm
    | default none => exact absurd none (hsome hl)
  | default none =>
    cases hm with
    | ofWidth hm => exact absurd (Forest.labelsOfWidth_eq_nil none width) (hsome hm)
    | ofAll _ hm => exact absurd none (hsome hm)
    | default _ => rfl

namespace Baseline

theorem phrases_eq (ts : Forest) :
    (ts.flatMap fun t => t.widths.phrases) = (Forest.labelled ts).map Tree.asPhrase := by
  simp only [Tree.phrases_widths, Forest.labelled, List.filter_flatMap, List.map_flatMap]

theorem labels_train (ts : Forest) : (train ts).labels = Tally.empty.addAll (Forest.labels ts) := by
  rw [train, phrases_eq, List.map_map]
  rfl

theorem getD_foldl_addPhrase (width : Nat) : ∀ (ps : List Phrase) (byWidth : Std.TreeMap Nat (Tally String)),
    (ps.foldl addPhrase byWidth).getD width .empty =
      (byWidth.getD width .empty).addAll ((ps.filter (·.width = width)).map Phrase.label)
  | [], _ => rfl
  | p :: ps, byWidth => by
    rw [List.foldl_cons, getD_foldl_addPhrase width ps, addPhrase, Std.TreeMap.getD_insert]
    by_cases h : p.width = width
    · subst h
      simp [Tally.addAll]
    · simp [h]

theorem labelsByWidth_train (ts : Forest) (width : Nat) : (train ts).labelsByWidth.getD width .empty =
    Tally.empty.addAll (Forest.labelsOfWidth ts width) := by
  rw [train, phrases_eq]
  dsimp only
  rw [getD_foldl_addPhrase, List.filter_map, List.map_map, Std.TreeMap.getD_emptyc]
  rfl

/-- The label that a trained parser gives to a width. -/
theorem isLabelOfWidth (ts : Forest) (width : Nat) : IsLabelOfWidth ts width ((train ts).labelOfWidth width) := by
  unfold labelOfWidth
  rw [labelsByWidth_train, labels_train]
  split
  · rename_i l hl
    exact .ofWidth (Tally.isMode_of_mode? hl)
  · rename_i hwidth
    rw [Tally.mode?_eq_none_iff] at hwidth
    cases hall : (Tally.empty.addAll (Forest.labels ts)).mode? with
    | none => exact .default (Tally.mode?_eq_none_iff.1 hall)
    | some l => exact .ofAll hwidth (Tally.isMode_of_mode? hall)

/-- The label of a width when each table of labels is looked through in the order in which it is enumerated. -/
def labelOfWidthIn (enumerate : Tally String → List (String × Nat)) (b : Baseline) (width : Nat) : String :=
  match modeOf? (enumerate (b.labelsByWidth.getD width .empty)) with
  | some l => l
  | none => (modeOf? (enumerate b.labels)).getD defaultLabel

theorem labelOfWidthIn_eq {enumerate : Tally String → List (String × Nat)}
    (h : ∀ t, (enumerate t).Perm t.toList) (b : Baseline) (width : Nat) :
    b.labelOfWidthIn enumerate width = b.labelOfWidth width := by
  have hwidth := modeOf?_eq_of_perm (h (b.labelsByWidth.getD width .empty))
  have hall := modeOf?_eq_of_perm (h b.labels)
  unfold labelOfWidthIn labelOfWidth
  cases hmode : (b.labelsByWidth.getD width .empty).mode? with
  | none => rw [hwidth, hall, hmode]
  | some l => rw [hwidth, hmode]

end Baseline

/-! ## Combs -/

/-- A tree over tagged words that branches to the right, in which a node over several words has a label for their
number. -/
inductive IsComb (label : Nat → String → Prop) : List Tagging → Tree → Prop
  | last (x : Tagging) : IsComb label [x] (.preterminal x.tag x.word)
  | branch {x : Tagging} {xs : List Tagging} {l : String} {t : Tree} (h : label (x :: xs).length l)
      (more : IsComb label xs t) : IsComb label (x :: xs) (.node l [.preterminal x.tag x.word, t])

/-- The words and the labels determine the tree. -/
theorem IsComb.unique {label : Nat → String → Prop} {xs : List Tagging} {t u : Tree} (ht : IsComb label xs t)
    (hu : IsComb label xs u) (hlabel : ∀ width l m, label width l → label width m → l = m) : t = u := by
  induction ht generalizing u with
  | last x =>
    cases hu with
    | last => rfl
    | branch _ more => cases more
  | branch hl more ih =>
    cases hu with
    | last => cases more
    | branch hm more' => rw [hlabel _ _ _ hl hm, ih more']

namespace Baseline

theorem isComb_comb {label : Nat → String → Prop} {b : Baseline} (h : ∀ width, label width (b.labelOfWidth width)) :
    ∀ (first : Tagging) (rest : List Tagging), IsComb label (first :: rest) (b.comb first rest)
  | first, [] => .last first
  | first, second :: rest => .branch (h (first :: second :: rest).length) (isComb_comb h second rest)

/-! ## Parsing -/

section Parsing

variable {ρ κ : Type} [NatCast ρ] [Add ρ] [Mul ρ] [Div ρ] [LinearOrder ρ] [Surprisal ρ κ]
  [Add κ] [LT κ] [DecidableLT κ] [BEq κ] {ts : Forest} {sentence : List String}

theorem known?_eq_none {tags : List String} (h : ∀ t ∈ ts, t.LeavesTagged → t.tags ≠ tags) :
    (train ts).known? tags = none := by
  by_contra hsome
  obtain ⟨t, ht⟩ := Option.ne_none_iff_exists'.1 hsome
  obtain ⟨hmem, ⟨htagged, htags⟩, -⟩ := (records_known ts tags).of_mode? ht
  exact h t hmem htagged htags

/-- Without a known tree the words are put under their tags, and a comb over them. -/
theorem parse?_of_unknown {tags : List String} (hsentence : sentence ≠ [])
    (hbest : List.Forall₂ (IsBestTag ρ (Lexicon.ofTrees ts)) sentence tags)
    (hknown : (train ts).known? tags = none) :
    (train ts).parse? ρ sentence = (train ts).rightBranching? (sentence.zipWith Tagging.mk tags) := by
  unfold parse?
  rw [mapM_bestTag?_iff.2 hbest]
  simp [hsentence, hknown]

/-- A sentence whose best tags no training tree has over all its leaves becomes a comb over its tagged words below the
root. A node over several words has the label that most phrases of that width have in training, or most phrases of any
width, or the default one, and the smallest of several such labels. -/
theorem bestParse_rightBranching (htagged : ∃ t ∈ ts, ∃ s ∈ t.subtrees, s.isPreterminal = true)
    (hsentence : sentence ≠ [])
    (hunknown : ∀ t ∈ ts, t.LeavesTagged → ¬List.Forall₂ (IsBestTag ρ (Lexicon.ofTrees ts)) sentence t.tags) :
    ∃ (p : Parser ρ κ) (tags : List String) (comb : Tree), (Parser.untrained .baseline).train ts = .ok p ∧
      List.Forall₂ (IsBestTag ρ (Lexicon.ofTrees ts)) sentence tags ∧
      p.bestParse sentence = .ok (some (.node rootLabel [comb])) ∧
      IsComb (IsLabelOfWidth ts) (sentence.zipWith Tagging.mk tags) comb ∧
      ∀ enumerate : Tally String → List (String × Nat), (∀ t, (enumerate t).Perm t.toList) →
        IsComb (fun width l => l = (train ts).labelOfWidthIn enumerate width) (sentence.zipWith Tagging.mk tags) comb := by
  obtain ⟨tags, htags⟩ := exists_mapM fun word (_ : word ∈ sentence) =>
    exists_bestTag? (ρ := ρ) (b := train ts) (exists_mem_tags_iff.2 htagged) word
  have hbest := mapM_bestTag?_iff.1 htags
  have hknown : (train ts).known? tags = none :=
    known?_eq_none fun t ht hleaves heq => hunknown t ht hleaves (heq ▸ hbest)
  have hparse := parse?_of_unknown hsentence hbest hknown
  match sentence, tags, hbest.length_eq with
  | word :: words, tag :: tags, _ =>
    refine ⟨.baseline (some (train ts)), tag :: tags, _, rfl, hbest, congrArg Except.ok hparse, ?_, ?_⟩
    · exact isComb_comb (isLabelOfWidth ts) ⟨word, tag⟩ _
    · intro enumerate henumerate
      exact isComb_comb (fun width => (labelOfWidthIn_eq henumerate _ width).symm) ⟨word, tag⟩ _

/-- Trees of few words. Most of the phrases over two units are noun phrases, those over three are of two kinds, and
a leaf without a tag is one of the four units of another. -/
def shortTrees : Forest :=
  [.node "ROOT" [.node "S" [.node "NP" [.preterminal "D" "the", .preterminal "N" "dog"],
      .node "VP" [.preterminal "V" "barks"]]],
    .node "FRAG" [.node "NP" [.preterminal "D" "the", .preterminal "N" "cat"], .preterminal "V" "saw", .leaf "stray"],
    .node "VP" [.preterminal "V" "saw", .node "PP" [.preterminal "D" "that", .preterminal "N" "dog"]]]

theorem bestParse_rightBranching_shortTrees :
    (∃ t ∈ shortTrees, ∃ s ∈ t.subtrees, s.isPreterminal = true) ∧
      (∀ t ∈ shortTrees, t.LeavesTagged → ¬List.Forall₂ (IsBestTag ℚ (Lexicon.ofTrees shortTrees))
        ["the", "dog", "saw", "the", "cat"] t.tags) ∧
      ∃ p : Parser ℚ ℤ, (Parser.untrained .baseline).train shortTrees = .ok p ∧
        p.bestParse ["the", "dog", "saw", "the", "cat"] =
          .ok (some (.node "ROOT" [.node "NP" [.preterminal "D" "the", .node "FRAG" [.preterminal "N" "dog",
            .node "S" [.preterminal "V" "saw", .node "NP" [.preterminal "D" "the", .preterminal "N" "cat"]]]]])) := by
  have htagged : ∃ t ∈ shortTrees, ∃ s ∈ t.subtrees, s.isPreterminal = true := by decide +kernel
  have hunknown : ∀ t ∈ shortTrees, t.LeavesTagged → ¬List.Forall₂ (IsBestTag ℚ (Lexicon.ofTrees shortTrees))
      ["the", "dog", "saw", "the", "cat"] t.tags := by
    have hshort : ∀ t ∈ shortTrees, t.tags.length ≠ 5 := by decide +kernel
    exact fun t ht _ hbest => hshort t ht hbest.length_eq.symm
  obtain ⟨p, tags, comb, hp, hbest, hparse, hcomb, -⟩ :=
    bestParse_rightBranching (ρ := ℚ) (κ := ℤ) htagged (List.cons_ne_nil _ _) hunknown
  have htags : ["the", "dog", "saw", "the", "cat"].mapM ((train shortTrees).bestTag? ℚ) =
      some ["D", "N", "V", "D", "N"] := by decide +kernel
  obtain rfl : ["D", "N", "V", "D", "N"] = tags := Option.some.inj (htags.symm.trans (mapM_bestTag?_iff.2 hbest))
  have htwo : IsLabelOfWidth shortTrees 2 "NP" := .ofWidth (by unfold IsMode; decide +kernel)
  have hthree : IsLabelOfWidth shortTrees 3 "S" := .ofWidth (by unfold IsMode; decide +kernel)
  have hfour : IsLabelOfWidth shortTrees 4 "FRAG" := .ofWidth (by unfold IsMode; decide +kernel)
  -- none is that wide, and over all widths there are as many noun phrases as verb phrases
  have hfive : IsLabelOfWidth shortTrees 5 "NP" := .ofAll (by decide +kernel) (by unfold IsMode; decide +kernel)
  have hbuilt : IsComb (IsLabelOfWidth shortTrees) [⟨"the", "D"⟩, ⟨"dog", "N"⟩, ⟨"saw", "V"⟩, ⟨"the", "D"⟩, ⟨"cat", "N"⟩]
      (.node "NP" [.preterminal "D" "the", .node "FRAG" [.preterminal "N" "dog",
        .node "S" [.preterminal "V" "saw", .node "NP" [.preterminal "D" "the", .preterminal "N" "cat"]]]]) :=
    .branch hfive (.branch hfour (.branch hthree (.branch htwo (.last ⟨"cat", "N"⟩))))
  obtain rfl := hcomb.unique hbuilt fun _ _ _ => IsLabelOfWidth.unique
  exact ⟨htagged, hunknown, p, hp, hparse⟩

end Parsing

end Baseline

end Constituency
