/-
Which known tree the baseline parser takes. A tree is known when each of its leaves has a tag. A sentence whose best
tags are those of known trees gets the one of them that has the most copies among the training trees, and of several the
one whose first copy comes first (`Baseline.bestParse_reuses`).
-/
import Constituency.Proofs.Parser.Sentences

namespace Constituency

namespace Baseline

variable {ρ κ : Type} [NatCast ρ] [Add ρ] [Mul ρ] [Div ρ] [LinearOrder ρ] [Surprisal ρ κ]
  [Add κ] [LT κ] [DecidableLT κ] [BEq κ] {ts : Forest} {sentence : List String}

/-- A sentence whose best tags are those of a training tree with all leaves tagged is put on the leaves of such a tree,
the one with the most copies among the training trees and, of several, the one whose first copy comes first. -/
theorem bestParse_reuses {tags : List String} (hsentence : sentence ≠ [])
    (hbest : List.Forall₂ (IsBestTag ρ (Lexicon.ofTrees ts)) sentence tags)
    (hknown : ∃ t ∈ ts, t.LeavesTagged ∧ t.tags = tags) :
    ∃ (p : Parser ρ κ) (t : Tree), (Parser.untrained .baseline).train ts = .ok p ∧
      p.bestParse sentence = .ok (some (t.withWords sentence)) ∧ (t.withWords sentence).words = sentence ∧
      t.withWords? sentence = some (t.withWords sentence) ∧ t ∈ ts ∧ t.LeavesTagged ∧ t.tags = tags ∧
      ∀ u ∈ ts, u.LeavesTagged → u.tags = tags → u ≠ t →
        ts.count u < ts.count t ∨ ts.count u = ts.count t ∧ ts.idxOf t < ts.idxOf u := by
  obtain ⟨s, hs, hcounted⟩ := hknown
  have hrecords := records_known ts tags
  obtain ⟨t, ht⟩ := hrecords.exists_mode? hs hcounted
  obtain ⟨hmem, ⟨htagged, htags⟩, hmost⟩ := hrecords.of_mode? ht
  obtain ⟨hfits, hparse⟩ := parse?_of_known? (ρ := ρ) hsentence hbest (show (train ts).known? tags = some t from ht)
  exact ⟨.baseline (some (train ts)), t, rfl, congrArg Except.ok hparse, (tagged_of_parse? hparse).1, hfits, hmem,
    htagged, htags, fun u hu hleaves hsame => hmost u hu ⟨hleaves, hsame⟩⟩

/-- A sentence in which the article is a noun phrase of its own. -/
def articlePhrase : Tree := .node "S" [.node "NP" [.preterminal "D" "the"], .preterminal "N" "dog"]

/-- Trees with the same tags: one copy of the first, and two each of the next and of the last. A word of the tree
between them has no tag. -/
def copiedTrees : Forest :=
  [.node "NP" [.preterminal "D" "some", .preterminal "N" "dog"], articlePhrase,
    .node "S" [.preterminal "D" "the", .leaf "stray"],
    .node "NP" [.preterminal "D" "a", .preterminal "N" "cat"],
    .node "NP" [.preterminal "D" "a", .preterminal "N" "cat"], articlePhrase]

theorem bestParse_reuses_copied :
    List.Forall₂ (IsBestTag ℚ (Lexicon.ofTrees copiedTrees)) ["a", "dog"] ["D", "N"] ∧ articlePhrase ∈ copiedTrees ∧
      articlePhrase.LeavesTagged ∧ articlePhrase.tags = ["D", "N"] ∧
      ∃ p : Parser ℚ ℤ, (Parser.untrained .baseline).train copiedTrees = .ok p ∧
        p.bestParse ["a", "dog"] =
          .ok (some (.node "S" [.node "NP" [.preterminal "D" "a"], .preterminal "N" "dog"])) := by
  have hbest : List.Forall₂ (IsBestTag ℚ (Lexicon.ofTrees copiedTrees)) ["a", "dog"] ["D", "N"] :=
    mapM_bestTag?_iff (b := train copiedTrees) |>.1 (by decide +kernel)
  have hmem : articlePhrase ∈ copiedTrees := by decide +kernel
  have htagged : articlePhrase.LeavesTagged := by unfold Tree.LeavesTagged; decide +kernel
  obtain ⟨p, t, hp, hparse, -, -, ht, -, -, hmost⟩ :=
    bestParse_reuses (ρ := ℚ) (κ := ℤ) (by decide) hbest ⟨articlePhrase, hmem, htagged, rfl⟩
  have ht : t = articlePhrase := by
    by_contra hne
    have hothers : ∀ u ∈ copiedTrees, u ≠ articlePhrase →
        ¬(copiedTrees.count articlePhrase < copiedTrees.count u ∨
          copiedTrees.count articlePhrase = copiedTrees.count u ∧
            copiedTrees.idxOf u < copiedTrees.idxOf articlePhrase) := by decide +kernel
    exact hothers t ht hne (hmost articlePhrase hmem htagged rfl (Ne.symm hne))
  subst ht
  exact ⟨hbest, hmem, htagged, rfl, p, hp, hparse⟩

end Baseline

end Constituency
