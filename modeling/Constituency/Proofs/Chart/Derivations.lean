/-
What a derivation is, in terms of rules and of a scorer alone (`Derives`): its tree, and its cost as a chart
adds it up. No chart and no numbering of symbols takes part in it, so that charts can be measured by it.
-/
import Constituency.Lexicon.TagScorer
import Constituency.Proofs.Grammar.Cost

namespace Constituency

/-! ## Words of a span -/

section Extract

variable {α : Type} {xs : List α} {i j : Nat}

theorem extract_append_extract (xs : List α) {k : Nat} (hik : i ≤ k) (hkj : k ≤ j) :
    xs.extract i k ++ xs.extract k j = xs.extract i j := by
  simp only [List.extract_eq_take_drop]
  obtain ⟨m, rfl⟩ := Nat.exists_eq_add_of_le hik
  obtain ⟨n, rfl⟩ := Nat.exists_eq_add_of_le hkj
  rw [show i + m - i = m by omega, show i + m + n - (i + m) = n by omega, show i + m + n - i = m + n by omega,
    List.take_add, List.drop_drop]

theorem length_extract (hj : j ≤ xs.length) : (xs.extract i j).length = j - i := by
  rw [List.extract_eq_take_drop, List.length_take, List.length_drop]
  omega

/-- The two parts of the words of a span are the words of two spans that meet. -/
theorem eq_extract_of_append {us vs : List α} (h : us ++ vs = xs.extract i j) (hij : i ≤ j) (hj : j ≤ xs.length) :
    i + us.length + vs.length = j ∧ us = xs.extract i (i + us.length) ∧ vs = xs.extract (i + us.length) j := by
  have hlength : us.length + vs.length = j - i := by
    rw [← length_extract hj, ← h, List.length_append]
  have hsplit := extract_append_extract xs (show i ≤ i + us.length by omega) (show i + us.length ≤ j by omega)
  rw [← h] at hsplit
  have hus : (xs.extract i (i + us.length)).length = us.length := by
    rw [length_extract (by omega)]; omega
  obtain ⟨h1, h2⟩ := List.append_inj hsplit hus
  exact ⟨by omega, h1.symm, h2.symm⟩

theorem eq_of_singleton_extract {x : α} (h : [x] = xs.extract i j) (hj : j ≤ xs.length) :
    j = i + 1 ∧ xs[i]? = some x := by
  have hlength : 1 = j - i := by rw [← length_extract hj, ← h]; rfl
  refine ⟨by omega, ?_⟩
  have hhead := congrArg (fun ys => ys[0]?) h
  simpa [List.extract_eq_take_drop, ← hlength, List.getElem?_take] using hhead.symm

theorem extract_succ {x : α} (h : xs[i]? = some x) : xs.extract i (i + 1) = [x] := by
  obtain ⟨hi, rfl⟩ := List.getElem?_eq_some_iff.1 h
  rw [List.extract_eq_take_drop, show i + 1 - i = 1 by omega, List.drop_eq_getElem_cons hi]
  rfl

end Extract

/-! ## Derivations -/

section Derives

variable {ρ κ : Type} [NatCast ρ] [LT ρ] [Surprisal ρ κ] [Add κ]

/-- A tree derives its words from its label, at a cost: preterminals are tags of the scorer that some rule
mentions, with a positive score, and the other nodes apply possible rules. -/
inductive Derives (rules : List (Rule ρ)) (scorer : TagScorer ρ) : Tree → κ → Prop
  | tagging {tag word : String} : tag ∈ scorer.tags → (∃ r ∈ rules, tag ∈ r.production.symbols) →
      ((0 : Nat) : ρ) < scorer.score word tag →
      Derives rules scorer (.preterminal tag word) (surprisal (scorer.score word tag))
  | unary {r : Rule ρ} {parent : String} {t : Tree} {c : κ} : r ∈ rules →
      r.production = .unary parent t.label → ((0 : Nat) : ρ) < r.probability → Derives rules scorer t c →
      Derives rules scorer (.node parent [t]) (c + surprisal r.probability)
  | binary {r : Rule ρ} {parent : String} {s t : Tree} {c d : κ} : r ∈ rules →
      r.production = .binary parent s.label t.label → ((0 : Nat) : ρ) < r.probability →
      Derives rules scorer s c → Derives rules scorer t d →
      Derives rules scorer (.node parent [s, t]) (c + d + surprisal r.probability)

/-- The costs of all derivations of some words from a label. -/
def derivationCosts (κ : Type) [Surprisal ρ κ] [Add κ] (rules : List (Rule ρ)) (scorer : TagScorer ρ)
    (label : String) (words : List String) : Set κ :=
  {c | ∃ t, Derives rules scorer t c ∧ t.label = label ∧ t.words = words}

theorem Derives.words_ne_nil {rules : List (Rule ρ)} {scorer : TagScorer ρ} {t : Tree} {c : κ}
    (h : Derives rules scorer t c) : t.words ≠ [] := by
  induction h with
  | tagging => simp [Tree.preterminal, Tree.leaf, Tree.words, Forest.words]
  | unary _ _ _ _ ih => simpa [Tree.words, Forest.words] using ih
  | binary _ _ _ _ _ ih _ => simp [Tree.words, Forest.words, ih]

end Derives

end Constituency
