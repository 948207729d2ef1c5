/-
The heaviest element of a list is the first of those of greatest weight (`eq_append_of_heaviest`). In a list that has
some order it comes before the others of them in that order (`lighter_or_behind`).
-/
import Constituency.Counting.Choice
import Mathlib.Data.List.Induction
import Mathlib.Tactic

namespace Constituency

variable {α β : Type} [LinearOrder β] {weight : α → β} {xs : List α} {a : α}

theorem heaviest_concat (weight : α → β) (xs : List α) (x : α) :
    heaviest weight (xs ++ [x]) = heavier weight (heaviest weight xs) x :=
  List.foldl_concat ..

theorem heaviest_eq_none_iff : heaviest weight xs = none ↔ xs = [] := by
  induction xs using List.reverseRecOn with
  | nil => simp [heaviest]
  | append_singleton xs x ih =>
    rw [heaviest_concat]
    unfold heavier
    split
    · simp
    · split <;> simp

/-- Everything in front of the chosen element is lighter, and nothing behind it is heavier. -/
theorem eq_append_of_heaviest (h : heaviest weight xs = some a) : ∃ before after, xs = before ++ a :: after ∧
    (∀ b ∈ before, weight b < weight a) ∧ ∀ b ∈ after, weight b ≤ weight a := by
  induction xs using List.reverseRecOn generalizing a with
  | nil => cases h
  | append_singleton xs x ih =>
    rw [heaviest_concat] at h
    cases hbest : heaviest weight xs with
    | none =>
      rw [hbest] at h
      cases h
      rw [heaviest_eq_none_iff.1 hbest]
      exact ⟨[], [], rfl, by simp, by simp⟩
    | some b =>
      obtain ⟨before, after, rfl, hbefore, hafter⟩ := ih hbest
      rw [hbest, heavier] at h
      split at h
      · rename_i hlt
        cases h
        refine ⟨before ++ b :: after, [], rfl, fun c hc => ?_, by simp⟩
        rcases List.mem_append.1 hc with hc | hc
        · exact lt_trans (hbefore c hc) hlt
        · rcases List.mem_cons.1 hc with rfl | hc
          · exact hlt
          · exact lt_of_le_of_lt (hafter c hc) hlt
      · rename_i hle
        cases h
        refine ⟨before, after ++ [x], by simp, hbefore, fun c hc => ?_⟩
        rcases List.mem_append.1 hc with hc | hc
        · exact hafter c hc
        · rw [List.mem_singleton.1 hc]
          exact not_lt.1 hle

/-- Of several elements of greatest weight, the one that stands before the others in the order of the list is chosen;
in a sorted list that is the smallest. -/
theorem lighter_or_behind {R : α → α → Prop} (hordered : xs.Pairwise R) (h : heaviest weight xs = some a) :
    ∀ b ∈ xs, b ≠ a → weight b < weight a ∨ weight b = weight a ∧ R a b := by
  obtain ⟨before, after, rfl, hbefore, hafter⟩ := eq_append_of_heaviest h
  intro b hb hne
  rcases List.mem_append.1 hb with hb | hb
  · exact .inl (hbefore b hb)
  · have hb := (List.mem_cons.1 hb).resolve_left hne
    have hbehind := (List.pairwise_cons.1 (List.pairwise_append.1 hordered).2.1).1 b hb
    exact (hafter b hb).lt_or_eq.imp_right fun heq => ⟨heq, hbehind⟩

/-- Of two different elements, not each one is lighter than the other or behind it. -/
theorem eq_of_lighter_or_behind (weight : α → β) (R : α → α → Prop) {b : α} (hasymm : ∀ a b, R a b → ¬R b a)
    (hb : b ≠ a → weight b < weight a ∨ weight b = weight a ∧ R a b)
    (ha : a ≠ b → weight a < weight b ∨ weight a = weight b ∧ R b a) : a = b := by
  by_contra hne
  rcases hb (Ne.symm hne) with hlt | ⟨heq, hbehind⟩
  · rcases ha hne with hgt | ⟨heq, -⟩
    · exact lt_asymm hlt hgt
    · exact hlt.ne' heq
  · rcases ha hne with hgt | ⟨-, hbefore⟩
    · exact hgt.ne' heq
    · exact hasymm _ _ hbehind hbefore

theorem le_of_heaviest (h : heaviest weight xs = some a) : ∀ b ∈ xs, weight b ≤ weight a := by
  obtain ⟨before, after, rfl, hbefore, hafter⟩ := eq_append_of_heaviest h
  intro b hb
  rcases List.mem_append.1 hb with hb | hb
  · exact (hbefore b hb).le
  · rcases List.mem_cons.1 hb with rfl | hb
    · exact le_rfl
    · exact hafter b hb

theorem mem_of_heaviest (h : heaviest weight xs = some a) : a ∈ xs := by
  obtain ⟨before, after, rfl, -, -⟩ := eq_append_of_heaviest h
  simp

end Constituency
