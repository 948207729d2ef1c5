/-
Relative frequencies are distributions. Counting a tree may stop in the middle, and what was counted up to there
stays counted. The counts are balanced all the same: the count of a parent is the sum of the counts of its
productions, no count that is stored is zero, and the parents are those of the productions (`Balanced`). Counting a
production keeps the balance (`Balanced.add`), so that counting a tree keeps it however it ends
(`Balanced.countProductions`). From balanced counts each counted production gets one rule, and the rules of each parent
get probabilities that add up to one (`Balanced.normalized_rules`).
-/
import Constituency.Proofs.Grammar.Counts
import Mathlib.Algebra.BigOperators.Field

namespace Constituency

/-! ## Stored counts -/

namespace Tally

variable {α : Type} [Ord α]

/-- The sum of the stored counts of the values with a property. -/
def total (t : Tally α) (P : α → Bool) : Nat := ((t.toList.filter fun e => P e.1).map Prod.snd).sum

variable [Std.TransOrd α] [Std.LawfulEqOrd α]

theorem mem_toList_iff {t : Tally α} {a : α} {n : Nat} : (a, n) ∈ t.toList ↔ a ∈ t.keys ∧ t.count a = n := by
  unfold toList keys count
  rw [Std.TreeMap.mem_toList_iff_getElem?_eq_some, Std.TreeMap.mem_keys, Std.TreeMap.mem_iff_isSome_getElem?,
    Std.TreeMap.getD_eq_getD_getElem?]
  cases t.counts[a]? <;> simp

theorem toList_eq (t : Tally α) : t.toList = t.keys.map fun a => (a, t.count a) := by
  have hkeys : t.keys = t.toList.map Prod.fst := Std.TreeMap.map_fst_toList_eq_keys.symm
  have hself : t.toList.map (fun e => (e.1, t.count e.1)) = t.toList.map id := by
    refine List.map_congr_left fun e he => ?_
    rw [(mem_toList_iff.1 he).2, id]
  rw [hkeys, List.map_map]
  exact (hself.trans (List.map_id _)).symm

theorem count_eq_zero_of_notMem {t : Tally α} {a : α} (h : a ∉ t.keys) : t.count a = 0 :=
  Std.TreeMap.getD_eq_fallback fun hmem => h (Std.TreeMap.mem_keys.2 hmem)

theorem total_eq_map (t : Tally α) (P : α → Bool) : t.total P = ((t.keys.filter P).map t.count).sum := by
  rw [total, toList_eq, List.filter_map, List.map_map]
  rfl

variable [DecidableEq α]

/-- A total can be taken over any finite set that has all values that were seen. -/
theorem total_eq_sum (t : Tally α) (P : α → Bool) {s : Finset α} (h : t.keys.toFinset ⊆ s) :
    t.total P = ∑ a ∈ s, if P a then t.count a else 0 := by
  rw [total_eq_map, ← List.sum_toFinset _ (t.nodup_keys.filter P), ← Finset.sum_filter]
  refine Finset.sum_subset (fun a ha => ?_) fun a ha hno => ?_
  · obtain ⟨hkey, hP⟩ := List.mem_filter.1 (List.mem_toFinset.1 ha)
    exact Finset.mem_filter.2 ⟨h (List.mem_toFinset.2 hkey), hP⟩
  · refine count_eq_zero_of_notMem fun hkey => hno ?_
    exact List.mem_toFinset.2 (List.mem_filter.2 ⟨hkey, (Finset.mem_filter.1 ha).2⟩)

theorem total_add (t : Tally α) (P : α → Bool) (a : α) :
    (t.add a).total P = t.total P + if P a then 1 else 0 := by
  have hnew : (t.add a).keys.toFinset ⊆ insert a t.keys.toFinset := by
    intro b hb
    rcases (mem_keys_add t a b).1 (List.mem_toFinset.1 hb) with rfl | hb
    · exact Finset.mem_insert_self ..
    · exact Finset.mem_insert_of_mem (List.mem_toFinset.2 hb)
  rw [total_eq_sum _ P hnew, total_eq_sum _ P (Finset.subset_insert a _)]
  -- both sides are sums over the same values, and the one that was added is the term at `a`
  have hone : (if P a then 1 else 0) = ∑ b ∈ insert a t.keys.toFinset, if a = b then (if P b then 1 else 0) else 0 := by
    rw [Finset.sum_ite_eq, if_pos (Finset.mem_insert_self ..)]
  rw [hone, ← Finset.sum_add_distrib]
  refine Finset.sum_congr rfl fun b _ => ?_
  rw [count_add]
  by_cases hab : a = b <;> by_cases hP : P b = true <;> simp [hab, hP]

theorem pos_add {t : Tally α} (h : ∀ e ∈ t.toList, 0 < e.2) (a : α) : ∀ e ∈ (t.add a).toList, 0 < e.2 := by
  rintro ⟨b, n⟩ hb
  obtain ⟨hkey, rfl⟩ := mem_toList_iff.1 hb
  rw [count_add]
  rcases (mem_keys_add t a b).1 hkey with rfl | hkey
  · simp
  · exact Nat.add_pos_left (h _ (mem_toList_iff.2 ⟨hkey, rfl⟩)) _

end Tally

/-! ## Balanced counts -/

namespace ProductionCounts

/-- The sum of the counts of the productions with a parent. -/
def totalUnder (c : ProductionCounts) (l : String) : Nat := c.productions.total fun p => p.parent = l

/-- The counts of parents and productions agree, and what is stored has occurred. -/
structure Balanced (c : ProductionCounts) : Prop where
  count_parent (l : String) : c.parents.count l = c.totalUnder l
  production_pos : ∀ e ∈ c.productions.toList, 0 < e.2
  parent_pos : ∀ e ∈ c.parents.toList, 0 < e.2
  mem_parents_iff (l : String) : l ∈ c.parents.keys ↔ ∃ p ∈ c.productions.keys, p.parent = l

@[simp] theorem productions_add (c : ProductionCounts) (p : Production) :
    (c.add p).productions = c.productions.add p := rfl

@[simp] theorem parents_add (c : ProductionCounts) (p : Production) : (c.add p).parents = c.parents.add p.parent := rfl

theorem totalUnder_add (c : ProductionCounts) (p : Production) (l : String) :
    (c.add p).totalUnder l = c.totalUnder l + if p.parent = l then 1 else 0 := by
  rw [totalUnder, productions_add, Tally.total_add]
  simp [totalUnder]

theorem balanced_empty : empty.Balanced where
  count_parent l := by rw [empty, Tally.count_empty]; rfl
  production_pos e he := by cases he
  parent_pos e he := by cases he
  mem_parents_iff l := by simp [empty]

namespace Balanced

variable {c : ProductionCounts} (h : c.Balanced)

include h

/-- Counting a production keeps the balance. -/
theorem add (p : Production) : (c.add p).Balanced where
  count_parent l := by rw [totalUnder_add, ← h.count_parent l, parents_add, Tally.count_add]
  production_pos := Tally.pos_add h.production_pos p
  parent_pos := Tally.pos_add h.parent_pos p.parent
  mem_parents_iff l := by
    simp only [parents_add, productions_add, Tally.mem_keys_add, h.mem_parents_iff]
    constructor
    · rintro (hl | ⟨q, hq, hl⟩)
      · exact ⟨p, .inl rfl, hl⟩
      · exact ⟨q, .inr hq, hl⟩
    · rintro ⟨q, rfl | hq, hl⟩
      · exact .inl hl
      · exact .inr ⟨q, hq, hl⟩

theorem addAll (ps : List Production) : (c.addAll ps).Balanced := by
  induction ps generalizing c with
  | nil => exact h
  | cons p ps ih => exact ih (h.add p)

/-- Visiting nodes keeps the balance, also when it stops in front of a node with too many children. -/
theorem visit (ts : List Tree) : (c.visit ts).counts.Balanced := by
  induction ts generalizing c with
  | nil => exact h
  | cons t ts ih =>
    rw [ProductionCounts.visit]
    split
    · exact ih (h.addAll _)
    · exact h

theorem countProductions (t : Tree) : (t.countProductions c).counts.Balanced := by
  rw [Tree.countProductions_eq]
  exact h.visit _

/-- One tree after the other may be counted, whichever of them stop. -/
theorem afterCounting (ts : List Tree) : (ts.foldl (fun c t => (t.countProductions c).counts) c).Balanced := by
  induction ts generalizing c with
  | nil => exact h
  | cons t ts ih => exact ih (h.countProductions t)

end Balanced

/-- The counts after counting one tree after the other, each as far as it goes. -/
def tallied (ts : List Tree) : ProductionCounts := ts.foldl (fun c t => (t.countProductions c).counts) empty

theorem balanced_tallied (ts : List Tree) : (tallied ts).Balanced := balanced_empty.afterCounting ts

end ProductionCounts

/-! ## Distributions -/

namespace ProductionCounts

section Counted

variable {ρ : Type} [NatCast ρ] [Div ρ] {c : ProductionCounts} (h : c.Balanced)

include h

theorem Balanced.count_pos {p : Production} (hp : p ∈ c.productions.keys) : 0 < c.productions.count p :=
  h.production_pos (p, _) (Tally.mem_toList_iff.2 ⟨hp, rfl⟩)

theorem Balanced.parents_count_pos {l : String} (hl : l ∈ c.parents.keys) : 0 < c.parents.count l :=
  h.parent_pos (l, _) (Tally.mem_toList_iff.2 ⟨hl, rfl⟩)

theorem Balanced.count_parent_pos {p : Production} (hp : p ∈ c.productions.keys) : 0 < c.parents.count p.parent :=
  h.parents_count_pos ((h.mem_parents_iff _).2 ⟨p, hp, rfl⟩)

theorem Balanced.count_le_count_parent {p : Production} (hp : p ∈ c.productions.keys) :
    c.productions.count p ≤ c.parents.count p.parent := by
  rw [h.count_parent, totalUnder, Tally.total_eq_map]
  refine List.single_le_sum (fun _ _ => Nat.zero_le _) _ (List.mem_map_of_mem (List.mem_filter.2 ⟨hp, ?_⟩))
  exact decide_eq_true rfl

/-- The parent of a counted production was counted, so that no relative frequency is zero for want of it. -/
theorem Balanced.relativeFrequency_eq {p : Production} (hp : p ∈ c.productions.keys) :
    c.relativeFrequency p = (c.productions.count p : ρ) / (c.parents.count p.parent : ρ) :=
  if_pos (h.count_parent_pos hp)

end Counted

section Exact

variable {ρ : Type} [Field ρ] [LinearOrder ρ]

/-- Rules that share out the counts: each counted production has its one rule, with its part of the count of its parent
as a probability between zero and one, and the probabilities of all rules of a counted parent add up to one. -/
structure Normalized (c : ProductionCounts) (rules : List (Rule ρ)) : Prop where
  nodup : (rules.map Rule.production).Nodup
  mem_iff (p : Production) : p ∈ rules.map Rule.production ↔ p ∈ c.productions.keys
  probability_eq : ∀ r ∈ rules,
    r.probability = (c.productions.count r.production : ρ) / (c.parents.count r.production.parent : ρ)
  pos : ∀ r ∈ rules, 0 < r.probability
  le_one : ∀ r ∈ rules, r.probability ≤ 1
  sum_eq_one : ∀ l ∈ c.parents.keys, ((rules.filter fun r => r.production.parent = l).map Rule.probability).sum = 1

variable [IsStrictOrderedRing ρ] {c : ProductionCounts} (h : c.Balanced)

include h

/-- The relative frequencies of the productions of a parent add up to one. -/
theorem Balanced.sum_relativeFrequency {l : String} (hl : l ∈ c.parents.keys) :
    ((c.productions.keys.filter fun p => p.parent = l).map (c.relativeFrequency (ρ := ρ))).sum = 1 := by
  have htotal : (c.parents.count l : ρ) =
      ((c.productions.keys.filter fun p => p.parent = l).map fun p => (c.productions.count p : ρ)).sum := by
    rw [h.count_parent, totalUnder, Tally.total_eq_map, Nat.cast_list_sum, List.map_map]
    rfl
  have hshare : (c.productions.keys.filter fun p => p.parent = l).map (c.relativeFrequency (ρ := ρ)) =
      (c.productions.keys.filter fun p => p.parent = l).map
        fun p => (c.productions.count p : ρ) * (c.parents.count l : ρ)⁻¹ := by
    refine List.map_congr_left fun p hp => ?_
    obtain ⟨hkey, hparent⟩ := List.mem_filter.1 hp
    rw [h.relativeFrequency_eq hkey, of_decide_eq_true hparent, div_eq_mul_inv]
  rw [hshare, List.sum_map_mul_right, ← htotal]
  exact mul_inv_cancel₀ (Nat.cast_ne_zero.2 (h.parents_count_pos hl).ne')

theorem Balanced.normalized_rules : c.Normalized (c.rules : List (Rule ρ)) where
  nodup := nodup_rules c
  mem_iff p := by rw [map_production_rules]
  probability_eq := by
    intro r hr
    obtain ⟨p, hp, rfl⟩ := List.mem_map.1 hr
    exact h.relativeFrequency_eq hp
  pos := by
    intro r hr
    obtain ⟨p, hp, rfl⟩ := List.mem_map.1 hr
    rw [h.relativeFrequency_eq hp]
    exact div_pos (Nat.cast_pos.2 (h.count_pos hp)) (Nat.cast_pos.2 (h.count_parent_pos hp))
  le_one := by
    intro r hr
    obtain ⟨p, hp, rfl⟩ := List.mem_map.1 hr
    rw [h.relativeFrequency_eq hp]
    exact div_le_one_of_le₀ (Nat.cast_le.2 (h.count_le_count_parent hp)) (Nat.cast_nonneg _)
  sum_eq_one := by
    intro l hl
    rw [rules, List.filter_map, List.map_map]
    exact h.sum_relativeFrequency hl

end Exact

/-- After any calls, whether they came to an end or stopped at a node with too many children, the counts are balanced,
each counted production has one rule, and the rules of each counted parent are a distribution. -/
theorem normalized_tallied {ρ : Type} [Field ρ] [LinearOrder ρ] [IsStrictOrderedRing ρ] (ts : List Tree) :
    (tallied ts).Balanced ∧ (tallied ts).Normalized ((tallied ts).rules : List (Rule ρ)) :=
  ⟨balanced_tallied ts, (balanced_tallied ts).normalized_rules⟩

/-- Counting this tree stops at its verb phrase, when the sentence and the noun phrase are counted. -/
def overlongTree : Tree :=
  .node "S" [.node "NP" [.preterminal "DT" "the", .preterminal "NN" "dog"],
    .node "VP" [.preterminal "VB" "gave", .preterminal "PRP" "him", .node "NP" [.preterminal "NN" "food"]]]

theorem normalized_tallied_overlong :
    ((overlongTree.countProductions empty).stoppedAt.map Tree.label = some "VP" ∧
      (tallied [overlongTree, .node "S" [overlongTree], overlongTree]).parents.count "S" = 4) ∧
    (tallied [overlongTree, .node "S" [overlongTree], overlongTree]).Balanced ∧
    (tallied [overlongTree, .node "S" [overlongTree], overlongTree]).Normalized
      ((tallied [overlongTree, .node "S" [overlongTree], overlongTree]).rules : List (Rule ℚ)) :=
  ⟨by decide +kernel, normalized_tallied _⟩

end ProductionCounts

end Constituency
