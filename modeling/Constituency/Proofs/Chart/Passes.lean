/-
How many passes the closures of a chart take. A pass counts when it has changed an entry, be it only the step of one
that keeps its cost (`pass_changed_iff`). Every unary edge leads to a non-terminal, so that no closure takes more
passes than the grammar has non-terminals (`exists_closesAfter_le`), and no chart reports more.
-/
import Constituency.Proofs.Chart.Fill

namespace Constituency

variable {ρ κ : Type}

/-! ## Non-terminals -/

namespace Grammar

/-- The numbers of the non-terminals. -/
def heads (g : Grammar ρ κ) : Finset Nat := (g.nonTerminals.toList.filterMap g.symbols.number?).toFinset

theorem card_heads_le (g : Grammar ρ κ) : g.heads.card ≤ g.nonTerminals.size :=
  calc g.heads.card
    _ ≤ (g.nonTerminals.toList.filterMap g.symbols.number?).length := List.toFinset_card_le _
    _ ≤ g.nonTerminals.toList.length := List.length_filterMap_le _ _
    _ = g.nonTerminals.size := Std.TreeSet.length_toList

theorem parentsIn_heads [NatCast ρ] [LT ρ] [DecidableLT ρ] [Surprisal ρ κ] {rules : List (Rule ρ)} :
    Cell.ParentsIn (ofRules rules : Grammar ρ κ) (ofRules rules : Grammar ρ κ).heads := by
  intro k edge hedge
  obtain ⟨r, hr, parent, _, hprod, -, hparent, -⟩ := mem_unaryEdges_iff.1 hedge
  have hmem : parent ∈ (ofRules rules : Grammar ρ κ).nonTerminals :=
    (mem_nonTerminals_iff κ).2 ⟨r, hr, by rw [hprod]; rfl⟩
  rw [heads, List.mem_toFinset, List.mem_filterMap]
  exact ⟨parent, Std.TreeSet.mem_toList.2 hmem, hparent⟩

end Grammar

/-! ## Closures -/

section Closures

variable [LinearOrder κ] [Add κ]

/-- The closure of a cell stops, and it takes no more passes than there are non-terminals. -/
theorem Cell.exists_closesAfter_le [NatCast ρ] [LT ρ] [DecidableLT ρ] [Surprisal ρ κ] [LE ρ] [LawfulSurprisal ρ κ]
    [AddLeftMono κ] [AddRightMono κ] {rules : List (Rule ρ)} (hrules : AtMostCertain (rules.filter Rule.isUnary))
    (cell : Cell κ) :
    ∃ n ≤ (Grammar.ofRules rules : Grammar ρ κ).nonTerminals.size,
      Cell.ClosesAfter (Grammar.ofRules rules : Grammar ρ κ) cell n := by
  have hg : (Grammar.ofRules rules : Grammar ρ κ).Indexed := Grammar.indexed_ofRules_of_unary hrules
  obtain ⟨n, hn⟩ := exists_closesAfter hg cell
  exact ⟨n, (hn.le_card hg Grammar.parentsIn_heads).trans (Grammar.card_heads_le _), hn⟩

/-- A pass counts when it has changed an entry. -/
theorem Cell.pass_changed_iff {g : Grammar ρ κ} {cell : Cell κ} :
    (cell.pass g).changed = true ↔ ∃ a : Nat, (cell.pass g).cell[a]? ≠ cell[a]? := by
  constructor
  · intro hchanged
    obtain ⟨mid, hstep, hsteps⟩ :=
      Pass.foldl_follow_changed _ ⟨cell, false⟩ cell.exists_of_mem_unaryEdges rfl hchanged
    obtain ⟨-, -, htakes⟩ := hstep
    rename_i k edge child
    refine ⟨edge.parent, fun hsame => ?_⟩
    obtain ⟨e, he, hle⟩ := hsteps.lowered edge.parent _ (by rw [getElem?_insert_eq, if_pos rfl])
    rcases takesUnary_iff.1 htakes with hlt | ⟨hlex, -⟩
    · exact absurd (hlt e (hsame.symm.trans he)) (not_lt.2 hle)
    · -- a lexical entry that was replaced does not come back
      have hback := hsteps.of_step_ne (hsame.trans hlex) (by simp)
      rw [getElem?_insert_eq, if_pos rfl] at hback
      cases hback
  · rintro ⟨a, ha⟩
    by_contra hchanged
    have hsame := (Pass.foldl_follow_unchanged _ ⟨cell, false⟩ (Bool.eq_false_iff.2 hchanged)).1
    exact ha (congrArg (fun p : Pass κ => p.cell[a]?) hsame)

end Closures

/-! ## Charts -/

namespace Chart

theorem maxPasses_le {c : Chart κ} {n : Nat} (h : ∀ level ∈ c.levels, ∀ closed ∈ level, closed.passes ≤ n) :
    c.maxPasses ≤ n := by
  unfold maxPasses
  rw [← Array.foldl_toList]
  refine List.foldlRecOn (motive := (· ≤ n)) _ _ (Nat.zero_le n) fun m hm level hlevel => ?_
  rw [← Array.foldl_toList]
  exact List.foldlRecOn (motive := (· ≤ n)) _ _ hm fun m hm closed hclosed =>
    max_le hm (h level (Array.mem_toList_iff.1 hlevel) closed (Array.mem_toList_iff.1 hclosed))

variable [NatCast ρ] [LT ρ] [DecidableLT ρ] [Surprisal ρ κ] [LinearOrder κ] [Add κ] {g : Grammar ρ κ}
  {scorer : TagScorer ρ}

/-- Every cell of a chart is the closure of some cell. -/
theorem exists_eq_close {words : Array String} : ∀ {n : Nat}, ∀ level ∈ levelsUpTo g scorer words n,
    ∀ closed ∈ level, ∃ cell : Cell κ, closed = cell.close g
  | 0, level, hlevel, closed, hclosed => by
    rw [levelsUpTo, Array.mem_singleton] at hlevel
    rw [hlevel] at hclosed
    simp at hclosed
  | n + 1, level, hlevel, closed, hclosed => by
    rw [levelsUpTo, Array.mem_push] at hlevel
    rcases hlevel with hlevel | rfl
    · exact exists_eq_close level hlevel closed hclosed
    · obtain ⟨start, -, rfl⟩ := Array.mem_map.1 hclosed
      exact ⟨_, rfl⟩

end Chart

section Bound

variable [NatCast ρ] [LT ρ] [DecidableLT ρ] [Surprisal ρ κ] [LE ρ] [LinearOrder κ] [Add κ] [LawfulSurprisal ρ κ]
  [AddLeftMono κ] [AddRightMono κ]

/-- The closure of any cell stops at the first pass that changes no entry, after at most as many others as the grammar
has non-terminals. So many passes are the most that a chart reports for any sentence. -/
theorem passes_le_nonTerminals {rules : List (Rule ρ)} (hrules : AtMostCertain (rules.filter Rule.isUnary)) :
    let g : Grammar ρ κ := .ofRules rules
    (∀ cell : Cell κ, ∃ n ≤ g.nonTerminals.size, Cell.ClosesAfter g cell n) ∧
    (∀ cell : Cell κ, (cell.pass g).changed = true ↔ ∃ a : Nat, (cell.pass g).cell[a]? ≠ cell[a]?) ∧
    ∀ scorer words, (Chart.fill g scorer words).maxPasses ≤ g.nonTerminals.size := by
  refine ⟨Cell.exists_closesAfter_le hrules, fun cell => Cell.pass_changed_iff, fun scorer words => ?_⟩
  refine Chart.maxPasses_le fun level hlevel closed hclosed => ?_
  obtain ⟨cell, rfl⟩ := Chart.exists_eq_close level hlevel closed hclosed
  obtain ⟨n, hn, hcloses⟩ := Cell.exists_closesAfter_le hrules cell
  rw [hcloses.close_eq]
  exact hn

end Bound

/-- Rules that come to their second parent in the second pass. -/
def lateRules : List (Rule ℚ) := [⟨.unary "A" "B", 1⟩, ⟨.unary "B" "C", 1 / 2⟩]

/-- A scorer under which a tag costs as much as the chain of the rules that leads to it. -/
def lateTags : TagScorer ℚ := .ofTable [(⟨"time", "A"⟩, 1 / 2), (⟨"time", "C"⟩, 1)]

/-- The bound is attained by a second pass that changes no cost: it takes the place of a tag. -/
theorem passes_le_nonTerminals_late :
    let g : Grammar ℚ ℤ := .ofRules lateRules
    let cell := Cell.ofWord g lateTags "time"
    AtMostCertain (lateRules.filter Rule.isUnary) ∧ (∃ n ≤ 2, Cell.ClosesAfter g cell n) ∧
    ((Cell.afterPasses g cell 1).values.map Entry.cost = [1, 1, 0] ∧
      (Cell.afterPasses g cell 2).values.map Entry.cost = [1, 1, 0]) ∧
    (∃ a : Nat, (Cell.afterPasses g cell 2)[a]? ≠ (Cell.afterPasses g cell 1)[a]?) ∧
    (Chart.fill g lateTags ["time"]).maxPasses = 2 := by
  intro g cell
  have hrules : AtMostCertain (lateRules.filter Rule.isUnary) := by unfold AtMostCertain; decide +kernel
  have hsize : g.nonTerminals.size = 2 := by decide +kernel
  obtain ⟨hcloses, hchanged, hmax⟩ := passes_le_nonTerminals (κ := ℤ) hrules
  refine ⟨hrules, hsize ▸ hcloses cell, by decide +kernel, (hchanged _).1 (by decide +kernel), ?_⟩
  exact le_antisymm (hsize ▸ hmax lateTags ["time"]) (by decide +kernel)

end Constituency
