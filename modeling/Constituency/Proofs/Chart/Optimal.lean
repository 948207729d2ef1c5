/-
Exactness of the chart. The cost of a symbol over a span is missing from the chart exactly when no derivation
has that label and those words, and is the least cost of all such derivations otherwise (`cost?_isLeast`).

The tree that is read off an entry is a derivation at its cost. No derivation is cheaper than the entry, by
induction on the derivation (`Derives.chart_within`).
-/
import Constituency.Proofs.Chart.Faithful
import Mathlib.Order.Bounds.Basic

namespace Constituency

section Optimal

variable {ρ κ : Type} [NatCast ρ] [LT ρ] [DecidableLT ρ] [LE ρ] [Surprisal ρ κ] [LinearOrder κ] [Add κ]
  [LawfulSurprisal ρ κ] {rules : List (Rule ρ)} {scorer : TagScorer ρ} {words : List String}

/-- No derivation is cheaper than the entry of its label over the span of its words. -/
theorem Derives.chart_within [AddLeftMono κ] [AddRightMono κ] (hrules : AtMostCertain rules) {t : Tree} {c : κ}
    (h : Derives rules scorer t c) : ∀ (start stop a : Nat), stop ≤ words.length →
      (Grammar.ofRules (κ := κ) rules).symbols.number? t.label = some a → t.words = words.extract start stop →
      ((Chart.fill (.ofRules rules) scorer words).cell start stop).HasWithin a c := by
  have hg := Grammar.indexed_ofRules (κ := κ) hrules
  have hnumber {r : Rule ρ} (hmem : r ∈ rules) {s : String} (hs : s ∈ r.production.symbols) :=
    (Grammar.mem_symbols_iff κ).2 ⟨r, hmem, hs⟩
  induction h with
  | @tagging tag word htag _ hpos =>
    intro start stop a hstop hlabel hwords
    obtain ⟨rfl, hword⟩ := eq_of_singleton_extract hwords hstop
    exact Chart.seed_within hg scorer (Nat.lt_succ_self _) hstop (.tagging rfl hword htag hlabel hpos)
  | @unary r parent t c hmem hprod hpos _ ih =>
    intro start stop a hstop hlabel hwords
    obtain ⟨b, hb⟩ := hnumber hmem (s := t.label) (by simp [hprod, Production.symbols, Production.children])
    have hedge : (⟨a, b, surprisal r.probability⟩ : UnaryEdge κ) ∈ (Grammar.ofRules rules).unaryEdges.get b :=
      Grammar.mem_unaryEdges_iff.2 ⟨r, hmem, _, _, hprod, hpos, hlabel, hb, rfl, rfl⟩
    exact Chart.unary_within hg hedge (ih start stop b hstop hb (by simpa [Tree.words, Forest.words] using hwords))
  | @binary r parent s t c d hmem hprod hpos hs ht ihs iht =>
    intro start stop a hstop hlabel hwords
    obtain ⟨i, hi⟩ := hnumber hmem (s := s.label) (by simp [hprod, Production.symbols, Production.children])
    obtain ⟨j, hj⟩ := hnumber hmem (s := t.label) (by simp [hprod, Production.symbols, Production.children])
    have hedge : (⟨a, i, j, surprisal r.probability⟩ : BinaryEdge κ) ∈ (Grammar.ofRules rules).binaryEdges.get i :=
      Grammar.mem_binaryEdges_iff.2 ⟨r, hmem, _, _, _, hprod, hpos, hlabel, hi, hj, rfl, rfl⟩
    -- neither part is empty, so that the split lies inside the span
    have hpos_s := List.length_pos_of_ne_nil hs.words_ne_nil
    have hpos_t := List.length_pos_of_ne_nil ht.words_ne_nil
    have hsplit : s.words ++ t.words = words.extract start stop := by
      simpa [Tree.words, Forest.words] using hwords
    have hle : start ≤ stop := by
      by_contra hgt
      have := congrArg List.length hsplit
      rw [length_extract hstop, List.length_append] at this
      omega
    obtain ⟨hlength, hswords, htwords⟩ := eq_extract_of_append hsplit hle hstop
    obtain ⟨l, hl, hlc⟩ := ihs start (start + s.words.length) i (by omega) hi hswords
    obtain ⟨r, hr, hrd⟩ := iht (start + s.words.length) stop j hstop hj htwords
    have hseed := Chart.seed_within hg scorer (show start < stop by omega) hstop
      (.combination (by omega) (by omega) hedge hl hr)
    exact hseed.weaken (add_le_add (add_le_add hlc hrd) le_rfl)

/-- The cost of a symbol over a span is missing exactly when there is no derivation of the words from the
symbol, and is the least cost of all derivations otherwise. -/
theorem cost?_isLeast [AddLeftMono κ] [AddRightMono κ] (hrules : AtMostCertain rules) (scorer : TagScorer ρ)
    (words : List String) (start stop : Nat) (hstop : stop ≤ words.length) {label : String} {a : Nat}
    (hlabel : (Grammar.ofRules (κ := κ) rules).symbols.number? label = some a) :
    ((Chart.fill (.ofRules rules : Grammar ρ κ) scorer words).cost? start stop a = none ↔
      derivationCosts κ rules scorer label (words.extract start stop) = ∅) ∧
    ∀ c, (Chart.fill (.ofRules rules : Grammar ρ κ) scorer words).cost? start stop a = some c ↔
      IsLeast (derivationCosts κ rules scorer label (words.extract start stop)) c := by
  have hg := Grammar.indexed_ofRules (κ := κ) hrules
  have hlower : ∀ c ∈ derivationCosts κ rules scorer label (words.extract start stop),
      ((Chart.fill (.ofRules rules) scorer words).cell start stop).HasWithin a c := by
    rintro c ⟨t, ht, rfl, hwords⟩
    exact ht.chart_within hrules start stop a hstop hlabel hwords
  have hderives : ∀ e : Entry κ, ((Chart.fill (.ofRules rules) scorer words).cell start stop)[a]? = some e →
      e.cost ∈ derivationCosts κ rules scorer label (words.extract start stop) := by
    intro e he
    obtain ⟨t, ht⟩ := Chart.exists_tree? hg (Cell.mem_iff_exists.2 ⟨e, he⟩)
    have hreads := Chart.reads_of_tree? (ht _ le_rfl)
    obtain ⟨hderives, hwords, -⟩ := hreads.derives hrules he
    exact ⟨t, hderives, hg.number_inj (hg.number_iff.2 hreads.name?) hlabel, hwords⟩
  unfold Chart.cost?
  cases he : ((Chart.fill (.ofRules rules : Grammar ρ κ) scorer words).cell start stop)[a]? with
  | none =>
    have hempty : derivationCosts κ rules scorer label (words.extract start stop) = ∅ := by
      refine Set.eq_empty_of_forall_notMem fun c hc => ?_
      obtain ⟨e, he', -⟩ := hlower c hc
      rw [he] at he'; cases he'
    refine ⟨by simp [hempty], fun c => ?_⟩
    rw [hempty]
    simp [IsLeast]
  | some e =>
    have hleast : IsLeast (derivationCosts κ rules scorer label (words.extract start stop)) e.cost :=
      ⟨hderives e he, fun c hc => (hlower c hc).cost_le he⟩
    refine ⟨?_, fun c => ?_⟩
    · simp only [Option.map_some, reduceCtorEq, false_iff]
      exact Set.nonempty_iff_ne_empty.1 ⟨_, hleast.1⟩
    · simp only [Option.map_some, Option.some.injEq]
      exact ⟨fun h => h ▸ hleast, fun h => hleast.unique h⟩

end Optimal

/-! ## A cyclic grammar -/

/-- Rules with a cycle that costs nothing and with two copies of one production. -/
def cyclicRules : List (Rule ℚ) :=
  [⟨.binary "S" "A" "B", 1 / 2⟩, ⟨.unary "A" "B", 1⟩, ⟨.unary "B" "A", 1⟩, ⟨.unary "B" "N", 1 / 4⟩,
    ⟨.unary "B" "N", 1 / 2⟩, ⟨.binary "B" "N" "N", 1 / 4⟩, ⟨.unary "S" "N", 0⟩]

/-- A scorer whose one tagging has a negative cost. -/
def certainNouns : TagScorer ℚ := .ofTable [(⟨"time", "N"⟩, 4)]

theorem cost?_isLeast_cyclic : AtMostCertain cyclicRules ∧
    (Grammar.ofRules (κ := ℤ) cyclicRules).symbols.number? "S" = some 3 ∧
    IsLeast (derivationCosts ℤ cyclicRules certainNouns "S" ["time", "time", "time"]) (-2) := by
  have hrules : AtMostCertain cyclicRules := by unfold AtMostCertain; decide +kernel
  have hlabel : (Grammar.ofRules (κ := ℤ) cyclicRules).symbols.number? "S" = some 3 := by decide +kernel
  have hcost : (Chart.fill (.ofRules cyclicRules : Grammar ℚ ℤ) certainNouns ["time", "time", "time"]).cost? 0 3 3 =
      some (-2) := by decide +kernel
  have hleast := cost?_isLeast hrules certainNouns ["time", "time", "time"] 0 3 le_rfl hlabel
  exact ⟨hrules, hlabel, (hleast.2 (-2)).1 hcost⟩

end Constituency
