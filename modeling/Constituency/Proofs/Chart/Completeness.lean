/-
Nothing that has a derivation is missed. A narrow tree over tagged words whose productions are those of possible rules
and whose taggings have a positive score is a derivation, at the cost that adding it up gives
(`Tree.exists_derives`), and a sentence with a derivation from the start symbol is given one that costs no more
(`Grammar.exists_derive?`).
-/
import Constituency.Proofs.Chart.Optimal
import Constituency.Proofs.Grammar.Counts
import Constituency.Proofs.Tree.Words

namespace Constituency

/-! ## Trees that are derivations -/

section Derives

variable {ρ κ : Type} [NatCast ρ] [LT ρ] [Surprisal ρ κ] [Add κ] {rules : List (Rule ρ)} {scorer : TagScorer ρ}
  {t : Tree} {c : κ}

theorem Derives.mono {rules' : List (Rule ρ)} (hrules : rules ⊆ rules') (h : Derives rules scorer t c) :
    Derives rules' scorer t c := by
  induction h with
  | tagging htag hmention hpos =>
    obtain ⟨r, hr, hsymbol⟩ := hmention
    exact .tagging htag ⟨r, hrules hr, hsymbol⟩ hpos
  | unary hr hprod hpos _ ih => exact .unary (hrules hr) hprod hpos ih
  | binary hr hprod hpos _ _ ihs iht => exact .binary (hrules hr) hprod hpos ihs iht

/-- The label of a derivation is mentioned by a rule. -/
theorem Derives.exists_mention (h : Derives rules scorer t c) : ∃ r ∈ rules, t.label ∈ r.production.symbols := by
  cases h with
  | tagging _ hmention => exact hmention
  | unary hr hprod => exact ⟨_, hr, by rw [hprod]; exact List.mem_cons_self⟩
  | binary hr hprod => exact ⟨_, hr, by rw [hprod]; exact List.mem_cons_self⟩

end Derives

theorem Production.label_mem_symbols {t : Tree} {p : Production} (h : ofNode? t = some p) :
    ∀ s ∈ t.children, s.label ∈ p.symbols := by
  match t with
  | .node _ [] | .node _ (_ :: _ :: _ :: _) => cases h
  | .node _ [_] | .node _ [_, _] => cases h; simp [symbols, children]

section Sum

variable {ρ κ : Type} [NatCast ρ] [LT ρ] [DecidableLT ρ] [Surprisal ρ κ] [LinearOrder κ] [Add κ]
  {rules : List (Rule ρ)} {scorer : TagScorer ρ}

/-- A narrow tree over tagged words is a derivation if there are rules for its productions and tags for its words. -/
theorem Tree.exists_derives {t : Tree} (hnarrow : ∀ s ∈ t.subtrees, s.isNarrow = true) (htagged : t.LeavesTagged)
    (hrules : ∀ p ∈ t.productions, ∃ r ∈ rules, r.production = p ∧ ((0 : Nat) : ρ) < r.probability)
    (htags : ∀ x ∈ t.taggings, x.tag ∈ scorer.tags ∧ ((0 : Nat) : ρ) < scorer.score x.word x.tag)
    (hlabel : ∃ r ∈ rules, t.label ∈ r.production.symbols) :
    ∃ c : κ, t.cost? κ rules scorer = some c ∧ Derives rules scorer t c := by
  induction t using Tree.induction_on_phrases with
  | tagged tag word =>
    obtain ⟨htag, hpos⟩ := htags ⟨word, tag⟩ List.mem_cons_self
    exact ⟨_, rfl, .tagging htag hlabel hpos⟩
  | other l ts hpre ih =>
    obtain ⟨hts, hchildren⟩ := (Tree.leavesTagged_node hpre).1 htagged
    have hlex : (Tree.node l ts).isLexical = false := Tree.isLexical_eq_false_iff.2 ⟨by simpa using hts, hpre⟩
    rw [Tree.forall_mem_subtrees_node] at hnarrow
    obtain ⟨p, hp⟩ := Tree.exists_ofNode? hlex hnarrow.1
    rw [Tree.productions_node, Tree.production?_of_not_isLexical hlex, hp] at hrules
    rw [Tree.taggings_node hpre] at htags
    -- the cheapest copy of the rule takes part in the derivation
    obtain ⟨r, hr, hprod, hpos⟩ := hrules p (by simp)
    obtain ⟨r', hr', hprod', hpos', hleast, -⟩ := exists_leastCost? (κ := κ) hr hpos
    rw [hprod] at hprod' hleast
    have hbelow : ∀ t ∈ ts, ∃ c : κ, t.cost? κ rules scorer = some c ∧ Derives rules scorer t c := by
      intro t ht
      refine ih t ht (hnarrow.2 t ht) (hchildren t ht) (fun q hq => hrules q ?_) (fun x hx => htags x ?_) ?_
      · exact List.mem_append_right _ (List.mem_flatMap.2 ⟨t, ht, hq⟩)
      · exact List.mem_flatMap.2 ⟨t, ht, hx⟩
      · exact ⟨r', hr', by rw [hprod']; exact Production.label_mem_symbols hp t ht⟩
    match ts with
    | [] | _ :: _ :: _ :: _ => cases hp
    | [t] =>
      obtain rfl := Option.some.inj hp
      obtain ⟨c, hc, hderives⟩ := hbelow t (by simp)
      exact ⟨_, Tree.cost?_unary hderives.isLeaf hc hleast, .unary hr' hprod' hpos' hderives⟩
    | [s, t] =>
      obtain rfl := Option.some.inj hp
      obtain ⟨c, hc, hs⟩ := hbelow s (by simp)
      obtain ⟨d, hd, ht⟩ := hbelow t (by simp)
      exact ⟨_, Tree.cost?_binary hc hd hleast, .binary hr' hprod' hpos' hs ht⟩

end Sum

section Search

variable {ρ κ : Type} [NatCast ρ] [LT ρ] [DecidableLT ρ] [LE ρ] [Surprisal ρ κ] [LinearOrder κ] [Add κ]
  [LawfulSurprisal ρ κ] [AddLeftMono κ] [AddRightMono κ] {rules : List (Rule ρ)} {scorer : TagScorer ρ}

/-- The words of a derivation are parsed, at no higher a cost. -/
theorem Grammar.exists_derive? (hrules : AtMostCertain rules) {t : Tree} {c : κ} (h : Derives rules scorer t c) :
    ∃ d, (Grammar.ofRules (κ := κ) rules).derive? scorer t.words t.label = some d ∧ d.cost ≤ c := by
  have hg := Grammar.indexed_ofRules (κ := κ) hrules
  obtain ⟨a, ha⟩ := (Grammar.mem_symbols_iff κ).2 h.exists_mention
  have hwords : t.words = t.words.extract 0 t.words.length := by
    rw [List.extract_eq_take_drop]
    simp
  obtain ⟨e, he, hle⟩ := h.chart_within hrules 0 t.words.length a le_rfl ha hwords
  obtain ⟨u, hu⟩ := Chart.exists_tree? hg (Cell.mem_iff_exists.2 ⟨e, he⟩)
  refine ⟨⟨u, e.cost⟩, ?_, hle⟩
  simp only [derive?, Option.bind_eq_bind, Option.bind_eq_some_iff, Option.pure_def, Option.some.injEq, Chart.cost?,
    Option.map_eq_some_iff]
  exact ⟨(), by simpa using h.words_ne_nil, a, ha, e.cost, ⟨e, he, rfl⟩, u, hu _ le_rfl, rfl⟩

end Search

end Constituency
