/-
How ties between equally cheap derivations are broken. Over a span of two or more words the combinations of a symbol
come in the order of their places: the split, then the number of the left child, then that of the right one
(`combinations_pairwise`). The first of the cheapest is entered and stays, so that an entry that some place attains is
binary and at the least such place (`Chart.place?_isLeast`). In the cell of a single word a tag stays until a unary
step costs no more, except where the chain below that step comes back to it (`Chart.lexical_iff`).
-/
import Constituency.Proofs.Chart.Reconstruction
import Constituency.Proofs.Grammar.Representation
import Mathlib.Data.Prod.Lex

namespace Constituency

variable {ρ κ : Type}

/-! ## Places -/

/-- Where a binary step splits its span, and the numbers of the children: places are compared in this order. -/
def Step.place? : Step → Option (Nat ×ₗ Nat ×ₗ Nat)
  | .binary split left right => some (toLex (split, toLex (left, right)))
  | _ => none

theorem Step.place?_eq_some_iff {step : Step} {p : Nat ×ₗ Nat ×ₗ Nat} : step.place? = some p ↔
    ∃ split left right, step = .binary split left right ∧ p = toLex (split, toLex (left, right)) := by
  cases step <;> simp [place?, eq_comm]

/-- If two combinations are for one symbol, the first is not at a place behind that of the second. -/
def Combination.NotBehind (c d : Combination κ) : Prop :=
  c.symbol = d.symbol → ∀ p q, c.entry.step.place? = some p → d.entry.step.place? = some q → p ≤ q

theorem Combination.notBehind_iff {c d : Combination κ} {split left right split' left' right' : Nat}
    (hc : c.entry.step = .binary split left right) (hd : d.entry.step = .binary split' left' right') :
    c.NotBehind d ↔ (c.symbol = d.symbol →
      split < split' ∨ split = split' ∧ (left < left' ∨ left = left' ∧ right ≤ right')) := by
  simp [NotBehind, Step.place?, hc, hd, Prod.Lex.toLex_le_toLex]

section Combinations

variable [LE κ] [Add κ] {g : Grammar ρ κ} {split : Nat} {c : Combination κ}

omit [LE κ] in
theorem step_of_combineEdge {l : Entry κ} {right : Cell κ} {edge : BinaryEdge κ}
    (h : combineEdge split l right edge = some c) :
    c.symbol = edge.parent ∧ c.entry.step = .binary split edge.left edge.right := by
  obtain ⟨r, -, rfl⟩ := Option.map_eq_some_iff.1 h
  exact ⟨rfl, rfl⟩

/-- Over one split combinations are made left child by left child, and right child by right child. -/
theorem combineAt_pairwise (hg : g.Indexed) (hedges : g.EdgesOrdered) (left right : Cell κ) :
    (combineAt g split left right).Pairwise Combination.NotBehind := by
  rw [combineAt, List.pairwise_flatMap]
  constructor
  · rintro ⟨k, l⟩ -
    rw [List.pairwise_filterMap]
    refine (hedges k).imp_of_mem fun {e f} he hf hright c hc d hd => ?_
    obtain ⟨hparent, hstep⟩ := step_of_combineEdge hc
    obtain ⟨hparent', hstep'⟩ := step_of_combineEdge hd
    have hleft : e.left = f.left := (hg.left_eq he).trans (hg.left_eq hf).symm
    rw [Combination.notBehind_iff hstep hstep', hparent, hparent']
    exact fun hsymbol => .inr ⟨rfl, .inr ⟨hleft, hright hsymbol⟩⟩
  · refine Std.TreeMap.ordered_keys_toList.imp fun {x y} hlt c hc d hd => ?_
    obtain ⟨e, he, hc⟩ := List.mem_filterMap.1 hc
    obtain ⟨f, hf, hd⟩ := List.mem_filterMap.1 hd
    rw [Combination.notBehind_iff (step_of_combineEdge hc).2 (step_of_combineEdge hd).2, hg.left_eq he, hg.left_eq hf]
    exact fun _ => .inr ⟨rfl, .inl (Nat.compare_eq_lt.1 hlt)⟩

/-- The combinations of a span for one symbol come in the order of their places. -/
theorem combinations_pairwise (hg : g.Indexed) (hedges : g.EdgesOrdered) (levels : Array (Array (Closed κ)))
    (start length : Nat) : (combinations g levels start length).Pairwise Combination.NotBehind := by
  rw [combinations, List.pairwise_flatMap]
  refine ⟨fun split _ => combineAt_pairwise hg hedges _ _, ?_⟩
  refine (List.pairwise_lt_range' 1).imp fun {s t} hlt c hc d hd => ?_
  obtain ⟨_, -, hc⟩ := List.mem_flatMap.1 hc
  obtain ⟨_, -, hc⟩ := List.mem_filterMap.1 hc
  obtain ⟨_, -, hd⟩ := List.mem_flatMap.1 hd
  obtain ⟨_, -, hd⟩ := List.mem_filterMap.1 hd
  rw [Combination.notBehind_iff (step_of_combineEdge hc).2 (step_of_combineEdge hd).2]
  exact fun _ => .inl hlt

end Combinations

/-! ## The first of the cheapest -/

section First

variable [LinearOrder κ] {cs : List (Combination κ)} {a : Nat} {e : Entry κ}

theorem Cell.ofCombinations_concat (cs : List (Combination κ)) (c : Combination κ) :
    ofCombinations (cs ++ [c]) = (ofCombinations cs).offer c.symbol c.entry :=
  List.foldl_concat ..

/-- The entry for a symbol is one of the combinations for it, cheaper than all before. -/
theorem Cell.eq_append_of_ofCombinations (h : (ofCombinations cs)[a]? = some e) : ∃ before c after,
    cs = before ++ c :: after ∧ c.symbol = a ∧ c.entry = e ∧ ∀ d ∈ before, d.symbol = a → e.cost < d.entry.cost := by
  induction cs using List.reverseRecOn generalizing e with
  | nil => simp [ofCombinations] at h
  | append_singleton cs c ih =>
    rw [ofCombinations_concat] at h
    have hkept (h : (ofCombinations cs)[a]? = some e) : ∃ before d after, cs ++ [c] = before ++ d :: after ∧
        d.symbol = a ∧ d.entry = e ∧ ∀ d ∈ before, d.symbol = a → e.cost < d.entry.cost := by
      obtain ⟨before, d, after, rfl, hd⟩ := ih h
      exact ⟨before, d, after ++ [c], by simp, hd⟩
    rcases (ofCombinations cs).offer_cases c.symbol c.entry with ⟨hoffer, -⟩ | ⟨hoffer, hcheaper⟩
    · rw [hoffer] at h
      exact hkept h
    · rw [hoffer, getElem?_insert_eq] at h
      split at h
      · rename_i ha
        cases h; subst ha
        refine ⟨cs, c, [], rfl, rfl, rfl, fun d hd hsymbol => ?_⟩
        obtain ⟨old, hold, hle⟩ := foldl_offer_within cs ∅ hd
        exact (hcheaper old (hsymbol ▸ hold)).trans_le hle
      · exact hkept h

/-- Of combinations that come in the order of their places none that costs the same is before the one entered. -/
theorem Cell.notBehind_of_ofCombinations (hcs : cs.Pairwise Combination.NotBehind)
    (h : (ofCombinations cs)[a]? = some e) :
    ∃ c ∈ cs, c.symbol = a ∧ c.entry = e ∧ ∀ d ∈ cs, d.entry.cost = e.cost → c.NotBehind d := by
  obtain ⟨before, c, after, rfl, rfl, rfl, hbefore⟩ := eq_append_of_ofCombinations h
  refine ⟨c, by simp, rfl, rfl, fun d hd hcost hsymbol => ?_⟩
  rcases List.mem_append.1 hd with hd | hd
  · exact absurd (hbefore d hd hsymbol.symm) (by simp [hcost])
  · rcases List.mem_cons.1 hd with rfl | hd
    · intro p q hp hq
      rw [hp] at hq
      exact (Option.some.inj hq).le
    · exact (List.pairwise_cons.1 (List.pairwise_append.1 hcs).2.1).1 d hd hsymbol

end First

/-! ## Spans of two or more words -/

section Fill

variable [NatCast ρ] [LT ρ] [DecidableLT ρ] [Surprisal ρ κ] [LinearOrder κ] [Add κ] {g : Grammar ρ κ}
  {scorer : TagScorer ρ} {words : List String} {start stop a : Nat} {e : Entry κ}

omit [DecidableLT ρ] [LinearOrder κ] in
theorem Seed.exists_place? {cellAt : Nat → Nat → Cell κ} (hspan : start + 1 < stop)
    (h : Seed g scorer words cellAt start stop a e) : ∃ p, e.step.place? = some p := by
  cases h with
  | tagging hone => omega
  | combination => exact ⟨_, rfl⟩

namespace Chart

/-- The cell of a span of two or more words is made by unary steps from its seeds, entered in the order of their
places. -/
theorem exists_combinations (hg : g.Indexed) (hedges : g.EdgesOrdered) (scorer : TagScorer ρ)
    (hspan : start + 1 < stop) (hstop : stop ≤ words.length) : ∃ cs : List (Combination κ),
      (∀ c, c ∈ cs ↔ Seed g scorer words (Chart.fill g scorer words).cell start stop c.symbol c.entry) ∧
      cs.Pairwise Combination.NotBehind ∧
      Cell.UnarySteps g (Cell.ofCombinations cs) ((Chart.fill g scorer words).cell start stop) := by
  refine ⟨combinations g (levelsUpTo g scorer words.toArray (stop - start - 1)) start (stop - start), fun c => ?_,
    combinations_pairwise hg hedges _ _ _, ?_⟩
  · rw [mem_combinations_iff_seed hg scorer words hspan, seed_fill_iff hstop]
  · rw [cell_fill (by omega) hstop, Cell.initial, if_neg (by omega)]
    exact Cell.close_steps _

/-- An entry is at the least place of the seeds that cost as much, and it is unary only when there are none. -/
theorem place?_isLeast (hg : g.Indexed) (hedges : g.EdgesOrdered) (hspan : start + 1 < stop)
    (he : ((Chart.fill g scorer words).cell start stop)[a]? = some e) :
    (∃ p, e.step.place? = some p ∧ IsLeast {p | ∃ step, step.place? = some p ∧
      Seed g scorer words (Chart.fill g scorer words).cell start stop a ⟨e.cost, step⟩} p) ∨
    (∃ b, e.step = .unary b) ∧
      ∀ step, ¬ Seed g scorer words (Chart.fill g scorer words).cell start stop a ⟨e.cost, step⟩ := by
  obtain ⟨cs, hmem, hordered, hsteps⟩ :=
    exists_combinations hg hedges scorer hspan (span_of_mem (Cell.mem_iff_exists.2 ⟨e, he⟩)).2
  by_cases hunary : ∃ b, e.step = .unary b
  · refine .inr ⟨hunary, fun step hseed => ?_⟩
    -- the seed would have been entered, and the entry in its place would not have been given up for an equal cost
    obtain ⟨old, hold, hle⟩ := Cell.foldl_offer_within cs ∅ ((hmem ⟨a, ⟨e.cost, step⟩⟩).2 hseed)
    obtain ⟨_, c, _, rfl, rfl, rfl, -⟩ := Cell.eq_append_of_ofCombinations hold
    obtain ⟨p, hp⟩ := ((hmem c).1 (by simp)).exists_place? hspan
    obtain rfl := hsteps.eq_of_le hold (by rintro hlex; rw [hlex] at hp; cases hp) he hle
    obtain ⟨b, hb⟩ := hunary
    rw [hb] at hp
    cases hp
  · have hold := hsteps.of_step_ne he (not_exists.1 hunary)
    obtain ⟨c, hc, rfl, rfl, hfirst⟩ := Cell.notBehind_of_ofCombinations hordered hold
    obtain ⟨p, hp⟩ := ((hmem c).1 hc).exists_place? hspan
    refine .inl ⟨p, hp, ⟨c.entry.step, hp, (hmem c).1 hc⟩, ?_⟩
    rintro q ⟨step, hq, hseed⟩
    exact hfirst ⟨c.symbol, ⟨c.entry.cost, step⟩⟩ ((hmem _).2 hseed) rfl rfl p q hp hq

end Chart

/-! ## Single words -/

namespace Chart

variable [AddLeftMono κ] [AddRightMono κ]

/-- A tag stays when no unary edge leads to it at a lower cost, and none at the same cost but from a chain that it is
on itself. -/
theorem lexical_iff (hg : g.Indexed) (scorer : TagScorer ρ) {word tag : String} (hword : words[start]? = some word)
    (htag : g.symbols.number? tag = some a) :
    (∃ c, ((Chart.fill g scorer words).cell start (start + 1))[a]? = some ⟨c, .lexical⟩) ↔
      tag ∈ scorer.tags ∧ ((0 : Nat) : ρ) < scorer.score word tag ∧ ∀ k edge child, edge ∈ g.unaryEdges.get k →
        edge.parent = a → ((Chart.fill g scorer words).cell start (start + 1))[edge.child]? = some child →
        surprisal (scorer.score word tag) ≤ child.cost + edge.cost ∧
        (child.cost + edge.cost = surprisal (scorer.score word tag) →
          ((Chart.fill g scorer words).cell start (start + 1)).reaches edge.child a = true) := by
  have hstop : start + 1 ≤ words.length := (List.getElem?_eq_some_iff.1 hword).1
  have hgrounded := grounded_fill hg scorer words start (start + 1)
  constructor
  · rintro ⟨c, hc⟩
    cases hgrounded.supports hc with
    | seed hseed =>
      cases hseed with
      | @tagging word' tag' _ _ hword' hmem hnum hpos =>
        obtain rfl : word' = word := Option.some.inj (hword'.symm.trans hword)
        obtain rfl := hg.number_inj hnum htag
        refine ⟨hmem, hpos, ?_⟩
        rintro k edge child hedge rfl hchild
        rw [cell_fill (by omega) hstop] at hc hchild ⊢
        have hno := Cell.close_not_takesUnary hg hedge hchild
        refine ⟨(Cell.hasWithin_of_not_takesUnary hno).cost_le hc, fun hcost => ?_⟩
        by_contra hreaches
        rw [Cell.takesUnary_iff.2 (.inr ⟨hcost ▸ hc, Bool.eq_false_iff.2 hreaches⟩)] at hno
        cases hno
  · rintro ⟨hmem, hpos, hedges⟩
    obtain ⟨e, he, hle⟩ :=
      seed_within hg scorer (Nat.lt_succ_self start) hstop (.tagging rfl hword hmem htag hpos)
    cases hgrounded.supports he with
    | seed hseed =>
      cases hseed with
      | tagging => exact ⟨_, he⟩
      | combination => omega
    | unary hedge hchild hstep =>
      -- the step costs the same, but its chain would come back to where it started
      obtain ⟨hlower, hequal⟩ := hedges _ _ _ hedge rfl hchild
      obtain ⟨path, hpath⟩ := hgrounded.chain hchild
      have hmem := hpath.reaches_iff.1 (hequal (le_antisymm (hstep.trans hle) hlower))
      exact absurd hmem (List.nodup_cons.1 (Cell.Chain.unary he hpath).nodup).1

end Chart

end Fill

/-! ## Ties -/

section Ties

variable [NatCast ρ] [LT ρ] [DecidableLT ρ] [Surprisal ρ κ]

/-- A possible binary rule makes a symbol of the two parts of a span at a place, at their cost and that of the rule. -/
inductive Chart.OffersBinary [Add κ] (rules : List (Rule ρ)) (c : Chart κ) (start stop : Nat) (label : String) :
    Nat ×ₗ Nat ×ₗ Nat → κ → Prop
  | intro {r : Rule ρ} {left right : String} {split a b : Nat} {x y : κ} : r ∈ rules →
      r.production = .binary label left right → ((0 : Nat) : ρ) < r.probability → start < split → split < stop →
      (Grammar.ofRules (κ := κ) rules).symbols.number? left = some a →
      (Grammar.ofRules (κ := κ) rules).symbols.number? right = some b →
      c.cost? start split a = some x → c.cost? split stop b = some y →
      OffersBinary rules c start stop label (toLex (split, toLex (a, b))) (x + y + surprisal r.probability)

/-- A possible unary rule makes a symbol of one that covers the span already, at its cost and that of the rule. -/
inductive Chart.OffersUnary [Add κ] (rules : List (Rule ρ)) (c : Chart κ) (start stop : Nat) (label : String) :
    Nat → κ → Prop
  | intro {r : Rule ρ} {child : String} {a : Nat} {x : κ} : r ∈ rules →
      r.production = .unary label child → ((0 : Nat) : ρ) < r.probability →
      (Grammar.ofRules (κ := κ) rules).symbols.number? child = some a → c.cost? start stop a = some x →
      OffersUnary rules c start stop label a (x + surprisal r.probability)

namespace Chart

variable [Add κ] {rules : List (Rule ρ)} {c : Chart κ} {start stop a : Nat} {label : String} {cost : κ}

theorem offersBinary_iff (scorer : TagScorer ρ) (words : List String)
    (hlabel : (Grammar.ofRules (κ := κ) rules).symbols.number? label = some a) {p : Nat ×ₗ Nat ×ₗ Nat} :
    c.OffersBinary rules start stop label p cost ↔ ∃ step, step.place? = some p ∧
      Seed (.ofRules rules : Grammar ρ κ) scorer words c.cell start stop a ⟨cost, step⟩ := by
  constructor
  · rintro ⟨hmem, hprod, hpos, hlo, hhi, hleft, hright, hx, hy⟩
    obtain ⟨l, hl, rfl⟩ := Option.map_eq_some_iff.1 hx
    obtain ⟨r, hr, rfl⟩ := Option.map_eq_some_iff.1 hy
    have hedge : (⟨a, _, _, _⟩ : BinaryEdge κ) ∈ (Grammar.ofRules rules).binaryEdges.get _ :=
      Grammar.mem_binaryEdges_iff.2 ⟨_, hmem, _, _, _, hprod, hpos, hlabel, hleft, hright, rfl, rfl⟩
    exact ⟨_, rfl, .combination hlo hhi hedge hl hr⟩
  · rintro ⟨step, hp, hseed⟩
    cases hseed with
    | tagging => cases hp
    | combination hlo hhi hedge hl hr =>
      obtain ⟨r, hmem, _, _, _, hprod, hpos, hparent, hleft, hright, -, hcost⟩ := Grammar.mem_binaryEdges_iff.1 hedge
      obtain rfl := SymbolTable.eq_of_number? hparent hlabel
      obtain rfl := Option.some.inj hp
      rw [hcost]
      exact .intro hmem hprod hpos hlo hhi hleft hright (Option.map_eq_some_iff.2 ⟨_, hl, rfl⟩)
        (Option.map_eq_some_iff.2 ⟨_, hr, rfl⟩)

theorem offersUnary_iff (hlabel : (Grammar.ofRules (κ := κ) rules).symbols.number? label = some a) {b : Nat} :
    c.OffersUnary rules start stop label b cost ↔ ∃ k edge child,
      edge ∈ (Grammar.ofRules rules : Grammar ρ κ).unaryEdges.get k ∧ edge.parent = a ∧ edge.child = b ∧
      (c.cell start stop)[b]? = some child ∧ child.cost + edge.cost = cost := by
  constructor
  · rintro ⟨hmem, hprod, hpos, hb, hx⟩
    obtain ⟨child, hchild, rfl⟩ := Option.map_eq_some_iff.1 hx
    have hedge : (⟨a, b, _⟩ : UnaryEdge κ) ∈ (Grammar.ofRules rules).unaryEdges.get b :=
      Grammar.mem_unaryEdges_iff.2 ⟨_, hmem, _, _, hprod, hpos, hlabel, hb, rfl, rfl⟩
    exact ⟨b, _, child, hedge, rfl, rfl, hchild, rfl⟩
  · rintro ⟨k, edge, child, hedge, rfl, rfl, hchild, rfl⟩
    obtain ⟨r, hmem, _, _, hprod, hpos, hparent, hb, -, hcost⟩ := Grammar.mem_unaryEdges_iff.1 hedge
    obtain rfl := SymbolTable.eq_of_number? hparent hlabel
    rw [hcost]
    exact .intro hmem hprod hpos hb (Option.map_eq_some_iff.2 ⟨_, hchild, rfl⟩)

end Chart

variable [LE ρ] [LinearOrder κ] [Add κ] [LawfulSurprisal ρ κ] [AddLeftMono κ] [AddRightMono κ] {rules : List (Rule ρ)}

/-- Over two or more words the entry of a symbol is binary exactly when some place attains its cost, and it is then at
the least such place; otherwise it is unary. A tag of a word stays in the cell of the word exactly when no unary rule
makes its symbol at a lower cost, and none at the same cost but of a symbol whose chain leads back to it. -/
theorem ties_broken (hrules : AtMostCertain rules) (scorer : TagScorer ρ) (words : List String) :
    let g : Grammar ρ κ := .ofRules rules
    let chart := Chart.fill g scorer words
    (∀ start stop label a e, start + 1 < stop → g.symbols.number? label = some a →
      (chart.cell start stop)[a]? = some e →
      ((∃ split left right, e.step = .binary split left right) ↔
        ∃ p, chart.OffersBinary rules start stop label p e.cost) ∧
      (∀ split left right, e.step = .binary split left right →
        IsLeast {p | chart.OffersBinary rules start stop label p e.cost} (toLex (split, toLex (left, right)))) ∧
      ((¬ ∃ p, chart.OffersBinary rules start stop label p e.cost) → ∃ b, e.step = .unary b)) ∧
    ∀ start word label a, words[start]? = some word → g.symbols.number? label = some a →
      ((∃ c, (chart.cell start (start + 1))[a]? = some ⟨c, .lexical⟩) ↔
        label ∈ scorer.tags ∧ ((0 : Nat) : ρ) < scorer.score word label ∧
        ∀ b cost, chart.OffersUnary rules start (start + 1) label b cost →
          ¬ cost < surprisal (scorer.score word label) ∧
          (cost = surprisal (scorer.score word label) →
            ∃ path, Cell.Chain (chart.cell start (start + 1)) b path ∧ a ∈ path)) := by
  intro g chart
  have hg : g.Indexed := Grammar.indexed_ofRules hrules
  refine ⟨fun start stop label a e hspan hlabel he => ?_, fun start word label a hword hlabel => ?_⟩
  · simp only [Chart.offersBinary_iff scorer words hlabel]
    rcases Chart.place?_isLeast hg (Grammar.edgesOrdered_ofRules rules) hspan he with ⟨p, hp, hleast⟩ | ⟨⟨b, hb⟩, hno⟩
    · obtain ⟨cost, step⟩ := e
      obtain ⟨split, left, right, rfl, rfl⟩ := Step.place?_eq_some_iff.1 hp
      refine ⟨⟨fun _ => ⟨_, hleast.1⟩, fun _ => ⟨_, _, _, rfl⟩⟩, ?_, fun hno => absurd ⟨_, hleast.1⟩ hno⟩
      rintro _ _ _ ⟨⟩
      exact hleast
    · have hnone : ¬ ∃ p step, step.place? = some p ∧ Seed g scorer words chart.cell start stop a ⟨e.cost, step⟩ := by
        rintro ⟨_, step, -, hseed⟩
        exact hno step hseed
      refine ⟨⟨?_, fun h => absurd h hnone⟩, ?_, fun _ => ⟨b, hb⟩⟩ <;> simp [hb]
  · rw [Chart.lexical_iff hg scorer hword hlabel]
    simp only [Chart.offersUnary_iff hlabel, not_lt]
    refine and_congr_right fun _ => and_congr_right fun _ => ⟨?_, ?_⟩
    · rintro h b _ ⟨k, edge, child, hedge, hparent, rfl, hchild, rfl⟩
      obtain ⟨hlower, hequal⟩ := h k edge child hedge hparent hchild
      obtain ⟨path, hpath⟩ := (Chart.grounded_fill hg scorer words start (start + 1)).chain hchild
      exact ⟨hlower, fun hcost => ⟨path, hpath, hpath.reaches_iff.1 (hequal hcost)⟩⟩
    · intro h k edge child hedge hparent hchild
      obtain ⟨hlower, hequal⟩ := h _ _ ⟨k, edge, child, hedge, hparent, rfl, hchild, rfl⟩
      refine ⟨hlower, fun hcost => ?_⟩
      obtain ⟨path, hpath, hmem⟩ := hequal hcost
      exact hpath.reaches_iff.2 hmem

end Ties

/-- Rules that make a phrase in two ways and go round between two tags, all at no cost. -/
def evenRules : List (Rule ℚ) :=
  [⟨.binary "X" "C" "D", 1⟩, ⟨.binary "X" "A" "B", 1⟩, ⟨.unary "A" "C", 1⟩, ⟨.unary "C" "A", 1⟩]

/-- A scorer under which each word has two tags that are equally good. -/
def evenTags : TagScorer ℚ :=
  .ofTable [(⟨"time", "A"⟩, 1 / 2), (⟨"time", "C"⟩, 1 / 2), (⟨"flies", "B"⟩, 1), (⟨"flies", "D"⟩, 1)]

/-- Of two places with one cost the first is taken. Of two tags that derive each other at no cost one is replaced, and
the other stays because the chain from the first leads back to it. -/
theorem ties_broken_even :
    let chart := Chart.fill (.ofRules evenRules : Grammar ℚ ℤ) evenTags ["time", "flies"]
    AtMostCertain evenRules ∧
    (IsLeast {p | chart.OffersBinary evenRules 0 2 "X" p 1} (toLex (1, toLex (0, 1))) ∧
      chart.OffersBinary evenRules 0 2 "X" (toLex (1, toLex (2, 3))) 1) ∧
    (∃ path, Cell.Chain (chart.cell 0 1) 2 path ∧ 0 ∈ path) ∧
    (chart.cell 0 1).values.map Entry.step = [.lexical, .unary 0] := by
  intro chart
  have hrules : AtMostCertain evenRules := by unfold AtMostCertain; decide +kernel
  have hnothing : (surprisal (1 : ℚ) : ℤ) = 0 := by decide +kernel
  obtain ⟨hspan, hword⟩ := ties_broken (κ := ℤ) hrules evenTags ["time", "flies"]
  refine ⟨hrules, ⟨?_, ?_⟩, ?_, by decide +kernel⟩
  · have hentry : ((chart.cell 0 2)[4]?.map fun e => (e.cost, e.step)) = some (1, .binary 1 0 1) := by decide +kernel
    obtain ⟨⟨cost, step⟩, he, heq⟩ := Option.map_eq_some_iff.1 hentry
    cases heq
    exact (hspan 0 2 "X" 4 _ (by decide) (by decide +kernel) he).2.1 1 0 1 rfl
  · have hmem : (⟨.binary "X" "C" "D", 1⟩ : Rule ℚ) ∈ evenRules := by simp [evenRules]
    have hoffer : chart.OffersBinary evenRules 0 2 "X" (toLex (1, toLex (2, 3))) (1 + 0 + surprisal (1 : ℚ)) :=
      .intro hmem rfl (by decide +kernel) (by decide) (by decide) (by decide +kernel) (by decide +kernel)
        (by decide +kernel) (by decide +kernel)
    rwa [hnothing, add_zero, add_zero] at hoffer
  · have hentry : ((chart.cell 0 1)[0]?.map fun e => (e.cost, e.step)) = some (1, .lexical) := by decide +kernel
    obtain ⟨⟨cost, step⟩, he, heq⟩ := Option.map_eq_some_iff.1 hentry
    cases heq
    obtain ⟨-, -, hoffers⟩ := (hword 0 "time" "A" 0 rfl (by decide +kernel)).1 ⟨1, he⟩
    have hmem : (⟨.unary "A" "C", 1⟩ : Rule ℚ) ∈ evenRules := by simp [evenRules]
    have hoffer : chart.OffersUnary evenRules 0 1 "A" 2 (1 + surprisal (1 : ℚ)) :=
      .intro hmem rfl (by decide +kernel) (by decide +kernel) (by decide +kernel)
    rw [hnothing, add_zero] at hoffer
    exact (hoffers 2 1 hoffer).2 (by decide +kernel)

end Constituency
