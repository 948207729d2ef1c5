/-
Derivations are what the chart says they are. In a finished chart the cost of an entry is the sum of the costs
that the entries named by its step have in the end and of the least cost of a rule with that production
(`exists_agrees`): it is no less by the support of the entry, and no more because the cell is closed. So
adding up a tree that was read off gives the cost of the entry it was read off from.
-/
import Constituency.Proofs.Chart.Steps

namespace Constituency

variable {ρ κ : Type} [NatCast ρ] [LT ρ] [Surprisal ρ κ] [LinearOrder κ]

/-! ## The cheapest copy of a rule -/

section LeastCost

variable [DecidableLT ρ]

/-- The least cost among the possible rules with a production. -/
def leastCost? (κ : Type) [Surprisal ρ κ] [LinearOrder κ] (rules : List (Rule ρ)) (p : Production) : Option κ :=
  ((rules.filter fun r => r.production = p ∧ r.isPossible).map fun r => (surprisal r.probability : κ)).min?

variable {rules : List (Rule ρ)} {p : Production}

theorem leastCost?_eq_some_iff {c : κ} : leastCost? κ rules p = some c ↔
    (∃ r ∈ rules, r.production = p ∧ ((0 : Nat) : ρ) < r.probability ∧ surprisal r.probability = c) ∧
    ∀ r ∈ rules, r.production = p → ((0 : Nat) : ρ) < r.probability → c ≤ surprisal r.probability := by
  simp only [leastCost?, List.min?_eq_some_iff, List.mem_map, List.mem_filter, Rule.isPossible_iff,
    Bool.decide_and, Bool.and_eq_true, decide_eq_true_eq, and_assoc]
  refine and_congr_right fun _ => ⟨fun h r hr hprod hpos => h _ ⟨r, hr, hprod, hpos, rfl⟩, ?_⟩
  rintro h _ ⟨r, hr, hprod, hpos, rfl⟩
  exact h r hr hprod hpos

theorem exists_leastCost? {r : Rule ρ} (hr : r ∈ rules) (hpos : ((0 : Nat) : ρ) < r.probability) :
    ∃ r' ∈ rules, r'.production = r.production ∧ ((0 : Nat) : ρ) < r'.probability ∧
      leastCost? κ rules r.production = some (surprisal r'.probability) ∧
      (surprisal r'.probability : κ) ≤ surprisal r.probability := by
  have hmem : r ∈ rules.filter fun s => s.production = r.production ∧ s.isPossible :=
    List.mem_filter.2 ⟨hr, by simpa using Rule.isPossible_iff.2 hpos⟩
  obtain ⟨c, hc⟩ := Option.isSome_iff_exists.1 (List.isSome_min?_of_mem
    (List.mem_map_of_mem (f := fun r : Rule ρ => (surprisal r.probability : κ)) hmem))
  obtain ⟨⟨r', hr', hprod, hpos', rfl⟩, hle⟩ := leastCost?_eq_some_iff.1 hc
  exact ⟨r', hr', hprod, hpos', hc, hle r hr rfl hpos⟩

end LeastCost

/-! ## Adding up a tree -/

section Sum

variable [DecidableLT ρ] [Add κ]

/-- The cost of a derivation tree: the costs of its rules and taggings, added from the words up in the order of
the chart, each rule at its cheapest. -/
def Tree.cost? (κ : Type) [Surprisal ρ κ] [LinearOrder κ] [Add κ] (rules : List (Rule ρ)) (scorer : TagScorer ρ) :
    Tree → Option κ
  | .node tag [.node word []] => some (surprisal (scorer.score word tag))
  | .node l [t] => do
    let c ← t.cost? κ rules scorer
    let r ← leastCost? κ rules (.unary l t.label)
    return c + r
  | .node l [s, t] => do
    let c ← s.cost? κ rules scorer
    let d ← t.cost? κ rules scorer
    let r ← leastCost? κ rules (.binary l s.label t.label)
    return c + d + r
  | .node _ _ => none

variable {rules : List (Rule ρ)} {scorer : TagScorer ρ} {l : String} {s t : Tree} {c d r : κ}

theorem Tree.cost?_unary (ht : t.isLeaf = false) (hc : t.cost? κ rules scorer = some c)
    (hr : leastCost? κ rules (.unary l t.label) = some r) :
    (Tree.node l [t]).cost? κ rules scorer = some (c + r) := by
  obtain ⟨m, _ | ⟨u, us⟩⟩ := t
  · cases ht
  · rw [Tree.cost?, hc, hr]
    · rfl
    · simp

theorem Tree.cost?_binary (hs : s.cost? κ rules scorer = some c) (ht : t.cost? κ rules scorer = some d)
    (hr : leastCost? κ rules (.binary l s.label t.label) = some r) :
    (Tree.node l [s, t]).cost? κ rules scorer = some (c + d + r) := by
  rw [Tree.cost?, hs, ht, hr]
  rfl

end Sum

/-! ## Nodes of derivations -/

/-- A node is a tag of the scorer over a word that can have it, or a possible rule over nodes that are not
words. -/
def Licensed (rules : List (Rule ρ)) (scorer : TagScorer ρ) (t : Tree) : Prop :=
  (∃ tag word, t = .preterminal tag word ∧ tag ∈ scorer.tags ∧ ((0 : Nat) : ρ) < scorer.score word tag) ∨
    ∃ r ∈ rules, Production.ofNode? t = some r.production ∧ ((0 : Nat) : ρ) < r.probability ∧
      ∀ s ∈ t.children, s.isLeaf = false

omit [LinearOrder κ] in
theorem Derives.isLeaf [Add κ] {rules : List (Rule ρ)} {scorer : TagScorer ρ} {t : Tree} {c : κ}
    (h : Derives rules scorer t c) : t.isLeaf = false := by
  cases h <;> rfl

omit [LinearOrder κ] in
/-- Every node of a derivation that is not a word is licensed. -/
theorem Derives.licensed [Add κ] {rules : List (Rule ρ)} {scorer : TagScorer ρ} {t : Tree} {c : κ}
    (h : Derives rules scorer t c) : ∀ s ∈ t.subtrees, s.isLeaf = true ∨ Licensed rules scorer s := by
  induction h with
  | tagging htag _ hpos =>
    refine Tree.forall_mem_subtrees_node.2 ⟨.inr (.inl ⟨_, _, rfl, htag, hpos⟩), ?_⟩
    simp [Tree.leaf, Tree.subtrees_node]
  | unary hr hprod hpos ht ih =>
    refine Tree.forall_mem_subtrees_node.2 ⟨.inr (.inr ⟨_, hr, by rw [hprod]; rfl, hpos, ?_⟩), by simpa using ih⟩
    simpa using ht.isLeaf
  | binary hr hprod hpos hs ht ihs iht =>
    refine Tree.forall_mem_subtrees_node.2
      ⟨.inr (.inr ⟨_, hr, by rw [hprod]; rfl, hpos, ?_⟩), by simpa using ⟨ihs, iht⟩⟩
    simpa using ⟨hs.isLeaf, ht.isLeaf⟩

/-! ## Entries and what they name -/

section Agrees

variable [DecidableLT ρ] [Add κ]

/-- The cost of an entry is that of its tagging, or the sum of the costs of the entries that its step names and of
the cheapest rule. -/
inductive Agrees (rules : List (Rule ρ)) (scorer : TagScorer ρ) (words : List String) (g : Grammar ρ κ) (c : Chart κ)
    (start stop : Nat) : String → Entry κ → Prop
  | lexical {tag word : String} : stop = start + 1 → words[start]? = some word → tag ∈ scorer.tags →
      ((0 : Nat) : ρ) < scorer.score word tag →
      Agrees rules scorer words g c start stop tag ⟨surprisal (scorer.score word tag), .lexical⟩
  | unary {parent child : String} {b : Nat} {eb : Entry κ} {r : κ} : g.symbols.name? b = some child →
      (c.cell start stop)[b]? = some eb → leastCost? κ rules (.unary parent child) = some r →
      Agrees rules scorer words g c start stop parent ⟨eb.cost + r, .unary b⟩
  | binary {parent left right : String} {split i j : Nat} {ei ej : Entry κ} {r : κ} : start < split → split < stop →
      g.symbols.name? i = some left → g.symbols.name? j = some right → (c.cell start split)[i]? = some ei →
      (c.cell split stop)[j]? = some ej → leastCost? κ rules (.binary parent left right) = some r →
      Agrees rules scorer words g c start stop parent ⟨ei.cost + ej.cost + r, .binary split i j⟩

variable {rules : List (Rule ρ)}

omit [Add κ] in
/-- Beside every unary edge stands one with the least cost for its production. -/
theorem exists_cheapest_unaryEdge {k : Nat} {edge : UnaryEdge κ}
    (h : edge ∈ (Grammar.ofRules (κ := κ) rules).unaryEdges.get k) :
    ∃ parent child r, (Grammar.ofRules (κ := κ) rules).symbols.number? parent = some edge.parent ∧
      (Grammar.ofRules (κ := κ) rules).symbols.number? child = some edge.child ∧
      leastCost? κ rules (.unary parent child) = some r ∧ r ≤ edge.cost ∧
      (⟨edge.parent, edge.child, r⟩ : UnaryEdge κ) ∈ (Grammar.ofRules rules).unaryEdges.get edge.child := by
  obtain ⟨r, hr, parent, child, hprod, hpos, hparent, hchild, -, hcost⟩ := Grammar.mem_unaryEdges_iff.1 h
  obtain ⟨r', hr', hprod', hpos', hleast, hle⟩ := exists_leastCost? (κ := κ) hr hpos
  rw [hprod] at hprod' hleast
  exact ⟨parent, child, _, hparent, hchild, hleast, hcost ▸ hle,
    Grammar.mem_unaryEdges_iff.2 ⟨r', hr', _, _, hprod', hpos', hparent, hchild, rfl, rfl⟩⟩

omit [Add κ] in
/-- Beside every binary edge stands one with the least cost for its production. -/
theorem exists_cheapest_binaryEdge {k : Nat} {edge : BinaryEdge κ}
    (h : edge ∈ (Grammar.ofRules (κ := κ) rules).binaryEdges.get k) :
    ∃ parent left right r, (Grammar.ofRules (κ := κ) rules).symbols.number? parent = some edge.parent ∧
      (Grammar.ofRules (κ := κ) rules).symbols.number? left = some edge.left ∧
      (Grammar.ofRules (κ := κ) rules).symbols.number? right = some edge.right ∧
      leastCost? κ rules (.binary parent left right) = some r ∧ r ≤ edge.cost ∧
      (⟨edge.parent, edge.left, edge.right, r⟩ : BinaryEdge κ) ∈
        (Grammar.ofRules rules).binaryEdges.get edge.left := by
  obtain ⟨r, hr, parent, left, right, hprod, hpos, hparent, hleft, hright, -, hcost⟩ :=
    Grammar.mem_binaryEdges_iff.1 h
  obtain ⟨r', hr', hprod', hpos', hleast, hle⟩ := exists_leastCost? (κ := κ) hr hpos
  rw [hprod] at hprod' hleast
  exact ⟨parent, left, right, _, hparent, hleft, hright, hleast, hcost ▸ hle,
    Grammar.mem_binaryEdges_iff.2 ⟨r', hr', _, _, _, hprod', hpos', hparent, hleft, hright, rfl, rfl⟩⟩

variable [AddLeftMono κ] [AddRightMono κ] [LE ρ] [LawfulSurprisal ρ κ]

/-- Every entry of a finished chart agrees with the entries that its step names. -/
theorem exists_agrees (hrules : AtMostCertain rules) (scorer : TagScorer ρ) (words : List String) {start stop a : Nat}
    {e : Entry κ} (he : ((Chart.fill (.ofRules rules) scorer words).cell start stop)[a]? = some e) :
    ∃ label, (Grammar.ofRules (κ := κ) rules).symbols.name? a = some label ∧
      Agrees rules scorer words (.ofRules rules) (Chart.fill (.ofRules rules) scorer words) start stop label e := by
  have hg := Grammar.indexed_ofRules (κ := κ) hrules
  obtain ⟨hlt, hstop⟩ := Chart.span_of_mem (Cell.mem_iff_exists.2 ⟨e, he⟩)
  cases (Chart.grounded_fill hg scorer words start stop).supports he with
  | seed hs =>
    cases hs with
    | tagging hone hword htag hnum hpos => exact ⟨_, hg.number_iff.1 hnum, .lexical hone hword htag hpos⟩
    | @combination split k edge l r hlo hhi hedge hl hr =>
      obtain ⟨parent, left, right, c, hparent, hleft, hright, hleast, hle, hcheapest⟩ :=
        exists_cheapest_binaryEdge hedge
      -- the cheapest copy of the rule was offered with the same two parts
      have heq : l.cost + r.cost + edge.cost = l.cost + r.cost + c := by
        refine le_antisymm ?_ (add_le_add le_rfl hle)
        exact (Chart.seed_within hg scorer hlt hstop (.combination hlo hhi hcheapest hl hr)).cost_le he
      rw [heq]
      exact ⟨parent, hg.number_iff.1 hparent,
        .binary hlo hhi (hg.number_iff.1 hleft) (hg.number_iff.1 hright) hl hr hleast⟩
  | @unary k edge child c hedge hchild hsupport =>
    obtain ⟨parent, below, d, hparent, hbelow, hleast, hle, hcheapest⟩ := exists_cheapest_unaryEdge hedge
    -- the child may have become cheaper since the step was entered, but then so has the parent
    have heq : c = child.cost + d := by
      refine le_antisymm ?_ ((add_le_add le_rfl hle).trans hsupport)
      exact (Chart.unary_within hg hcheapest ⟨child, hchild, le_rfl⟩).cost_le he
    rw [heq]
    exact ⟨parent, hg.number_iff.1 hparent, .unary (hg.number_iff.1 hbelow) hchild hleast⟩

theorem agrees_of_name? (hrules : AtMostCertain rules) {words : List String} {start stop a : Nat} {label : String}
    {e : Entry κ} (hname : (Grammar.ofRules (κ := κ) rules).symbols.name? a = some label)
    (he : ((Chart.fill (.ofRules rules) scorer words).cell start stop)[a]? = some e) :
    Agrees rules scorer words (.ofRules rules) (Chart.fill (.ofRules rules) scorer words) start stop label e := by
  obtain ⟨label', hlabel, hagrees⟩ := exists_agrees hrules scorer words he
  rw [hname] at hlabel; cases hlabel
  exact hagrees

/-- A tree that was read off derives the words of its span at the cost of the entry, which is what adding it up
gives. -/
theorem Chart.Reads.derives (hrules : AtMostCertain rules) {words : List String} {start stop a : Nat} {t : Tree}
    (h : Reads (.ofRules rules) words (Chart.fill (.ofRules rules : Grammar ρ κ) scorer words) a start stop t) :
    ∀ {e : Entry κ}, ((Chart.fill (.ofRules rules) scorer words).cell start stop)[a]? = some e →
      Derives rules scorer t e.cost ∧ t.words = words.extract start stop ∧ t.cost? κ rules scorer = some e.cost := by
  have hg := Grammar.indexed_ofRules (κ := κ) hrules
  suffices hsum : ∀ {e : Entry κ}, ((Chart.fill (.ofRules rules) scorer words).cell start stop)[a]? = some e →
      Derives rules scorer t e.cost ∧ t.cost? κ rules scorer = some e.cost by
    intro e he
    obtain ⟨hderives, hcost⟩ := hsum he
    exact ⟨hderives, h.words_eq, hcost⟩
  have hmentioned {s : String} {i : Nat} (hs : (Grammar.ofRules (κ := κ) rules).symbols.name? i = some s) :=
    (Grammar.mem_symbols_iff κ).1 ⟨i, hg.number_iff.2 hs⟩
  induction h with
  | lexical hname he hword =>
    intro e he'
    rw [he] at he'; cases he'
    cases agrees_of_name? hrules hname he with
    | lexical hone hword' htag hpos =>
      rw [hword] at hword'; cases hword'
      exact ⟨.tagging htag (hmentioned hname) hpos, rfl⟩
  | unary hname he ht ih =>
    intro e he'
    rw [he] at he'; cases he'
    cases agrees_of_name? hrules hname he with
    | unary hchild hb hr =>
      rw [ht.name?] at hchild; cases hchild
      obtain ⟨hderives, hcost⟩ := ih hb
      obtain ⟨⟨r, hmem, hprod, hpos, rfl⟩, -⟩ := leastCost?_eq_some_iff.1 hr
      exact ⟨.unary hmem hprod hpos hderives, Tree.cost?_unary ht.isLeaf hcost hr⟩
  | binary hname he hl hr ihl ihr =>
    intro e he'
    rw [he] at he'; cases he'
    cases agrees_of_name? hrules hname he with
    | binary hlo hhi hleft hright hi hj hleast =>
      rw [hl.name?] at hleft; cases hleft
      rw [hr.name?] at hright; cases hright
      obtain ⟨hderivesl, hcostl⟩ := ihl hi
      obtain ⟨hderivesr, hcostr⟩ := ihr hj
      obtain ⟨⟨r, hmem, hprod, hpos, rfl⟩, -⟩ := leastCost?_eq_some_iff.1 hleast
      exact ⟨.binary hmem hprod hpos hderivesl hderivesr, Tree.cost?_binary hcostl hcostr hleast⟩

/-- A derivation that is found is one of the words from the start symbol, at its cost. -/
theorem Grammar.derives_of_derive? (hrules : AtMostCertain rules) {words : List String} {start : String}
    {d : Derivation κ} (h : (Grammar.ofRules (κ := κ) rules).derive? scorer words start = some d) :
    Derives rules scorer d.tree d.cost ∧ d.tree.label = start ∧ d.tree.words = words ∧
      d.tree.cost? κ rules scorer = some d.cost := by
  obtain ⟨a, e, ha, he, hcost, hreads⟩ := exists_of_derive? h
  obtain ⟨hderives, -, hsum⟩ := hreads.derives hrules he
  rw [hcost] at hderives hsum
  have hlabel := hreads.name?
  rw [(indexed_ofRules (κ := κ) hrules).number_iff.1 ha] at hlabel
  exact ⟨hderives, (Option.some.inj hlabel).symm, words_of_derive? h, hsum⟩

/-- A derivation that is found has the start symbol at its root and the words of the sentence in order, its nodes
are licensed, and adding it up gives its cost; and every entry of the chart agrees with the entries that its step
names. -/
theorem derive?_faithful (hrules : AtMostCertain rules) (scorer : TagScorer ρ) (words : List String) :
    let g : Grammar ρ κ := .ofRules rules
    let chart := Chart.fill g scorer words
    (∀ start d, g.derive? scorer words start = some d →
      d.tree.label = start ∧ d.tree.words = words ∧ d.tree.isLeaf = false ∧
      (∀ t ∈ d.tree.subtrees, t.isLeaf = true ∨ Licensed rules scorer t) ∧
      d.tree.cost? κ rules scorer = some d.cost) ∧
    ∀ (start stop a : Nat) (e : Entry κ), (chart.cell start stop)[a]? = some e →
      ∃ label, g.symbols.name? a = some label ∧ Agrees rules scorer words g chart start stop label e := by
  intro g chart
  refine ⟨fun start d hd => ?_, fun start stop a e he => exists_agrees hrules scorer words he⟩
  obtain ⟨hderives, hlabel, hwords, hcost⟩ := Grammar.derives_of_derive? hrules hd
  exact ⟨hlabel, hwords, hderives.isLeaf, hderives.licensed, hcost⟩

end Agrees

/-! ## Two copies of a rule and a tie -/

/-- Rules with two copies of a production, the dearer one first, and a cycle that costs nothing. -/
def copiedRules : List (Rule ℚ) :=
  [⟨.binary "S" "A" "B", 1 / 8⟩, ⟨.binary "S" "A" "B", 1 / 2⟩, ⟨.unary "A" "B", 1⟩, ⟨.unary "B" "A", 1⟩]

theorem derive?_faithful_copied : AtMostCertain copiedRules ∧
    ∃ d, (.ofRules copiedRules : Grammar ℚ ℤ).derive? tiedTags ["time", "time"] "S" = some d ∧ d.cost = 3 ∧
      d.tree.cost? ℤ copiedRules tiedTags = some 3 := by
  have hrules : AtMostCertain copiedRules := by unfold AtMostCertain; decide +kernel
  have hcost : ((.ofRules copiedRules : Grammar ℚ ℤ).derive? tiedTags ["time", "time"] "S").map Derivation.cost =
      some 3 := by decide +kernel
  obtain ⟨d, hd, hdcost⟩ := Option.map_eq_some_iff.1 hcost
  obtain ⟨-, -, -, -, hsum⟩ := (derive?_faithful hrules tiedTags ["time", "time"]).1 "S" d hd
  exact ⟨hrules, d, hd, hdcost, hdcost ▸ hsum⟩

end Constituency
