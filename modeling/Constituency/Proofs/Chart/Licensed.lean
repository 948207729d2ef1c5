/-
What derivations are made of, whatever the arithmetic. Every step in a chart comes from an edge of the grammar or from
a tag of the word (`Cell.Backed`); no law of costs takes part in it, so that this holds of costs that round as well. So
every node of a derivation is a tag of its word or applies a possible rule (`licensed_of_derive?`).
-/
import Constituency.Proofs.Chart.Faithful

namespace Constituency

variable {ρ κ : Type} [NatCast ρ] [LT ρ] {g : Grammar ρ κ} {scorer : TagScorer ρ} {word : String}

/-! ## Steps with an edge or a tag behind them -/

/-- A step to a symbol that the grammar, or the word that the span starts with, allows. -/
inductive Step.Backed (g : Grammar ρ κ) (scorer : TagScorer ρ) (word : String) : Nat → Step → Prop
  | lexical {tag : String} {a : Nat} : tag ∈ scorer.tags → g.symbols.number? tag = some a →
      ((0 : Nat) : ρ) < scorer.score word tag → Backed g scorer word a .lexical
  | unary {k : Nat} {edge : UnaryEdge κ} : edge ∈ g.unaryEdges.get k →
      Backed g scorer word edge.parent (.unary edge.child)
  | binary {k split : Nat} {edge : BinaryEdge κ} : edge ∈ g.binaryEdges.get k →
      Backed g scorer word edge.parent (.binary split edge.left edge.right)

/-- All steps of a cell have an edge or a tag behind them. -/
def Cell.Backed (g : Grammar ρ κ) (scorer : TagScorer ρ) (word : String) (cell : Cell κ) : Prop :=
  ∀ (a : Nat) (e : Entry κ), cell[a]? = some e → Step.Backed g scorer word a e.step

theorem admits_backed (g : Grammar ρ κ) (scorer : TagScorer ρ) (words : Array String) :
    Admits g scorer words fun start _ => Step.Backed g scorer (words.getD start "") where
  lexical _ _ htag _ hnumber hpos := .lexical htag hnumber hpos
  unary _ _ _ _ hedge := .unary hedge
  binary _ _ _ _ _ _ _ hedge := .binary hedge

variable [DecidableLT ρ] [Surprisal ρ κ] [Add κ] [LT κ] [DecidableLT κ] [BEq κ]

/-- All steps of a chart have an edge or a tag behind them. -/
theorem Chart.backed_fill (g : Grammar ρ κ) (scorer : TagScorer ρ) (words : List String) (start stop : Nat) :
    ((Chart.fill g scorer words).cell start stop).Backed g scorer (words.getD start "") := by
  have hword : words.getD start "" = words.toArray.getD start "" := by simp
  rw [hword]
  exact everyStep_fill (admits_backed g scorer words.toArray) start stop

/-! ## Derivations -/

section Rules

variable {rules : List (Rule ρ)} {a : Nat}

omit [Add κ] [LT κ] [DecidableLT κ] [BEq κ]

theorem Step.Backed.tag_mem {label : String} (h : Step.Backed (.ofRules rules : Grammar ρ κ) scorer word a .lexical)
    (ha : (Grammar.ofRules (κ := κ) rules).symbols.name? a = some label) :
    label ∈ scorer.tags ∧ ((0 : Nat) : ρ) < scorer.score word label := by
  cases h with
  | lexical htag hnumber hpos =>
    cases ha.symm.trans (SymbolTable.number?_eq_some_iff.1 hnumber)
    exact ⟨htag, hpos⟩

theorem Step.Backed.exists_unary {b : Nat} {parent child : String}
    (h : Step.Backed (.ofRules rules : Grammar ρ κ) scorer word a (.unary b))
    (ha : (Grammar.ofRules (κ := κ) rules).symbols.name? a = some parent)
    (hb : (Grammar.ofRules (κ := κ) rules).symbols.name? b = some child) :
    ∃ r ∈ rules, r.production = .unary parent child ∧ ((0 : Nat) : ρ) < r.probability := by
  cases h with
  | unary hedge =>
    obtain ⟨r, hr, _, _, hprod, hpos, hparent, hchild, -⟩ := Grammar.mem_unaryEdges_iff.1 hedge
    cases ha.symm.trans (SymbolTable.number?_eq_some_iff.1 hparent)
    cases hb.symm.trans (SymbolTable.number?_eq_some_iff.1 hchild)
    exact ⟨r, hr, hprod, hpos⟩

theorem Step.Backed.exists_binary {split i j : Nat} {parent left right : String}
    (h : Step.Backed (.ofRules rules : Grammar ρ κ) scorer word a (.binary split i j))
    (ha : (Grammar.ofRules (κ := κ) rules).symbols.name? a = some parent)
    (hi : (Grammar.ofRules (κ := κ) rules).symbols.name? i = some left)
    (hj : (Grammar.ofRules (κ := κ) rules).symbols.name? j = some right) :
    ∃ r ∈ rules, r.production = .binary parent left right ∧ ((0 : Nat) : ρ) < r.probability := by
  cases h with
  | binary hedge =>
    obtain ⟨r, hr, _, _, _, hprod, hpos, hparent, hleft, hright, -⟩ := Grammar.mem_binaryEdges_iff.1 hedge
    cases ha.symm.trans (SymbolTable.number?_eq_some_iff.1 hparent)
    cases hi.symm.trans (SymbolTable.number?_eq_some_iff.1 hleft)
    cases hj.symm.trans (SymbolTable.number?_eq_some_iff.1 hright)
    exact ⟨r, hr, hprod, hpos⟩

end Rules

/-- A tree that was read off a chart is licensed at every node. -/
theorem Chart.Reads.licensed {rules : List (Rule ρ)} {words : List String} {a start stop : Nat} {t : Tree}
    (h : Reads (.ofRules rules) words (Chart.fill (.ofRules rules : Grammar ρ κ) scorer words) a start stop t) :
    ∀ s ∈ t.subtrees, s.isLeaf = true ∨ Licensed rules scorer s := by
  have hbacked := backed_fill (.ofRules rules : Grammar ρ κ) scorer words
  induction h with
  | @lexical a start stop label word cost hlabel he hword =>
    have htag := (hbacked start stop a _ he).tag_mem hlabel
    rw [List.getD_eq_getElem?_getD, hword] at htag
    exact Tree.forall_mem_subtrees_node.2
      ⟨.inr (.inl ⟨label, word, rfl, htag⟩), by simp [Tree.leaf, Tree.subtrees_node]⟩
  | @unary a b start stop label cost t hlabel he ht ih =>
    obtain ⟨r, hr, hprod, hpos⟩ := (hbacked start stop a _ he).exists_unary hlabel ht.name?
    exact Tree.forall_mem_subtrees_node.2
      ⟨.inr (.inr ⟨r, hr, by rw [hprod]; rfl, hpos, by simpa using ht.isLeaf⟩), by simpa using ih⟩
  | @binary a i j start split stop label cost s t hlabel he hs ht ihs iht =>
    obtain ⟨r, hr, hprod, hpos⟩ := (hbacked start stop a _ he).exists_binary hlabel hs.name? ht.name?
    exact Tree.forall_mem_subtrees_node.2
      ⟨.inr (.inr ⟨r, hr, by rw [hprod]; rfl, hpos, by simpa using ⟨hs.isLeaf, ht.isLeaf⟩⟩), by simpa using ⟨ihs, iht⟩⟩

/-- A derivation has the start symbol at its root and is licensed at every node. -/
theorem Grammar.licensed_of_derive? {rules : List (Rule ρ)} {words : List String} {start : String} {d : Derivation κ}
    (h : (Grammar.ofRules (κ := κ) rules).derive? scorer words start = some d) :
    d.tree.label = start ∧ d.tree.isLeaf = false ∧
      ∀ s ∈ d.tree.subtrees, s.isLeaf = true ∨ Licensed rules scorer s := by
  simp only [derive?, Option.bind_eq_bind, Option.bind_eq_some_iff, Option.pure_def, Option.some.injEq] at h
  obtain ⟨-, -, a, ha, cost, -, t, ht, rfl⟩ := h
  have hreads := Chart.reads_of_tree? ht
  cases hreads.name?.symm.trans (SymbolTable.number?_eq_some_iff.1 ha)
  exact ⟨rfl, hreads.isLeaf, hreads.licensed⟩

end Constituency
