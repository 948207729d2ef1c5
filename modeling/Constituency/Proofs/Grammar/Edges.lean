/-
The edges of a grammar made from rules. Under each number stand exactly the edges of the possible rules
with that child or left child, numbered through the symbol table, with the costs of their probabilities
(`mem_unaryEdges_iff`, `mem_binaryEdges_iff`). What charts rely on is gathered in `Grammar.Indexed`; rules
that are at most certain give such a grammar (`indexed_ofRules`), for which the unary ones are enough.
-/
import Constituency.Proofs.Grammar.Cost
import Constituency.Proofs.Grammar.Symbols

namespace Constituency

/-! ## Sorting by groups -/

namespace Index

variable {ι α : Type} [Ord ι] [Std.TransOrd ι] [Std.LawfulEqOrd ι]

theorem mem_values_iff {ix : Index ι α} {a : α} : a ∈ ix.values ↔ ∃ k, a ∈ ix.get k := by
  unfold values get
  simp only [List.mem_flatMap, Prod.exists, Std.TreeMap.mem_toList_iff_getElem?_eq_some,
    Std.TreeMap.getD_eq_getD_getElem?]
  constructor
  · rintro ⟨k, as, hk, ha⟩
    exact ⟨k, by rw [hk]; exact ha⟩
  · rintro ⟨k, ha⟩
    cases hk : ix.groups[k]? with
    | none => simp [hk] at ha
    | some as => exact ⟨k, as, hk, by simpa [hk] using ha⟩

theorem mem_get_ofPairs [DecidableEq ι] {pairs : List (ι × α)} {k : ι} {a : α} :
    a ∈ (ofPairs pairs).get k ↔ (k, a) ∈ pairs := by
  simp [get_ofPairs]

end Index

theorem mem_sortedOn {ι α : Type} [Ord ι] [Std.TransOrd ι] [Std.LawfulEqOrd ι] [DecidableEq ι]
    {key : α → ι} {xs : List α} {x : α} : x ∈ sortedOn key xs ↔ x ∈ xs := by
  unfold sortedOn
  simp only [Index.mem_values_iff, Index.mem_get_ofPairs, List.mem_map, Prod.mk.injEq]
  constructor
  · rintro ⟨_, y, hy, _, rfl⟩; exact hy
  · intro hx; exact ⟨key x, x, hx, rfl, rfl⟩

/-! ## Edges and rules -/

section Edges

variable {ρ κ : Type} [NatCast ρ] [LT ρ] [DecidableLT ρ] [Surprisal ρ κ]

namespace Rule

theorem isPossible_iff {r : Rule ρ} : r.isPossible = true ↔ ((0 : Nat) : ρ) < r.probability := by
  simp [isPossible]

/-- A rule has the unary edge of its possible production. -/
theorem unaryEdge?_eq_some_iff {symbols : SymbolTable} {r : Rule ρ} {k : Nat} {e : UnaryEdge κ} :
    r.unaryEdge? symbols = some (k, e) ↔
      ∃ parent child, r.production = .unary parent child ∧ ((0 : Nat) : ρ) < r.probability ∧
        symbols.number? parent = some e.parent ∧ symbols.number? child = some e.child ∧ k = e.child ∧
        e.cost = surprisal r.probability := by
  obtain ⟨ep, ec, cost⟩ := e
  cases hr : r.production with
  | binary parent left right => simp [unaryEdge?, hr]
  | unary parent child =>
    simp only [unaryEdge?, hr, Option.bind_eq_bind, Option.guard_eq_some', isPossible_iff, Option.bind_eq_some_iff,
      Option.pure_def, Option.some.injEq, Prod.mk.injEq, UnaryEdge.mk.injEq, Production.unary.injEq]
    constructor
    · rintro ⟨_, hp, p, hparent, c, hchild, rfl, rfl, rfl, rfl⟩
      exact ⟨parent, child, ⟨rfl, rfl⟩, hp, hparent, hchild, rfl, rfl⟩
    · rintro ⟨_, _, ⟨rfl, rfl⟩, hp, hparent, hchild, rfl, rfl⟩
      exact ⟨(), hp, ep, hparent, _, hchild, rfl, rfl, rfl, rfl⟩

/-- A rule has the binary edge of its possible production. -/
theorem binaryEdge?_eq_some_iff {symbols : SymbolTable} {r : Rule ρ} {k : Nat} {e : BinaryEdge κ} :
    r.binaryEdge? symbols = some (k, e) ↔
      ∃ parent left right, r.production = .binary parent left right ∧ ((0 : Nat) : ρ) < r.probability ∧
        symbols.number? parent = some e.parent ∧ symbols.number? left = some e.left ∧
        symbols.number? right = some e.right ∧ k = e.left ∧ e.cost = surprisal r.probability := by
  obtain ⟨ep, el, er, cost⟩ := e
  cases hr : r.production with
  | unary parent child => simp [binaryEdge?, hr]
  | binary parent left right =>
    simp only [binaryEdge?, hr, Option.bind_eq_bind, Option.guard_eq_some', isPossible_iff, Option.bind_eq_some_iff,
      Option.pure_def, Option.some.injEq, Prod.mk.injEq, BinaryEdge.mk.injEq, Production.binary.injEq]
    constructor
    · rintro ⟨_, hp, p, hparent, l, hleft, r, hright, rfl, rfl, rfl, rfl, rfl⟩
      exact ⟨parent, left, right, ⟨rfl, rfl, rfl⟩, hp, hparent, hleft, hright, rfl, rfl⟩
    · rintro ⟨_, _, _, ⟨rfl, rfl, rfl⟩, hp, hparent, hleft, hright, rfl, rfl⟩
      exact ⟨(), hp, ep, hparent, _, hleft, _, hright, rfl, rfl, rfl, rfl, rfl⟩

end Rule

namespace Grammar

variable {rules : List (Rule ρ)}

theorem mem_symbols_iff (κ : Type) [Surprisal ρ κ] {s : String} :
    (∃ i, (ofRules (κ := κ) rules).symbols.number? s = some i) ↔ ∃ r ∈ rules, s ∈ r.production.symbols := by
  show (∃ i, (SymbolTable.ofList _).number? s = some i) ↔ _
  simp only [SymbolTable.exists_number?_iff, List.mem_flatMap, mem_sortedOn]

theorem mem_nonTerminals_iff (κ : Type) [Surprisal ρ κ] {s : String} :
    s ∈ (ofRules (κ := κ) rules).nonTerminals ↔ ∃ r ∈ rules, r.production.parent = s := by
  show s ∈ Std.TreeSet.ofList _ ↔ _
  rw [Std.TreeSet.mem_ofList, List.contains_iff_mem, List.mem_map]
  simp only [mem_sortedOn]

/-- The unary edges under a number are those of the possible rules with that child. -/
theorem mem_unaryEdges_iff {k : Nat} {e : UnaryEdge κ} : e ∈ (ofRules rules).unaryEdges.get k ↔
    ∃ r ∈ rules, ∃ parent child, r.production = .unary parent child ∧ ((0 : Nat) : ρ) < r.probability ∧
      (ofRules (κ := κ) rules).symbols.number? parent = some e.parent ∧
      (ofRules (κ := κ) rules).symbols.number? child = some e.child ∧ k = e.child ∧
      e.cost = surprisal r.probability := by
  show e ∈ (Index.ofPairs _).get k ↔ _
  simp only [Index.mem_get_ofPairs, List.mem_filterMap, mem_sortedOn, Rule.unaryEdge?_eq_some_iff]
  rfl

/-- The binary edges under a number are those of the possible rules with that left child. -/
theorem mem_binaryEdges_iff {k : Nat} {e : BinaryEdge κ} : e ∈ (ofRules rules).binaryEdges.get k ↔
    ∃ r ∈ rules, ∃ parent left right, r.production = .binary parent left right ∧
      ((0 : Nat) : ρ) < r.probability ∧ (ofRules (κ := κ) rules).symbols.number? parent = some e.parent ∧
      (ofRules (κ := κ) rules).symbols.number? left = some e.left ∧
      (ofRules (κ := κ) rules).symbols.number? right = some e.right ∧ k = e.left ∧
      e.cost = surprisal r.probability := by
  show e ∈ (Index.ofPairs _).get k ↔ _
  simp only [Index.mem_get_ofPairs, List.mem_filterMap, mem_sortedOn, Rule.binaryEdge?_eq_some_iff]
  rfl

end Grammar

end Edges

/-! ## What charts rely on -/

/-- The symbols of a grammar have numbers of their own below their count, its edges stand under their child and
have numbered parents, and following a unary edge lowers no cost. -/
structure Grammar.Indexed {ρ κ : Type} [LE κ] [Add κ] (g : Grammar ρ κ) : Prop where
  number_iff {s : String} {i : Nat} : g.symbols.number? s = some i ↔ g.symbols.name? i = some s
  child_eq {k : Nat} {e : UnaryEdge κ} : e ∈ g.unaryEdges.get k → e.child = k
  left_eq {k : Nat} {e : BinaryEdge κ} : e ∈ g.binaryEdges.get k → e.left = k
  unary_lt {k : Nat} {e : UnaryEdge κ} : e ∈ g.unaryEdges.get k → e.parent < g.numSymbols
  binary_lt {k : Nat} {e : BinaryEdge κ} : e ∈ g.binaryEdges.get k → e.parent < g.numSymbols
  le_add {k : Nat} {e : UnaryEdge κ} : e ∈ g.unaryEdges.get k → ∀ c : κ, c ≤ c + e.cost

section Indexed

variable {ρ κ : Type} [LE κ] [Add κ] {g : Grammar ρ κ}

theorem Grammar.Indexed.number_inj (hg : g.Indexed) {s t : String} {i : Nat} (hs : g.symbols.number? s = some i)
    (ht : g.symbols.number? t = some i) : s = t :=
  Option.some.inj ((hg.number_iff.1 hs).symm.trans (hg.number_iff.1 ht))

theorem Grammar.Indexed.number_lt (hg : g.Indexed) {s : String} {i : Nat} (hs : g.symbols.number? s = some i) :
    i < g.numSymbols :=
  g.symbols.lt_of_name? (hg.number_iff.1 hs)

end Indexed

section OfRules

variable {ρ κ : Type} [NatCast ρ] [LT ρ] [DecidableLT ρ] [LE ρ] [Surprisal ρ κ] [LE κ] [Add κ] [LawfulSurprisal ρ κ]
  {rules : List (Rule ρ)}

/-- That no unary rule is more than certain will do. -/
theorem Grammar.indexed_ofRules_of_unary (h : AtMostCertain (rules.filter Rule.isUnary)) :
    (ofRules rules : Grammar ρ κ).Indexed where
  number_iff := SymbolTable.number?_eq_some_iff
  child_eq he := by
    obtain ⟨_, -, _, _, -, -, -, -, hk, -⟩ := mem_unaryEdges_iff.1 he
    exact hk.symm
  left_eq he := by
    obtain ⟨_, -, _, _, _, -, -, -, -, -, hk, -⟩ := mem_binaryEdges_iff.1 he
    exact hk.symm
  unary_lt he := by
    obtain ⟨_, -, _, _, -, -, hparent, -⟩ := mem_unaryEdges_iff.1 he
    exact SymbolTable.lt_of_number? hparent
  binary_lt he := by
    obtain ⟨_, -, _, _, _, -, -, hparent, -⟩ := mem_binaryEdges_iff.1 he
    exact SymbolTable.lt_of_number? hparent
  le_add he c := by
    obtain ⟨r, hmem, _, _, hprod, hp, -, -, -, hcost⟩ := mem_unaryEdges_iff.1 he
    have hunary : r ∈ rules.filter Rule.isUnary := List.mem_filter.2 ⟨hmem, by rw [Rule.isUnary, hprod]⟩
    rw [hcost]
    exact LawfulSurprisal.le_add_surprisal hp (h r hunary hp) c

theorem Grammar.indexed_ofRules (h : AtMostCertain rules) : (ofRules rules : Grammar ρ κ).Indexed :=
  indexed_ofRules_of_unary fun r hr => h r (List.mem_filter.1 hr).1

end OfRules

end Constituency
