/-
A grammar keeps all of the rules that it was made from, whatever their probabilities. The rules are stably sorted by
their symbols, the symbols are numbered in the order of strings, and looking up a child gives the rules with that child
as they stand among the sorted rules. The edges under a number stand for the possible rules with that child, one for
one and in the same order (`unaryEdges_forall₂`, `binaryEdges_forall₂`), so that those with one left child and one
parent go by the number of the right child (`edgesOrdered_ofRules`). `Grammar.Represents` says of one grammar what its
tables hold: they agree with one another because each of them agrees with the rules.
-/
import Constituency.Proofs.Grammar.Order

namespace Constituency

/-! ## Stable sorting -/

/-- A list sorted by a key, in which elements with the same key stand as they stood before. -/
structure StablySorted {ι α : Type} [Ord ι] [DecidableEq ι] (key : α → ι) (xs ys : List α) : Prop where
  perm : ys.Perm xs
  sorted : ys.Pairwise fun a b => (compare (key a) (key b)).isLE
  stable (k : ι) : (ys.filter fun a => key a = k) = xs.filter fun a => key a = k

section StablySorted

variable {ι α : Type} [Ord ι] [DecidableEq ι] {key : α → ι} {xs ys : List α}

omit [Ord ι] in
theorem perm_of_filter_eq (h : ∀ k, (ys.filter fun a => key a = k) = xs.filter fun a => key a = k) : ys.Perm xs := by
  classical
  refine List.perm_iff_count.2 fun a => ?_
  have hcount (zs : List α) : (zs.filter fun b => key b = key a).count a = zs.count a := List.count_filter (by simp)
  rw [← hcount ys, h, hcount]

omit [Ord ι] in
/-- Of distinct keys only one contributes. -/
theorem flatMap_ite_eq {keys : List ι} (hkeys : keys.Nodup) (k : ι) (zs : List α) :
    (keys.flatMap fun j => if j = k then zs else []) = if k ∈ keys then zs else [] := by
  induction keys with
  | nil => rfl
  | cons j keys ih =>
    rw [List.nodup_cons] at hkeys
    rw [List.flatMap_cons, ih hkeys.2]
    by_cases hj : j = k
    · subst hj
      simp [hkeys.1]
    · simp [hj, Ne.symm hj]

theorem StablySorted.filter (h : StablySorted key xs ys) (p : α → Bool) :
    StablySorted key (xs.filter p) (ys.filter p) where
  perm := h.perm.filter p
  sorted := h.sorted.filter p
  stable k := by rw [List.filter_comm, h.stable, List.filter_comm]

/-- Keys that are compared alike sort alike. -/
theorem StablySorted.of_key {ι' : Type} [Ord ι'] [DecidableEq ι'] {f : ι → ι'} (hinj : Function.Injective f)
    (hcompare : ∀ a b, compare (f a) (f b) = compare a b) (h : StablySorted key xs ys) :
    StablySorted (fun a => f (key a)) xs ys where
  perm := h.perm
  sorted := by simpa only [hcompare] using h.sorted
  stable k := by
    by_cases hk : ∃ j, f j = k
    · obtain ⟨j, rfl⟩ := hk
      simpa only [hinj.eq_iff] using h.stable j
    · have hno (a : α) : ¬ f (key a) = k := fun ha => hk ⟨_, ha⟩
      simp [hno]

variable [Std.TransOrd ι] [Std.LawfulEqOrd ι]

theorem sortedOn_eq (key : α → ι) (xs : List α) : sortedOn key xs =
    (Index.ofPairs (xs.map fun x => (key x, x))).groups.keys.flatMap fun k => xs.filter fun a => key a = k := by
  unfold sortedOn
  rw [Index.values_eq]
  refine List.flatMap_congr fun k _ => ?_
  rw [Index.get_ofPairs, List.filter_map, List.map_map]
  exact List.map_id _

theorem stablySorted_sortedOn (key : α → ι) (xs : List α) : StablySorted key xs (sortedOn key xs) := by
  have hordered : (Index.ofPairs (xs.map fun x => (key x, x))).groups.keys.Pairwise fun a b => compare a b = .lt :=
    Std.TreeMap.ordered_keys
  have hstable (k : ι) : ((sortedOn key xs).filter fun a => key a = k) = xs.filter fun a => key a = k := by
    have hgroup (j : ι) : ((xs.filter fun a => key a = j).filter fun a => key a = k) =
        if j = k then xs.filter fun a => key a = k else [] := by
      by_cases hj : j = k
      · subst hj
        simp
      · rw [if_neg hj, List.filter_filter, List.filter_eq_nil_iff]
        intro a _
        simp only [Bool.and_eq_true, decide_eq_true_eq, not_and]
        exact fun hk hj' => hj (hj'.symm.trans hk)
    rw [sortedOn_eq, List.filter_flatMap]
    simp only [hgroup]
    rw [flatMap_ite_eq (nodup_of_ordered hordered)]
    split
    · rfl
    · rename_i hno
      symm
      rw [List.filter_eq_nil_iff]
      intro a ha hkey
      exact hno (Index.mem_keys_ofPairs.2 ⟨_, List.mem_map_of_mem ha, by simpa using hkey⟩)
  refine ⟨perm_of_filter_eq hstable, ?_, hstable⟩
  rw [sortedOn_eq, List.pairwise_flatMap]
  constructor
  · intro k _
    refine List.pairwise_of_forall_mem_list fun a ha b hb => ?_
    obtain rfl : key a = k := by simpa using (List.mem_filter.1 ha).2
    have hb : key b = key a := by simpa using (List.mem_filter.1 hb).2
    simp [hb]
  · refine hordered.imp fun {j k} hlt a ha b hb => ?_
    have ha : key a = j := by simpa using (List.mem_filter.1 ha).2
    have hb : key b = k := by simpa using (List.mem_filter.1 hb).2
    rw [ha, hb, hlt]
    rfl

end StablySorted

/-! ## Groups of a list -/

/-- What an index holds under a key, made from the elements of a list, are the images of some of these elements, one for
one and in the order of the list. -/
theorem Index.forall₂_get_ofPairs {ι α β : Type} [Ord ι] [Std.TransOrd ι] [Std.LawfulEqOrd ι] [DecidableEq ι]
    {R : β → α → Prop} {f : α → Option (ι × β)} {p : α → Bool} {k : ι} :
    ∀ (xs : List α), (∀ x ∈ xs, p x = true → ∃ y, f x = some (k, y) ∧ R y x) →
      (∀ x ∈ xs, ∀ y, f x = some (k, y) → p x = true) →
      List.Forall₂ R ((ofPairs (xs.filterMap f)).get k) (xs.filter p)
  | [], _, _ => by
    rw [get_ofPairs]
    exact .nil
  | x :: xs, hin, hout => by
    have ih := forall₂_get_ofPairs xs (fun a ha => hin a (List.mem_cons_of_mem x ha))
      fun a ha => hout a (List.mem_cons_of_mem x ha)
    rw [get_ofPairs] at ih ⊢
    cases hp : p x with
    | true =>
      obtain ⟨y, hy, hR⟩ := hin x (List.mem_cons_self ..) hp
      rw [List.filterMap_cons_some hy, List.filter_cons_of_pos (by simp), List.filter_cons_of_pos hp]
      exact .cons hR ih
    | false =>
      rw [List.filter_cons_of_neg (by simp [hp])]
      cases hf : f x with
      | none => rwa [List.filterMap_cons_none hf]
      | some pair =>
        obtain ⟨j, y⟩ := pair
        have hj : ¬ j = k := by
          rintro rfl
          rw [hout x (List.mem_cons_self ..) y hf] at hp
          cases hp
        rwa [List.filterMap_cons_some hf, List.filter_cons_of_neg (by simpa using hj)]

/-! ## Symbols in order -/

namespace SymbolTable

/-- Numbers are ordered as their symbols are. -/
theorem lt_iff_of_number? {symbols : List String} {s t : String} {i j : Nat}
    (hs : (ofList symbols).number? s = some i) (ht : (ofList symbols).number? t = some j) : i < j ↔ s < t := by
  have hordered : (sortedDistinct symbols).Pairwise fun a b => compare a b = .lt := Std.TreeSet.ordered_toList
  have hlt {a b : String} {m n : Nat} (ha : (ofList symbols).number? a = some m)
      (hb : (ofList symbols).number? b = some n) (hmn : m < n) : compare a b = .lt := by
    rw [number?_eq_some_iff, name?_ofList, List.getElem?_eq_some_iff] at ha hb
    obtain ⟨hm, rfl⟩ := ha
    obtain ⟨hn, rfl⟩ := hb
    exact List.pairwise_iff_getElem.1 hordered m n hm hn hmn
  rw [← compareOfLessAndEq_eq_lt (x := s)]
  constructor
  · exact hlt hs ht
  · intro hst
    have hst : compare s t = .lt := hst
    rcases lt_trichotomy i j with hij | rfl | hji
    · exact hij
    · obtain rfl := eq_of_number? hs ht
      simp at hst
    · exact absurd (Std.OrientedCmp.gt_of_lt (hlt ht hs hji)) (by rw [hst]; decide)

theorem le_of_number? {symbols : List String} {s t : String} {i j : Nat} (hs : (ofList symbols).number? s = some i)
    (ht : (ofList symbols).number? t = some j) (h : (compare s t).isLE) : i ≤ j := by
  by_contra hji
  have hts : compare t s = .lt := compareOfLessAndEq_eq_lt.2 ((lt_iff_of_number? ht hs).1 (Nat.lt_of_not_le hji))
  rw [Std.OrientedCmp.gt_of_lt hts] at h
  cases h

end SymbolTable

/-! ## The tables of a grammar -/

section Edges

variable {ρ κ : Type} [Surprisal ρ κ]

/-- An edge stands for a unary rule: it carries the numbers of the rule's symbols and the cost of its probability. -/
def UnaryEdge.StandsFor (symbols : SymbolTable) (e : UnaryEdge κ) (r : Rule ρ) : Prop :=
  ∃ parent child, r.production = .unary parent child ∧ symbols.number? parent = some e.parent ∧
    symbols.number? child = some e.child ∧ e.cost = surprisal r.probability

/-- An edge stands for a binary rule: it carries the numbers of the rule's symbols and the cost of its probability. -/
def BinaryEdge.StandsFor (symbols : SymbolTable) (e : BinaryEdge κ) (r : Rule ρ) : Prop :=
  ∃ parent left right, r.production = .binary parent left right ∧ symbols.number? parent = some e.parent ∧
    symbols.number? left = some e.left ∧ symbols.number? right = some e.right ∧ e.cost = surprisal r.probability

end Edges

/-- Binary edges under one number that have one parent stand in the order of their right children. -/
def Grammar.EdgesOrdered {ρ κ : Type} (g : Grammar ρ κ) : Prop :=
  ∀ k, (g.binaryEdges.get k).Pairwise fun e f => e.parent = f.parent → e.right ≤ f.right

/-- The tables of a grammar hold the given rules: all of them in the lookups by children, and the possible ones as edges
between numbers, duplicates included. -/
structure Grammar.Represents {ρ κ : Type} [NatCast ρ] [LT ρ] [DecidableLT ρ] [Surprisal ρ κ] (g : Grammar ρ κ)
    (rules : List (Rule ρ)) : Prop where
  unaryRules_sorted : StablySorted (fun r => r.production.symbols) (rules.filter Rule.isUnary) g.unaryRules
  binaryRules_sorted : StablySorted (fun r => r.production.symbols) (rules.filter Rule.isBinary) g.binaryRules
  /-- The numbers in use are those below the count of symbols. -/
  lt_numSymbols_iff {i : Nat} : i < g.numSymbols ↔ ∃ s, g.symbols.name? i = some s
  number?_iff {s : String} {i : Nat} : g.symbols.number? s = some i ↔ g.symbols.name? i = some s
  numbered_iff {s : String} : (∃ i, g.symbols.number? s = some i) ↔ ∃ r ∈ rules, s ∈ r.production.symbols
  number_lt_iff {s t : String} {i j : Nat} : g.symbols.number? s = some i → g.symbols.number? t = some j →
    (i < j ↔ s < t)
  get_byLeft (s : String) : g.byLeft.get s = g.binaryRules.filter fun r => r.production.children[0]? = some s
  get_byRight (s : String) : g.byRight.get s = g.binaryRules.filter fun r => r.production.children[1]? = some s
  get_byChild (s : String) : g.byChild.get s = g.unaryRules.filter fun r => r.production.children[0]? = some s
  /-- The edges under the number of a symbol stand for the possible rules with that child, in order. -/
  unaryEdges_forall₂ {s : String} {i : Nat} : g.symbols.number? s = some i →
    List.Forall₂ (UnaryEdge.StandsFor g.symbols) (g.unaryEdges.get i)
      (g.unaryRules.filter fun r => ((0 : Nat) : ρ) < r.probability ∧ r.production.children[0]? = some s)
  /-- The edges under the number of a symbol stand for the possible rules with that left child, in order. -/
  binaryEdges_forall₂ {s : String} {i : Nat} : g.symbols.number? s = some i →
    List.Forall₂ (BinaryEdge.StandsFor g.symbols) (g.binaryEdges.get i)
      (g.binaryRules.filter fun r => ((0 : Nat) : ρ) < r.probability ∧ r.production.children[0]? = some s)
  unaryEdge_lt {k : Nat} {e : UnaryEdge κ} : e ∈ g.unaryEdges.get k →
    e.child = k ∧ e.parent < g.numSymbols ∧ e.child < g.numSymbols
  binaryEdge_lt {k : Nat} {e : BinaryEdge κ} : e ∈ g.binaryEdges.get k →
    e.left = k ∧ e.parent < g.numSymbols ∧ e.left < g.numSymbols ∧ e.right < g.numSymbols
  mem_nonTerminals_iff {s : String} : s ∈ g.nonTerminals ↔ ∃ r ∈ rules, r.production.parent = s

section OfRules

variable {ρ κ : Type} [NatCast ρ] [LT ρ] [DecidableLT ρ] [Surprisal ρ κ] {rules : List (Rule ρ)}

theorem Production.symbols_injective : Function.Injective symbols := fun _ _ => eq_of_symbols_eq

/-- The rules of a grammar that satisfy a test are the given ones that do, stably sorted by their symbols. -/
theorem Grammar.stablySorted_filter_rules (κ : Type) [Surprisal ρ κ] (rules : List (Rule ρ)) (p : Rule ρ → Bool) :
    StablySorted (fun r => r.production.symbols) (rules.filter p) ((ofRules (κ := κ) rules).rules.filter p) :=
  ((stablySorted_sortedOn Rule.production rules).of_key Production.symbols_injective fun _ _ => rfl).filter p

namespace Grammar

theorem number?_of_mem (κ : Type) [Surprisal ρ κ] {r : Rule ρ} (hr : r ∈ sortedOn Rule.production rules) {s : String}
    (hs : s ∈ r.production.symbols) : ∃ i, (ofRules (κ := κ) rules).symbols.number? s = some i :=
  (mem_symbols_iff κ).2 ⟨r, mem_sortedOn.1 hr, hs⟩

/-- The edges under a number stand for the possible unary rules with that child. -/
theorem unaryEdges_forall₂ {s : String} {i : Nat} (hs : (ofRules (κ := κ) rules).symbols.number? s = some i) :
    List.Forall₂ (UnaryEdge.StandsFor (ofRules (κ := κ) rules).symbols) ((ofRules (κ := κ) rules).unaryEdges.get i)
      ((ofRules (κ := κ) rules).unaryRules.filter fun r =>
        ((0 : Nat) : ρ) < r.probability ∧ r.production.children[0]? = some s) := by
  rw [unaryRules, List.filter_filter]
  refine Index.forall₂_get_ofPairs (sortedOn Rule.production rules) (fun r hr hp => ?_) fun r _ e he => ?_
  · simp only [Bool.and_eq_true, decide_eq_true_eq] at hp
    obtain ⟨⟨hpos, hchild⟩, hunary⟩ := hp
    cases hprod : r.production with
    | binary => simp [Rule.isUnary, hprod] at hunary
    | unary parent child =>
      obtain ⟨j, hj⟩ := number?_of_mem κ hr (s := parent) (by simp [hprod, Production.symbols, Production.parent])
      obtain rfl : child = s := by simpa [hprod, Production.children] using hchild
      exact ⟨⟨j, i, surprisal r.probability⟩, Rule.unaryEdge?_eq_some_iff.2 ⟨_, _, hprod, hpos, hj, hs, rfl, rfl⟩,
        _, _, hprod, hj, hs, rfl⟩
  · obtain ⟨parent, child, hprod, hpos, -, hchild, hk, -⟩ := Rule.unaryEdge?_eq_some_iff.1 he
    have hname : child = s := SymbolTable.eq_of_number? (hk ▸ hchild) hs
    simp [Rule.isUnary, hprod, Production.children, hname, hpos]

/-- The edges under a number stand for the possible binary rules with that left child. -/
theorem binaryEdges_forall₂ {s : String} {i : Nat} (hs : (ofRules (κ := κ) rules).symbols.number? s = some i) :
    List.Forall₂ (BinaryEdge.StandsFor (ofRules (κ := κ) rules).symbols) ((ofRules (κ := κ) rules).binaryEdges.get i)
      ((ofRules (κ := κ) rules).binaryRules.filter fun r =>
        ((0 : Nat) : ρ) < r.probability ∧ r.production.children[0]? = some s) := by
  rw [binaryRules, List.filter_filter]
  refine Index.forall₂_get_ofPairs (sortedOn Rule.production rules) (fun r hr hp => ?_) fun r _ e he => ?_
  · simp only [Bool.and_eq_true, decide_eq_true_eq] at hp
    obtain ⟨⟨hpos, hchild⟩, hbinary⟩ := hp
    cases hprod : r.production with
    | unary => simp [Rule.isBinary, hprod] at hbinary
    | binary parent left right =>
      obtain ⟨j, hj⟩ := number?_of_mem κ hr (s := parent) (by simp [hprod, Production.symbols, Production.parent])
      obtain ⟨k, hk⟩ := number?_of_mem κ hr (s := right) (by simp [hprod, Production.symbols, Production.children])
      obtain rfl : left = s := by simpa [hprod, Production.children] using hchild
      exact ⟨⟨j, i, k, surprisal r.probability⟩,
        Rule.binaryEdge?_eq_some_iff.2 ⟨_, _, _, hprod, hpos, hj, hs, hk, rfl, rfl⟩, _, _, _, hprod, hj, hs, hk, rfl⟩
  · obtain ⟨parent, left, right, hprod, hpos, -, hleft, -, hk, -⟩ := Rule.binaryEdge?_eq_some_iff.1 he
    have hname : left = s := SymbolTable.eq_of_number? (hk ▸ hleft) hs
    simp [Rule.isBinary, hprod, Production.children, hname, hpos]

theorem edgesOrdered_ofRules (rules : List (Rule ρ)) : (ofRules rules : Grammar ρ κ).EdgesOrdered := by
  intro k
  have hsorted := (stablySorted_sortedOn Rule.production rules).sorted
  show ((Index.ofPairs _).get k).Pairwise _
  rw [Index.get_ofPairs, List.pairwise_map, List.pairwise_filter]
  refine hsorted.filterMap _ fun r s hle x hx y hy hxk hyk hparent => ?_
  obtain ⟨parent, left, right, hr, -, hparent₁, hleft₁, hright₁, hk₁, -⟩ := Rule.binaryEdge?_eq_some_iff.1 hx
  obtain ⟨parent', left', right', hs, -, hparent₂, hleft₂, hright₂, hk₂, -⟩ := Rule.binaryEdge?_eq_some_iff.1 hy
  have hleft : x.2.left = y.2.left := by rw [← hk₁, ← hk₂, of_decide_eq_true hxk, of_decide_eq_true hyk]
  obtain rfl : parent = parent' := SymbolTable.eq_of_number? (hparent ▸ hparent₁) hparent₂
  obtain rfl : left = left' := SymbolTable.eq_of_number? (hleft ▸ hleft₁) hleft₂
  rw [hr, hs] at hle
  have hle : (compare [parent, left, right] [parent, left, right']).isLE := hle
  exact SymbolTable.le_of_number? hright₁ hright₂ (by simpa using hle)

omit [NatCast ρ] [LT ρ] [DecidableLT ρ] in
/-- Looking up a child gives the rules with that child, in the order of the rules. -/
theorem get_lookup {f : Rule ρ → Option (String × Rule ρ)} {p : Rule ρ → Bool} {s : String} (xs : List (Rule ρ))
    (hf : ∀ r x, f r = some (s, x) ↔ p r = true ∧ x = r) : (Index.ofPairs (xs.filterMap f)).get s = xs.filter p := by
  rw [← List.forall₂_eq_eq_eq]
  refine Index.forall₂_get_ofPairs xs (fun r _ hr => ⟨r, (hf r r).2 ⟨hr, rfl⟩, rfl⟩) fun r _ x hx => ?_
  exact ((hf r x).1 hx).1

/-- A grammar made from rules represents them, whatever their probabilities. -/
theorem represents_ofRules (rules : List (Rule ρ)) : (ofRules rules : Grammar ρ κ).Represents rules where
  unaryRules_sorted := stablySorted_filter_rules κ rules Rule.isUnary
  binaryRules_sorted := stablySorted_filter_rules κ rules Rule.isBinary
  lt_numSymbols_iff := ⟨SymbolTable.exists_name?, fun ⟨_, hs⟩ => SymbolTable.lt_of_name? _ hs⟩
  number?_iff := SymbolTable.number?_eq_some_iff
  numbered_iff := mem_symbols_iff κ
  number_lt_iff := SymbolTable.lt_iff_of_number?
  get_byLeft s := by
    rw [binaryRules, List.filter_filter]
    refine get_lookup _ fun r x => ?_
    cases hr : r.production <;> simp [Rule.underLeft?, Rule.isBinary, hr, Production.children, eq_comm]
  get_byRight s := by
    rw [binaryRules, List.filter_filter]
    refine get_lookup _ fun r x => ?_
    cases hr : r.production <;> simp [Rule.underRight?, Rule.isBinary, hr, Production.children, eq_comm]
  get_byChild s := by
    rw [unaryRules, List.filter_filter]
    refine get_lookup _ fun r x => ?_
    cases hr : r.production <;> simp [Rule.underChild?, Rule.isUnary, hr, Production.children, eq_comm]
  unaryEdges_forall₂ := unaryEdges_forall₂
  binaryEdges_forall₂ := binaryEdges_forall₂
  unaryEdge_lt he := by
    obtain ⟨r, -, _, _, -, -, hparent, hchild, hk, -⟩ := mem_unaryEdges_iff.1 he
    exact ⟨hk.symm, SymbolTable.lt_of_number? hparent, SymbolTable.lt_of_number? hchild⟩
  binaryEdge_lt he := by
    obtain ⟨r, -, _, _, _, -, -, hparent, hleft, hright, hk, -⟩ := mem_binaryEdges_iff.1 he
    exact ⟨hk.symm, SymbolTable.lt_of_number? hparent, SymbolTable.lt_of_number? hleft,
      SymbolTable.lt_of_number? hright⟩
  mem_nonTerminals_iff := mem_nonTerminals_iff κ

end Grammar

end OfRules

end Constituency
