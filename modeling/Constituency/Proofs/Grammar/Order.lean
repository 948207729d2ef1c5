/-
The order in which rules are given. A grammar keeps its rules in the order of their productions, so that giving them in
another order moves only the copies of one production, which stand side by side: such lists are `Reordered` by
production. Grammars of rules in two orders have the same symbols, numbers and parents, and their edges are reordered
by the numbers of their symbols (`alike_of_perm`). The productions that were counted in trees have one rule each, so
that the grammar of trees depends on no order at all (`ofTrees_eq_of_perm`).
-/
import Constituency.Proofs.Grammar.Counts
import Constituency.Proofs.Grammar.Edges

namespace Constituency

/-! ## Lists up to the order of elements with one key -/

/-- The lists differ only in the order of neighbours that have the same key. -/
inductive Reordered {α β : Type} (key : α → β) : List α → List α → Prop
  | nil : Reordered key [] []
  | cons {xs ys : List α} (a : α) : Reordered key xs ys → Reordered key (a :: xs) (a :: ys)
  | swap {a b : α} (xs : List α) : key a = key b → Reordered key (a :: b :: xs) (b :: a :: xs)
  | trans {xs ys zs : List α} : Reordered key xs ys → Reordered key ys zs → Reordered key xs zs

namespace Reordered

variable {α β γ δ : Type} {key : α → β} {xs ys : List α}

theorem refl (xs : List α) : Reordered key xs xs := by
  induction xs with
  | nil => exact .nil
  | cons x xs ih => exact .cons x ih

theorem perm (h : Reordered key xs ys) : xs.Perm ys := by
  induction h with
  | nil => exact .nil
  | cons a _ ih => exact ih.cons a
  | @swap a b xs _ => exact .swap b a xs
  | trans _ _ ih₁ ih₂ => exact ih₁.trans ih₂

theorem map_eq (h : Reordered key xs ys) : xs.map key = ys.map key := by
  induction h with
  | nil => rfl
  | cons a _ ih => simp [ih]
  | swap xs hab => simp [hab]
  | trans _ _ ih₁ ih₂ => exact ih₁.trans ih₂

/-- When elements with the same key are equal, nothing can be moved. -/
theorem eq_of_inj (h : Reordered key xs ys) (hinj : ∀ a ∈ xs, ∀ b ∈ xs, key a = key b → a = b) : xs = ys := by
  induction h with
  | nil => rfl
  | cons a _ ih => rw [ih fun b hb c hc => hinj b (List.mem_cons_of_mem _ hb) c (List.mem_cons_of_mem _ hc)]
  | @swap a b xs hab => rw [hinj a (by simp) b (by simp) hab]
  | trans h₁ _ ih₁ ih₂ =>
    exact (ih₁ hinj).trans (ih₂ fun b hb c hc => hinj b (h₁.perm.mem_iff.2 hb) c (h₁.perm.mem_iff.2 hc))

/-- Any order of elements with one key will do. -/
theorem of_perm {k : β} (h : xs.Perm ys) (hkey : ∀ x ∈ xs, key x = k) : Reordered key xs ys := by
  induction h with
  | nil => exact .nil
  | cons a _ ih => exact .cons a (ih fun x hx => hkey x (List.mem_cons_of_mem _ hx))
  | swap a b xs => exact .swap xs ((hkey b (by simp)).trans (hkey a (by simp)).symm)
  | trans h₁ _ ih₁ ih₂ => exact (ih₁ hkey).trans (ih₂ fun x hx => hkey x (h₁.mem_iff.2 hx))

theorem append_left (zs : List α) (h : Reordered key xs ys) : Reordered key (zs ++ xs) (zs ++ ys) := by
  induction zs with
  | nil => exact h
  | cons z zs ih => exact .cons z ih

theorem append_right (zs : List α) (h : Reordered key xs ys) : Reordered key (xs ++ zs) (ys ++ zs) := by
  induction h with
  | nil => exact refl zs
  | cons a _ ih => exact .cons a ih
  | swap xs hab => exact .swap (xs ++ zs) hab
  | trans _ _ ih₁ ih₂ => exact ih₁.trans ih₂

theorem flatMap {f g : γ → List α} : ∀ (zs : List γ), (∀ z ∈ zs, Reordered key (f z) (g z)) →
    Reordered key (zs.flatMap f) (zs.flatMap g)
  | [], _ => .nil
  | z :: zs, h => by
    rw [List.flatMap_cons, List.flatMap_cons]
    have hrest := flatMap zs fun y hy => h y (List.mem_cons_of_mem _ hy)
    exact (append_right _ (h z (List.mem_cons_self ..))).trans (append_left _ hrest)

/-- What comes from elements with one key has to have one key again. -/
theorem filterMap {f : α → Option γ} {key' : γ → δ}
    (hf : ∀ a b x y, f a = some x → f b = some y → key a = key b → key' x = key' y) (h : Reordered key xs ys) :
    Reordered key' (xs.filterMap f) (ys.filterMap f) := by
  induction h with
  | nil => exact .nil
  | cons a _ ih =>
    rw [List.filterMap_cons, List.filterMap_cons]
    split
    · exact ih
    · exact .cons _ ih
  | @swap a b xs hab =>
    cases ha : f a with
    | none => simp only [List.filterMap_cons, ha]; exact refl _
    | some x =>
      cases hb : f b with
      | none => simp only [List.filterMap_cons, ha, hb]; exact refl _
      | some y =>
        simp only [List.filterMap_cons, ha, hb]
        exact .swap _ (hf a b x y ha hb hab)
  | trans _ _ ih₁ ih₂ => exact ih₁.trans ih₂

/-- Folds over reordered lists come to related results, when the steps respect the relation and steps with the same
key can be taken in either order. -/
theorem foldl {σ : Type} {R : σ → σ → Prop} (hrefl : ∀ s, R s s) (htrans : ∀ s t u, R s t → R t u → R s u)
    {f : σ → α → σ} (hcongr : ∀ s t a, R s t → R (f s a) (f t a)) (h : Reordered key xs ys)
    (hcomm : ∀ s, ∀ a ∈ xs, ∀ b ∈ xs, key a = key b → R (f (f s a) b) (f (f s b) a)) :
    ∀ s t, R s t → R (xs.foldl f s) (ys.foldl f t) := by
  -- one list from related states
  have hfold : ∀ (zs : List α) (s t : σ), R s t → R (zs.foldl f s) (zs.foldl f t) := by
    intro zs
    induction zs with
    | nil => exact fun _ _ hst => hst
    | cons z zs ih => exact fun s t hst => ih _ _ (hcongr s t z hst)
  induction h with
  | nil => exact fun _ _ hst => hst
  | cons a _ ih =>
    exact fun s t hst => ih (fun u b hb c hc => hcomm u b (List.mem_cons_of_mem _ hb) c (List.mem_cons_of_mem _ hc))
      _ _ (hcongr s t a hst)
  | @swap a b xs hab =>
    intro s t hst
    refine hfold xs _ _ (htrans _ _ _ (hcomm s a (by simp) b (by simp) hab) ?_)
    exact hcongr _ _ a (hcongr s t b hst)
  | trans h₁ _ ih₁ ih₂ =>
    intro s t hst
    refine htrans _ _ _ (ih₁ hcomm s t hst) (ih₂ (fun u b hb c hc => ?_) t t (hrefl t))
    exact hcomm u b (h₁.perm.mem_iff.2 hb) c (h₁.perm.mem_iff.2 hc)

end Reordered

/-! ## Sorted lists -/

theorem nodup_of_ordered {α : Type} [Ord α] [Std.TransOrd α] {xs : List α}
    (h : xs.Pairwise fun a b => compare a b = .lt) : xs.Nodup :=
  h.imp fun hlt heq => by simp [heq] at hlt

/-- Lists in strict order are equal when they have the same elements. -/
theorem eq_of_mem_iff_of_ordered {α : Type} [Ord α] [Std.TransOrd α] {xs ys : List α}
    (hx : xs.Pairwise fun a b => compare a b = .lt) (hy : ys.Pairwise fun a b => compare a b = .lt)
    (h : ∀ a, a ∈ xs ↔ a ∈ ys) : xs = ys := by
  have hperm := (List.perm_ext_iff_of_nodup (nodup_of_ordered hx) (nodup_of_ordered hy)).2 h
  refine hperm.eq_of_pairwise (fun a b _ _ hab hba => ?_) hx hy
  exact absurd (Std.OrientedCmp.gt_of_lt hab) (by rw [hba]; decide)

namespace Index

variable {ι α : Type} [Ord ι] [Std.TransOrd ι] [Std.LawfulEqOrd ι]

theorem values_eq (ix : Index ι α) : ix.values = ix.groups.keys.flatMap ix.get := by
  have hkeys : ix.groups.keys = ix.groups.toList.map Prod.fst := Std.TreeMap.map_fst_toList_eq_keys.symm
  rw [hkeys, List.flatMap_map]
  refine List.flatMap_congr fun e he => ?_
  have hget : ix.groups[e.1]? = some e.2 := Std.TreeMap.mem_toList_iff_getElem?_eq_some.1 he
  rw [get, Std.TreeMap.getD_eq_getD_getElem?, hget]
  rfl

theorem mem_keys_ofPairs {pairs : List (ι × α)} {k : ι} :
    k ∈ (ofPairs pairs).groups.keys ↔ ∃ p ∈ pairs, p.1 = k := by
  unfold ofPairs
  induction pairs with
  | nil => simp [empty]
  | cons p pairs ih =>
    rw [List.foldr_cons, cons, Std.TreeMap.mem_keys, Std.TreeMap.mem_insert, ← Std.TreeMap.mem_keys, ih]
    simp

end Index

/-- Lists in different orders become, sorted by a key, the same up to the order of elements with one key. -/
theorem reordered_sortedOn {ι α : Type} [Ord ι] [Std.TransOrd ι] [Std.LawfulEqOrd ι] [DecidableEq ι] {key : α → ι}
    {xs ys : List α} (h : xs.Perm ys) : Reordered key (sortedOn key xs) (sortedOn key ys) := by
  unfold sortedOn
  rw [Index.values_eq, Index.values_eq]
  have hkeys : (Index.ofPairs (xs.map fun x => (key x, x))).groups.keys =
      (Index.ofPairs (ys.map fun x => (key x, x))).groups.keys := by
    refine eq_of_mem_iff_of_ordered Std.TreeMap.ordered_keys Std.TreeMap.ordered_keys fun k => ?_
    rw [Index.mem_keys_ofPairs, Index.mem_keys_ofPairs]
    simp [h.mem_iff]
  rw [hkeys]
  refine Reordered.flatMap _ fun k _ => ?_
  rw [Index.get_ofPairs, Index.get_ofPairs]
  refine .of_perm (((h.map _).filter _).map _) (k := k) fun x hx => ?_
  obtain ⟨-, hkey⟩ : x ∈ xs ∧ key x = k := by simpa using hx
  exact hkey

/-! ## Grammars up to the order of copies -/

namespace UnaryEdge

/-- The symbols of an edge, without its cost. -/
def ends {κ : Type} (e : UnaryEdge κ) : Nat × Nat := (e.parent, e.child)

end UnaryEdge

namespace BinaryEdge

/-- The symbols of an edge, without its cost. -/
def ends {κ : Type} (e : BinaryEdge κ) : Nat × Nat × Nat := (e.parent, e.left, e.right)

end BinaryEdge

namespace Rule

variable {ρ κ : Type} [NatCast ρ] [LT ρ] [DecidableLT ρ] [Surprisal ρ κ] {symbols : SymbolTable} {r s : Rule ρ}

/-- Rules of one production have edges with the same ends. -/
theorem ends_of_unaryEdge? {x y : Nat × UnaryEdge κ} (hx : r.unaryEdge? symbols = some x)
    (hy : s.unaryEdge? symbols = some y) (h : r.production = s.production) : x.2.ends = y.2.ends := by
  obtain ⟨parent, child, hr, -, hparent, hchild, -⟩ := unaryEdge?_eq_some_iff.1 hx
  obtain ⟨parent', child', hs, -, hparent', hchild', -⟩ := unaryEdge?_eq_some_iff.1 hy
  obtain ⟨rfl, rfl⟩ := Production.unary.inj (hr.symm.trans (h.trans hs))
  rw [hparent] at hparent'
  rw [hchild] at hchild'
  exact Prod.ext (Option.some.inj hparent') (Option.some.inj hchild')

theorem ends_of_binaryEdge? {x y : Nat × BinaryEdge κ} (hx : r.binaryEdge? symbols = some x)
    (hy : s.binaryEdge? symbols = some y) (h : r.production = s.production) : x.2.ends = y.2.ends := by
  obtain ⟨parent, left, right, hr, -, hparent, hleft, hright, -⟩ := binaryEdge?_eq_some_iff.1 hx
  obtain ⟨parent', left', right', hs, -, hparent', hleft', hright', -⟩ := binaryEdge?_eq_some_iff.1 hy
  obtain ⟨rfl, rfl, rfl⟩ := Production.binary.inj (hr.symm.trans (h.trans hs))
  rw [hparent] at hparent'
  rw [hleft] at hleft'
  rw [hright] at hright'
  exact Prod.ext (Option.some.inj hparent') (Prod.ext (Option.some.inj hleft') (Option.some.inj hright'))

end Rule

/-- The grammars number their symbols alike, and their edges are the same up to the order of those with the same
ends. -/
structure Grammar.Alike {ρ κ : Type} (g g' : Grammar ρ κ) : Prop where
  symbols : g.symbols = g'.symbols
  nonTerminals : g.nonTerminals = g'.nonTerminals
  unaryEdges (k : Nat) : Reordered UnaryEdge.ends (g.unaryEdges.get k) (g'.unaryEdges.get k)
  binaryEdges (k : Nat) : Reordered BinaryEdge.ends (g.binaryEdges.get k) (g'.binaryEdges.get k)

/-- Grouping reordered pairs leaves reordered groups. -/
theorem Index.reordered_get_ofPairs {ι α β : Type} [Ord ι] [Std.TransOrd ι] [Std.LawfulEqOrd ι] [DecidableEq ι]
    {key : α → β} {ps qs : List (ι × α)} (h : Reordered (fun p => key p.2) ps qs) (k : ι) :
    Reordered key ((ofPairs ps).get k) ((ofPairs qs).get k) := by
  have hget (ps : List (ι × α)) : (ofPairs ps).get k = ps.filterMap fun p => if p.1 = k then some p.2 else none := by
    rw [get_ofPairs, ← List.filterMap_eq_filter, List.map_filterMap]
    refine List.filterMap_congr fun p _ => ?_
    by_cases hp : p.1 = k <;> simp [hp, Option.guard]
  rw [hget ps, hget qs]
  refine h.filterMap fun p q a b ha hb hkey => ?_
  simp only [Option.ite_none_right_eq_some, Option.some.injEq] at ha hb
  rw [← ha.2, ← hb.2, hkey]

namespace Grammar

variable {ρ κ : Type} [NatCast ρ] [LT ρ] [DecidableLT ρ] [Surprisal ρ κ] {rules rules' : List (Rule ρ)}

/-- Giving the rules in another order moves no more than copies of one production. -/
theorem alike_of_perm (h : rules.Perm rules') : (ofRules rules : Grammar ρ κ).Alike (ofRules rules') := by
  have hrules : Reordered Rule.production (sortedOn Rule.production rules) (sortedOn Rule.production rules') :=
    reordered_sortedOn h
  have hsymbols : (ofRules (κ := κ) rules).symbols = (ofRules (κ := κ) rules').symbols := by
    show SymbolTable.ofList _ = SymbolTable.ofList _
    rw [← List.flatMap_map (f := Rule.production) (g := Production.symbols), hrules.map_eq, List.flatMap_map]
  refine ⟨hsymbols, ?_, fun k => Index.reordered_get_ofPairs ?_ k, fun k => Index.reordered_get_ofPairs ?_ k⟩
  · have hparents := congrArg (List.map Production.parent) hrules.map_eq
    rw [List.map_map, List.map_map] at hparents
    exact congrArg (Std.TreeSet.ofList · compare) hparents
  · show Reordered _ (List.filterMap (Rule.unaryEdge? (ofRules (κ := κ) rules).symbols) _)
      (List.filterMap (Rule.unaryEdge? (ofRules (κ := κ) rules').symbols) _)
    rw [← hsymbols]
    exact hrules.filterMap fun r s x y => Rule.ends_of_unaryEdge?
  · show Reordered _ (List.filterMap (Rule.binaryEdge? (ofRules (κ := κ) rules).symbols) _)
      (List.filterMap (Rule.binaryEdge? (ofRules (κ := κ) rules').symbols) _)
    rw [← hsymbols]
    exact hrules.filterMap fun r s x y => Rule.ends_of_binaryEdge?

/-- When each production has one rule, the order in which the rules are given does not matter at all. -/
theorem ofRules_eq_of_perm (hone : ∀ r ∈ rules, ∀ s ∈ rules, r.production = s.production → r = s)
    (h : rules.Perm rules') : (ofRules rules : Grammar ρ κ) = ofRules rules' := by
  have hsorted : sortedOn Rule.production rules = sortedOn Rule.production rules' :=
    (reordered_sortedOn h).eq_of_inj fun r hr s hs => hone r (mem_sortedOn.1 hr) s (mem_sortedOn.1 hs)
  unfold ofRules
  rw [hsorted]

end Grammar

/-! ## Trees in any order -/

namespace ProductionCounts

variable {ρ : Type} [NatCast ρ] [Div ρ]

/-- The rules of counted productions depend on how often each production occurred, not on the order. -/
theorem rules_eq_of_perm {ps qs : List Production} (h : ps.Perm qs) :
    ((empty.addAll ps).rules : List (Rule ρ)) = (empty.addAll qs).rules := by
  have hkeys : (empty.addAll ps).productions.keys = (empty.addAll qs).productions.keys :=
    eq_of_mem_iff_of_ordered Std.TreeMap.ordered_keys Std.TreeMap.ordered_keys fun p => by
      show p ∈ (empty.addAll ps).productions.keys ↔ p ∈ (empty.addAll qs).productions.keys
      rw [mem_keys, mem_keys, h.mem_iff]
  rw [rules, rules, hkeys]
  refine List.map_congr_left fun p _ => ?_
  simp only [relativeFrequency, count_productions, count_parents, h.count_eq, (h.map Production.parent).count_eq]

end ProductionCounts

/-- The grammar of binarized trees depends neither on the order of the trees nor on the order in which the counted
productions are made into rules. -/
theorem Grammar.ofTrees_eq_of_perm {ρ κ : Type} [NatCast ρ] [LT ρ] [DecidableLT ρ] [Surprisal ρ κ] [Div ρ]
    {ts ts' : Forest} (hts : ts.Perm ts') (hnarrow : ∀ t ∈ ts, ∀ s ∈ t.subtrees, s.isNarrow = true) :
    ∃ counts, ProductionCounts.ofTrees? ts' = .ok counts ∧ ∀ rules : List (Rule ρ), rules.Perm counts.rules →
      (Grammar.ofTrees ts : Except Error (Grammar ρ κ)) = .ok (.ofRules rules) := by
  refine ⟨_, ProductionCounts.ofTrees?_eq fun t ht => hnarrow t (hts.mem_iff.2 ht), fun rules hrules => ?_⟩
  have hnd : (rules.map Rule.production).Nodup :=
    (hrules.map Rule.production).nodup_iff.2 (ProductionCounts.nodup_rules _)
  have hone : ∀ r ∈ rules, ∀ s ∈ rules, r.production = s.production → r = s :=
    fun r hr s hs => List.inj_on_of_nodup_map hnd hr hs
  rw [Grammar.ofTrees_eq hnarrow, Grammar.ofRules_eq_of_perm hone hrules,
    ProductionCounts.rules_eq_of_perm (hts.flatMap_right Tree.productions)]

end Constituency
