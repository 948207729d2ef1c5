/-
Binarization loses nothing for the estimate. Among expansions without the separating mark a chain past some siblings
occurs as often as its next node (`mem_chain_pass_iff`), so that the relative frequencies along a chain telescope: their
product is the relative frequency of the expansion among those of its parent (`prod_chain_probability`).
-/
import Constituency.Proofs.Annotation.Chain
import Constituency.Proofs.Grammar.Edges

namespace Constituency

/-! ## Chains of plain expansions -/

/-- An expansion into at least one child whose labels do not have the mark that separates siblings on a trail. -/
structure Expansion.IsPlain (e : Expansion) : Prop where
  parent : Plain e.parent
  children : ∀ c ∈ e.children, Plain c
  ne_nil : e.children ≠ []

/-- The production of a link is at a node of the spine from which there is a way to go. -/
theorem Link.exists_rest {l : String} {p cs : List String} {q : Production} (h : Link l p cs q) :
    ∃ r ds, cs = r ++ ds ∧ q.parent = spineLabel l (p ++ r) ∧ (r ≠ [] → 2 ≤ ds.length) := by
  cases h with
  | @only c h => exact ⟨[], cs, rfl, by rw [List.append_nil]; rfl, by simp⟩
  | @last r c d h => exact ⟨r, [c, d], h, rfl, by simp⟩
  | @pass r ds c h hds => exact ⟨r, c :: ds, h, rfl, fun _ => by simp; omega⟩

namespace Expansion

variable {e e' : Expansion} {l : String} {p ds : List String} {c d : String}

/-- Every node of the spine in front of two children or more has its production on the chain. -/
theorem exists_mem_chain (h : e.children = p ++ ds) (hds : 2 ≤ ds.length) :
    ∃ q ∈ e.chain, q.parent = spineLabel e.parent p := by
  match ds with
  | [c, d] => exact ⟨_, mem_chain_iff.2 (.last h), rfl⟩
  | c :: d :: f :: ds => exact ⟨_, mem_chain_iff.2 (.pass h (by simp)), rfl⟩

namespace IsPlain

variable (he : e.IsPlain)

include he

theorem plain_of_append (h : e.children = p ++ ds) : (∀ c ∈ p, Plain c) ∧ ∀ c ∈ ds, Plain c := by
  have hchildren := he.children
  rw [h, List.forall_mem_append] at hchildren
  exact hchildren

theorem mem_parents_chain_iff (hl : Plain l) : l ∈ e.chain.map Production.parent ↔ e.parent = l := by
  rw [List.mem_map]
  constructor
  · rintro ⟨q, hq, rfl⟩
    obtain ⟨r, ds, hchildren, hparent, -⟩ := (mem_chain_iff.1 hq).exists_rest
    exact (spineLabel_inj (p := []) hl he.parent (by simp) (he.plain_of_append hchildren).1 hparent).1.symm
  · rintro rfl
    match hchildren : e.children with
    | [] => exact absurd hchildren he.ne_nil
    | [c] => exact ⟨_, mem_chain_iff.2 (.only hchildren), rfl⟩
    | c :: d :: ds => exact exists_mem_chain (p := []) hchildren (by simp)

/-- A unary production on a chain is all of the chain. -/
theorem eq_of_unary_mem_chain (hl : Plain l) (hp : ∀ c ∈ p, Plain c) (h : .unary (spineLabel l p) c ∈ e.chain) :
    p = [] ∧ e = ⟨l, [c]⟩ := by
  rw [mem_chain_iff] at h
  generalize hq : Production.unary (spineLabel l p) c = q at h
  cases h with
  | only hchildren =>
    obtain ⟨hspine, rfl⟩ := Production.unary.inj hq
    obtain ⟨rfl, rfl⟩ := spineLabel_inj hl he.parent hp (by simp) hspine
    obtain ⟨parent, children⟩ := e
    exact ⟨rfl, congrArg _ hchildren⟩
  | last | pass => cases hq

/-- A binary production on a chain is over the last two children, or it passes a child with more than one behind it. -/
theorem eq_of_binary_mem_chain (hl : Plain l) (hp : ∀ c ∈ p, Plain c) (h : .binary (spineLabel l p) c d ∈ e.chain) :
    (Plain d ∧ e = ⟨l, p ++ [c, d]⟩) ∨
      ∃ ds, 2 ≤ ds.length ∧ e = ⟨l, p ++ c :: ds⟩ ∧ d = spineLabel l (p ++ [c]) := by
  rw [mem_chain_iff] at h
  generalize hq : Production.binary (spineLabel l p) c d = q at h
  cases h with
  | only => cases hq
  | last hchildren =>
    obtain ⟨hspine, rfl, rfl⟩ := Production.binary.inj hq
    obtain ⟨hr, hplain⟩ := he.plain_of_append hchildren
    obtain ⟨rfl, rfl⟩ := spineLabel_inj hl he.parent hp hr hspine
    obtain ⟨parent, children⟩ := e
    exact .inl ⟨hplain d (by simp), congrArg _ hchildren⟩
  | pass hchildren hds =>
    obtain ⟨hspine, rfl, rfl⟩ := Production.binary.inj hq
    obtain ⟨rfl, rfl⟩ := spineLabel_inj hl he.parent hp (he.plain_of_append hchildren).1 hspine
    obtain ⟨parent, children⟩ := e
    exact .inr ⟨_, hds, congrArg _ hchildren, rfl⟩

/-- A chain passes a sibling exactly when it has a production for the next node. -/
theorem mem_chain_pass_iff (hl : Plain l) (hp : ∀ c ∈ p, Plain c) (hc : Plain c) :
    .binary (spineLabel l p) c (spineLabel l (p ++ [c])) ∈ e.chain ↔
      spineLabel l (p ++ [c]) ∈ e.chain.map Production.parent := by
  rw [List.mem_map]
  constructor
  · intro h
    obtain ⟨hd, -⟩ | ⟨ds, hds, rfl, -⟩ := he.eq_of_binary_mem_chain hl hp h
    · exact absurd hd (not_plain_spineLabel l (by simp))
    · exact exists_mem_chain (by simp) hds
  · rintro ⟨q, hq, hparent⟩
    have hpc : ∀ d ∈ p ++ [c], Plain d := by
      rw [List.forall_mem_append]
      exact ⟨hp, by simpa using hc⟩
    obtain ⟨r, ds, hchildren, hspine, hds⟩ := (mem_chain_iff.1 hq).exists_rest
    obtain ⟨rfl, rfl⟩ := spineLabel_inj hl he.parent hpc (he.plain_of_append hchildren).1 (hparent.symm.trans hspine)
    exact mem_chain_iff.2 (.pass (by rw [hchildren, List.append_assoc]; rfl) (hds (by simp)))

theorem mem_chain_only_iff (hl : Plain l) : .unary l c ∈ e.chain ↔ e = ⟨l, [c]⟩ := by
  constructor
  · intro h
    exact (he.eq_of_unary_mem_chain (p := []) hl (by simp) h).2
  · rintro rfl
    exact mem_chain_iff.2 (.only rfl)

/-- A chain ends in the last two children of its expansion. -/
theorem mem_chain_last_iff (hl : Plain l) (hp : ∀ c ∈ p, Plain c) (hd : Plain d) :
    .binary (spineLabel l p) c d ∈ e.chain ↔ e = ⟨l, p ++ [c, d]⟩ := by
  constructor
  · intro h
    obtain ⟨-, heq⟩ | ⟨_, -, -, rfl⟩ := he.eq_of_binary_mem_chain hl hp h
    · exact heq
    · exact absurd hd (not_plain_spineLabel l (by simp))
  · rintro rfl
    exact mem_chain_iff.2 (.last rfl)

end IsPlain

end Expansion

theorem nodup_parents_chainFrom {l : String} (hl : Plain l) : ∀ p cs : List String, (∀ c ∈ p ++ cs, Plain c) →
    ((chainFrom (spineLabel l p) (trailOf l p) cs).map Production.parent).Nodup
  | _, [], _ | _, [_], _ | _, [_, _], _ => by simp [chainFrom]
  | p, c :: d :: e :: cs, h => by
    have hrest : ∀ x ∈ (p ++ [c]) ++ (d :: e :: cs), Plain x := by simpa using h
    rw [chainFrom_cons l p c (by simp), List.map_cons, List.nodup_cons]
    refine ⟨?_, nodup_parents_chainFrom hl (p ++ [c]) (d :: e :: cs) hrest⟩
    -- the nodes further down have passed more siblings
    rw [List.mem_map]
    rintro ⟨q, hq, hparent⟩
    obtain ⟨r, ds, hcs, hspine, -⟩ := (mem_chainFrom_iff.1 hq).exists_rest
    have hpassed : ∀ x ∈ p ++ [c] ++ r, Plain x := fun x hx =>
      hrest x (by rw [hcs, ← List.append_assoc]; exact List.mem_append_left ds hx)
    have heq := (spineLabel_inj hl hl hpassed (fun x hx => h x (List.mem_append_left _ hx))
      (hspine.symm.trans hparent)).2
    have hlength := congrArg List.length heq
    simp at hlength

theorem Expansion.IsPlain.nodup_parents_chain {e : Expansion} (he : e.IsPlain) :
    (e.chain.map Production.parent).Nodup :=
  nodup_parents_chainFrom he.parent [] e.children (by simpa using he.children)

/-! ## Counting chains -/

/-- In lists without repetition that are put together a value occurs as often as it is in one of them. -/
theorem count_flatMap_of_nodup {α β : Type} [DecidableEq β] {f : α → List β} {b : β} :
    ∀ xs : List α, (∀ x ∈ xs, (f x).Nodup) → (xs.flatMap f).count b = xs.countP fun x => b ∈ f x
  | [], _ => rfl
  | x :: xs, h => by
    rw [List.forall_mem_cons] at h
    rw [List.flatMap_cons, List.count_append, count_flatMap_of_nodup xs h.2, List.countP_cons, h.1.count, Nat.add_comm]
    by_cases hb : b ∈ f x <;> simp [hb]

section Count

variable {es : List Expansion} (hes : ∀ e ∈ es, e.IsPlain)

include hes

theorem count_chains (q : Production) : (es.flatMap Expansion.chain).count q = es.countP fun e => q ∈ e.chain :=
  count_flatMap_of_nodup es fun e he => (hes e he).nodup_parents_chain.of_map _

theorem count_parents_chains (l : String) :
    ((es.flatMap Expansion.chain).map Production.parent).count l =
      es.countP fun e => l ∈ e.chain.map Production.parent := by
  rw [List.map_flatMap]
  exact count_flatMap_of_nodup es fun e he => (hes e he).nodup_parents_chain

/-- The chains of a parent are as many as its expansions. -/
theorem count_parent_chains {l : String} (hl : Plain l) :
    ((es.flatMap Expansion.chain).map Production.parent).count l = (es.map Expansion.parent).count l := by
  rw [count_parents_chains hes, List.count, List.countP_map]
  refine List.countP_congr fun e he => ?_
  simpa using (hes e he).mem_parents_chain_iff hl

/-- A chain passes a sibling as often as the next node occurs. -/
theorem count_pass_chains {l c : String} {p : List String} (hl : Plain l) (hp : ∀ c ∈ p, Plain c) (hc : Plain c) :
    (es.flatMap Expansion.chain).count (.binary (spineLabel l p) c (spineLabel l (p ++ [c]))) =
      ((es.flatMap Expansion.chain).map Production.parent).count (spineLabel l (p ++ [c])) := by
  rw [count_chains hes, count_parents_chains hes]
  exact List.countP_congr fun e he => by simpa using (hes e he).mem_chain_pass_iff hl hp hc

/-- The production that ends a chain occurs as often as the expansion. -/
theorem count_end_chains {e : Expansion} {q : Production} (hq : ∀ f ∈ es, q ∈ f.chain ↔ f = e) :
    (es.flatMap Expansion.chain).count q = es.count e := by
  rw [count_chains hes, List.count]
  exact List.countP_congr fun f hf => by simpa using hq f hf

/-- The relative frequencies on the rest of a chain multiply to the share that its expansion has of the node that the
rest starts from. -/
theorem prod_chainFrom {ρ : Type} [Field ρ] [CharZero ρ] {e : Expansion} (he : e ∈ es) : ∀ p cs : List String,
    e.children = p ++ cs → cs ≠ [] → (p ≠ [] → 2 ≤ cs.length) →
    ((chainFrom (spineLabel e.parent p) (trailOf e.parent p) cs).map fun q =>
        ((es.flatMap Expansion.chain).count q : ρ) /
          (((es.flatMap Expansion.chain).map Production.parent).count q.parent : ρ)).prod =
      (es.count e : ρ) / (((es.flatMap Expansion.chain).map Production.parent).count (spineLabel e.parent p) : ρ)
  | _, [], _, h, _ => absurd rfl h
  | p, [c], hchildren, _, hp => by
    have hnil : p = [] := by by_contra h; simpa using hp h
    subst hnil
    have hend : ∀ f ∈ es, Production.unary e.parent c ∈ f.chain ↔ f = e := fun f hf => by
      rw [(hes f hf).mem_chain_only_iff (hes e he).parent]
      obtain ⟨parent, children⟩ := e
      rw [show children = [c] from hchildren]
    simp [chainFrom, Production.parent, count_end_chains hes hend]
  | p, [c, d], hchildren, _, _ => by
    have hplain := (hes e he).plain_of_append hchildren
    have hend : ∀ f ∈ es, Production.binary (spineLabel e.parent p) c d ∈ f.chain ↔ f = e := fun f hf => by
      rw [(hes f hf).mem_chain_last_iff (hes e he).parent hplain.1 (hplain.2 d (by simp))]
      obtain ⟨parent, children⟩ := e
      rw [show children = p ++ [c, d] from hchildren]
    simp [chainFrom, Production.parent, count_end_chains hes hend]
  | p, c :: d :: f :: cs, hchildren, _, _ => by
    have hplain := (hes e he).plain_of_append hchildren
    have hprefix : e.children = (p ++ [c]) ++ (d :: f :: cs) := by rw [hchildren, List.append_cons]
    have hpass := count_pass_chains hes (hes e he).parent hplain.1 (hplain.2 c (by simp))
    -- the next node occurs, in the chain of the expansion itself
    have hnext : (((es.flatMap Expansion.chain).map Production.parent).count (spineLabel e.parent (p ++ [c])) : ρ) ≠
        0 := by
      obtain ⟨q, hq, hparent⟩ := Expansion.exists_mem_chain hprefix (by simp)
      rw [Nat.cast_ne_zero, ← Nat.pos_iff_ne_zero, List.count_pos_iff, ← hparent]
      exact List.mem_map_of_mem (List.mem_flatMap.2 ⟨e, he, hq⟩)
    rw [chainFrom_cons _ _ _ (by simp), List.map_cons, List.prod_cons,
      prod_chainFrom he (p ++ [c]) (d :: f :: cs) hprefix (by simp) (by simp), hpass]
    show _ / (((es.flatMap Expansion.chain).map Production.parent).count (spineLabel e.parent p) : ρ) * _ = _
    field_simp

end Count

/-! ## Probabilities of rules -/

/-- The probability of the first rule with a production. -/
def Grammar.probability? {ρ κ : Type} (g : Grammar ρ κ) (p : Production) : Option ρ :=
  (g.rules.find? fun r => r.production = p).map Rule.probability

theorem Grammar.probability?_of_mem {ρ κ : Type} [NatCast ρ] [Div ρ] [LT ρ] [DecidableLT ρ] [Surprisal ρ κ]
    {ps : List Production} {p : Production} (h : p ∈ ps) :
    (ofRules (ProductionCounts.empty.addAll ps).rules : Grammar ρ κ).probability? p =
      some ((ProductionCounts.empty.addAll ps).relativeFrequency p) := by
  have hrules {r : Rule ρ} : r ∈ (ofRules (ProductionCounts.empty.addAll ps).rules : Grammar ρ κ).rules ↔
      r.production ∈ ps ∧ r.probability = (ProductionCounts.empty.addAll ps).relativeFrequency r.production :=
    mem_sortedOn.trans ProductionCounts.mem_rules_iff
  have hfound : ((ofRules (ProductionCounts.empty.addAll ps).rules : Grammar ρ κ).rules.find?
      fun r => r.production = p).isSome :=
    List.find?_isSome.2 ⟨⟨p, (ProductionCounts.empty.addAll ps).relativeFrequency p⟩, hrules.2 ⟨h, rfl⟩, by simp⟩
  obtain ⟨r, hfind⟩ := Option.isSome_iff_exists.1 hfound
  have hr : r.production = p := by simpa using List.find?_some hfind
  rw [probability?, hfind, Option.map_some, (hrules.1 (List.mem_of_find?_eq_some hfind)).2, hr]

theorem mapM_eq_some_map {α β : Type} {f : α → Option β} {g : α → β} :
    ∀ xs : List α, (∀ x ∈ xs, f x = some (g x)) → xs.mapM f = some (xs.map g)
  | [], _ => rfl
  | x :: xs, h => by
    rw [List.forall_mem_cons] at h
    rw [List.mapM_cons, h.1, mapM_eq_some_map xs h.2]
    rfl

/-! ## The estimate -/

theorem Tree.isPlain_of_mem_phrases {s t : Tree} (h : t.EverySymbol Plain) (hs : s ∈ t.phrases) :
    s.expansion.IsPlain := by
  obtain ⟨hmem, hlex⟩ := mem_phrases_iff.1 hs
  obtain ⟨hleaf, hpre⟩ := isLexical_eq_false_iff.1 hlex
  obtain ⟨l, ts⟩ := s
  obtain ⟨hl, hchildren⟩ := (everySymbol_node hpre).1 (h.of_mem_subtrees hmem hleaf)
  refine ⟨hl, ?_, by simpa using hleaf⟩
  simp only [children_expansion, children_node, List.mem_map, forall_exists_index, and_imp]
  rintro _ t ht rfl
  exact (hchildren t ht).label

/-- The expansions of the phrases in trees annotated with parents. -/
def annotatedExpansions (ts : Forest) : List Expansion :=
  (ts.flatMap fun t => t.annotateParents.phrases).map Tree.expansion

theorem mem_annotatedExpansions_iff {ts : Forest} {e : Expansion} :
    e ∈ annotatedExpansions ts ↔ ∃ t ∈ ts, ∃ s ∈ t.annotateParents.phrases, s.expansion = e := by
  simp only [annotatedExpansions, List.mem_map, List.mem_flatMap]
  constructor
  · rintro ⟨s, ⟨t, ht, hs⟩, he⟩
    exact ⟨t, ht, s, hs, he⟩
  · rintro ⟨t, ht, s, hs, he⟩
    exact ⟨s, ⟨t, ht, hs⟩, he⟩

theorem isPlain_annotatedExpansions {ts : Forest} (h : ∀ t ∈ ts, t.EverySymbol Plain) :
    ∀ e ∈ annotatedExpansions ts, e.IsPlain := by
  intro e he
  obtain ⟨t, ht, s, hs, rfl⟩ := mem_annotatedExpansions_iff.1 he
  exact Tree.isPlain_of_mem_phrases ((h t ht).annotateParents fun _ _ => plain_underParent) hs

/-- The productions of annotated trees are those on the chains of their expansions. -/
theorem productions_annotate_perm (ts : Forest) : ((ts.map Tree.annotate).flatMap Tree.productions).Perm
    ((annotatedExpansions ts).flatMap Expansion.chain) := by
  rw [annotatedExpansions, List.flatMap_map, List.flatMap_map, List.flatMap_assoc]
  exact List.Perm.flatMap_left ts fun t _ => productions_binarize_perm t.annotateParents

/-- The grammar of binarized trees gives each phrase of the trees, by the product of the probabilities of the
productions that binarization spells it by, its relative frequency: the number of phrases with the same label and the
same labels of children, divided by the number of phrases with the same label. -/
theorem prod_chain_probability {ρ κ : Type} [Field ρ] [LinearOrder ρ] [IsStrictOrderedRing ρ] [Surprisal ρ κ]
    (ts : Forest) (hplain : ∀ t ∈ ts, t.EverySymbol Plain) :
    let phrases := ts.flatMap fun t => t.annotateParents.phrases
    ∃ g : Grammar ρ κ, Grammar.ofTrees (ts.map fun t => t.annotateParents.binarize) = .ok g ∧ ∀ s ∈ phrases,
      s.binarize.productions.Perm (s.expansion.chain ++ s.children.flatMap fun c => c.binarize.productions) ∧
      (s.expansion.chain.mapM g.probability?).map List.prod =
        some (((phrases.map Tree.expansion).count s.expansion : ρ) / ((phrases.map Tree.label).count s.label : ρ)) := by
  intro phrases
  have hes : ∀ e ∈ phrases.map Tree.expansion, e.IsPlain := isPlain_annotatedExpansions hplain
  have hperm : ((ts.map fun t => t.annotateParents.binarize).flatMap Tree.productions).Perm
      ((phrases.map Tree.expansion).flatMap Expansion.chain) := productions_annotate_perm ts
  refine ⟨_, Grammar.ofTrees_eq ?_, fun s hs => ?_⟩
  · rw [List.forall_mem_map]
    exact fun t _ => Tree.isNarrow_of_mem_annotate t
  have hmem : s.expansion ∈ phrases.map Tree.expansion := List.mem_map_of_mem hs
  have hlex : s.isLexical = false := by
    obtain ⟨t, -, hs⟩ := List.mem_flatMap.1 hs
    exact (Tree.mem_phrases_iff.1 hs).2
  refine ⟨productions_binarize_phrase hlex, ?_⟩
  have hcounted : ∀ q ∈ s.expansion.chain, q ∈ (ts.map fun t => t.annotateParents.binarize).flatMap Tree.productions :=
    fun q hq => hperm.mem_iff.2 (List.mem_flatMap.2 ⟨_, hmem, hq⟩)
  rw [mapM_eq_some_map _ fun q hq => Grammar.probability?_of_mem (hcounted q hq), Option.map_some,
    Option.some.injEq]
  have hprod := prod_chainFrom (ρ := ρ) hes hmem [] _ rfl (hes _ hmem).ne_nil (by simp)
  rw [spineLabel_nil, count_parent_chains hes (hes _ hmem).parent, List.map_map] at hprod
  refine Eq.trans ?_ hprod
  congr 1
  refine List.map_congr_left fun q hq => ?_
  rw [ProductionCounts.relativeFrequency_of_mem (hcounted q hq), hperm.count_eq,
    (hperm.map Production.parent).count_eq]

/-- A tree with a wide phrase. -/
def wideTree : Tree :=
  .node "ROOT" [.preterminal "D" "the", .preterminal "J" "old", .preterminal "J" "tired", .preterminal "N" "dog_s"]

/-- The wide tree and trees that begin like it, one with a word among the children of a phrase. -/
def wideTrees : Forest :=
  [wideTree,
    .node "ROOT" [.preterminal "D" "the", .preterminal "J" "old", .preterminal "J" "grey", .preterminal "V" "man"],
    .node "ROOT" [.preterminal "D" "the", .preterminal "J" "old", .preterminal "N" "sea"],
    .node "ROOT" [.preterminal "D" "the", .node "@N" [.leaf "sea", .preterminal "V" "is", .preterminal "J" "wide"]]]

/-- The productions that the root of the wide tree is spelled by. -/
def wideChain : List Production :=
  [.binary "ROOT" "D^ROOT" "@ROOT->_D^ROOT", .binary "@ROOT->_D^ROOT" "J^ROOT" "@ROOT->_D^ROOT_J^ROOT",
    .binary "@ROOT->_D^ROOT_J^ROOT" "J^ROOT" "N^ROOT"]

theorem prod_chain_probability_wide : (∀ t ∈ wideTrees, t.EverySymbol Plain) ∧
    ∃ g : Grammar ℚ ℤ, Grammar.ofTrees (wideTrees.map fun t => t.annotateParents.binarize) = .ok g ∧
      (wideChain.mapM g.probability?).map List.prod = some (1 / 4) := by
  have hplain : ∀ t ∈ wideTrees, t.EverySymbol Plain := by
    unfold Tree.EverySymbol; decide +kernel
  obtain ⟨g, hg, hphrases⟩ := prod_chain_probability (ρ := ℚ) (κ := ℤ) wideTrees hplain
  have hprod := (hphrases wideTree.annotateParents (by decide +kernel)).2
  have hchain : wideTree.annotateParents.expansion.chain = wideChain := by decide +kernel
  have hsame : ((wideTrees.flatMap fun t => t.annotateParents.phrases).map Tree.expansion).count
      wideTree.annotateParents.expansion = 1 := by decide +kernel
  have hlabel : ((wideTrees.flatMap fun t => t.annotateParents.phrases).map Tree.label).count
      wideTree.annotateParents.label = 4 := by decide +kernel
  rw [hchain, hsame, hlabel, Nat.cast_one, Nat.cast_ofNat] at hprod
  exact ⟨hplain, g, hg, hprod⟩

end Constituency
