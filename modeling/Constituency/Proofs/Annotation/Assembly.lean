/-
Trees put together from expansions, and trees put together from the productions on their chains. A chart recombines
productions freely, but when no label has the separating mark each inserted label tells the expansion it stands for,
as far as it has been passed, so that a node and the inserted nodes below it spell an expansion from first to last
(`Pieced.onSpine`). Hence a tree put together from productions is the binarization of a tree put together from the
expansions (`Pieced.exists_binarize`).
-/
import Constituency.Proofs.Annotation.Estimate
import Constituency.Proofs.Annotation.RoundTrip

namespace Constituency

variable {es : List Expansion} {tags : List String}

/-! ## Trees from expansions -/

/-- A tree over tagged words that has its tags and the expansions of its phrases from the given ones. -/
inductive Assembled (es : List Expansion) (tags : List String) : Tree → Prop
  | tagging {tag word : String} : tag ∈ tags → Assembled es tags (.preterminal tag word)
  | phrase {l : String} {ts : Forest} : ts ≠ [] → ⟨l, ts.map Tree.label⟩ ∈ es → (∀ t ∈ ts, Assembled es tags t) →
      Assembled es tags (.node l ts)

namespace Assembled

variable {t : Tree}

theorem isLeaf (h : Assembled es tags t) : t.isLeaf = false := by
  cases h with
  | tagging => rfl
  | phrase hts => simpa using hts

theorem isPreterminal {l : String} {ts : Forest} (h : ∀ t ∈ ts, Assembled es tags t) :
    (Tree.node l ts).isPreterminal = false := by
  match ts with
  | [] | _ :: _ :: _ => rfl
  | [t] => exact (h t List.mem_cons_self).isLeaf

/-- What holds of the parents and of the tags holds of every label above the words. -/
theorem everyInner {P : String → Prop} (hes : ∀ e ∈ es, P e.parent) (htags : ∀ tag ∈ tags, P tag)
    (h : Assembled es tags t) : t.EveryInner P := by
  induction h with
  | @tagging tag word htag =>
    refine Tree.everyInner_node.2 ⟨fun _ => htags tag htag, ?_⟩
    rw [List.forall_mem_singleton]
    exact Tree.everyInner_leaf word
  | phrase _ hmem _ ih => exact Tree.everyInner_node.2 ⟨fun _ => hes _ hmem, ih⟩

/-- Splicing undoes the binarization of a tree without labels like those of inserted nodes. -/
theorem splice_binarize (hes : ∀ e ∈ es, e.parent.toList.head? ≠ some '@')
    (htags : ∀ tag ∈ tags, tag.toList.head? ≠ some '@') (h : Assembled es tags t) : t.binarize.splice = t := by
  have hinner := h.everyInner hes htags
  obtain ⟨l, ts⟩ := t
  exact Constituency.splice_binarize (Tree.everyInner_node.1 hinner).2

theorem expansion_mem (h : Assembled es tags t) : ∀ s ∈ t.phrases, s.expansion ∈ es := by
  induction h with
  | tagging => rw [Tree.phrases_of_isLexical rfl]; simp
  | @phrase l ts hts hmem hchildren ih =>
    have hlex : (Tree.node l ts).isLexical = false :=
      Tree.isLexical_eq_false_iff.2 ⟨by simpa using hts, isPreterminal hchildren⟩
    rw [Tree.phrases_node hlex, List.forall_mem_cons]
    refine ⟨hmem, fun s hs => ?_⟩
    obtain ⟨t, ht, hs⟩ := List.mem_flatMap.1 hs
    exact ih t ht s hs

theorem tags_subset (h : Assembled es tags t) : t.tags ⊆ tags := by
  induction h with
  | tagging htag => simpa [Tree.preterminal, Tree.leaf, Tree.tags] using htag
  | @phrase l ts _ _ hchildren ih =>
    rw [Tree.tags, Tree.taggings_node (isPreterminal hchildren), Tree.children_node, List.map_flatMap]
    intro tag htag
    obtain ⟨t, ht, htag⟩ := List.mem_flatMap.1 htag
    exact ih t ht htag

end Assembled

/-! ## Trees from productions -/

/-- A tree over tagged words with nodes of one or two children that has its tags from the given ones and its
productions from the chains of the given expansions. -/
inductive Pieced (es : List Expansion) (tags : List String) : Tree → Prop
  | tagging {tag word : String} : tag ∈ tags → Pieced es tags (.preterminal tag word)
  | only {e : Expansion} {l : String} {t : Tree} : e ∈ es → .unary l t.label ∈ e.chain → Pieced es tags t →
      Pieced es tags (.node l [t])
  | pair {e : Expansion} {l : String} {s t : Tree} : e ∈ es → .binary l s.label t.label ∈ e.chain →
      Pieced es tags s → Pieced es tags t → Pieced es tags (.node l [s, t])

/-- What a chart can put at a node of the spine of a phrase: a whole binarized tree where nothing has been passed, and
an inserted node over the rest of an expansion past some siblings. -/
inductive OnSpine (es : List Expansion) (tags : List String) (l : String) : List String → Tree → Prop
  | whole {u : Tree} : Assembled es tags u → u.label = l → OnSpine es tags l [] u.binarize
  | inserted {p : List String} {us : Forest} : p ≠ [] → 2 ≤ us.length → ⟨l, p ++ us.map Tree.label⟩ ∈ es →
      (∀ u ∈ us, Assembled es tags u) →
      OnSpine es tags l p (.node (spineLabel l p) (Forest.binarize (trailOf l p) us))

namespace OnSpine

variable {l : String} {p : List String} {s t u : Tree}

theorem exists_binarize (h : OnSpine es tags l [] t) : ∃ u, Assembled es tags u ∧ u.binarize = t := by
  cases h with
  | whole hu => exact ⟨_, hu, rfl⟩
  | inserted hp => exact absurd rfl hp

theorem of_children {us : Forest} (hus : us ≠ []) (hp : p ≠ [] → 2 ≤ us.length)
    (hmem : ⟨l, p ++ us.map Tree.label⟩ ∈ es) (hassembled : ∀ u ∈ us, Assembled es tags u) :
    OnSpine es tags l p (.node (spineLabel l p) (Forest.binarize (trailOf l p) us)) := by
  by_cases hnil : p = []
  · subst hnil
    have hphrase : OnSpine es tags l [] (Tree.node l us).binarize := .whole (.phrase hus hmem hassembled) rfl
    rwa [Tree.binarize_node] at hphrase
  · exact .inserted hnil (hp hnil) hmem hassembled

/-- A node over an only child. -/
theorem only (hmem : ⟨l, [t.label]⟩ ∈ es) (h : OnSpine es tags t.label [] t) :
    OnSpine es tags l [] (.node l [t]) := by
  obtain ⟨u, hu, rfl⟩ := h.exists_binarize
  have hspine := of_children (p := []) (List.cons_ne_nil u []) (by simp) (by simpa using hmem) (by simpa using hu)
  rwa [Forest.binarize] at hspine

/-- A node over the last two children. -/
theorem last (hmem : ⟨l, p ++ [s.label, t.label]⟩ ∈ es) (hs : OnSpine es tags s.label [] s)
    (ht : OnSpine es tags t.label [] t) : OnSpine es tags l p (.node (spineLabel l p) [s, t]) := by
  obtain ⟨u, hu, rfl⟩ := hs.exists_binarize
  obtain ⟨v, hv, rfl⟩ := ht.exists_binarize
  have hspine := of_children (List.cons_ne_nil u [v]) (fun _ => le_rfl) (by simpa using hmem)
    (by simpa using ⟨hu, hv⟩)
  rwa [Forest.binarize] at hspine

/-- A node over a child that is passed and the next node of the spine. -/
theorem pass (hs : OnSpine es tags s.label [] s) (ht : OnSpine es tags l (p ++ [s.label]) t) :
    OnSpine es tags l p (.node (spineLabel l p) [s, t]) := by
  obtain ⟨u, hu, rfl⟩ := hs.exists_binarize
  generalize hq : p ++ [u.binarize.label] = q at ht
  cases ht with
  | whole => simp at hq
  | @inserted _ us _ hlength hmem hassembled =>
    have hbinarize : Forest.binarize (trailOf l p) (u :: us) =
        [u.binarize, .node (spineLabel l q) (Forest.binarize (trailOf l q) us)] := by
      match us with
      | v :: w :: us => rw [Forest.binarize, ← hq, Tree.label_binarize, spineLabel_concat, trailOf_concat]
    rw [← hbinarize]
    refine of_children (List.cons_ne_nil u us) (fun _ => by simp; omega) (by simpa [← hq] using hmem) ?_
    rw [List.forall_mem_cons]
    exact ⟨hu, hassembled⟩

end OnSpine

variable (hes : ∀ e ∈ es, e.IsPlain) (htags : ∀ tag ∈ tags, Plain tag)

include hes htags

/-- In a tree from productions every node is on the spine that its label tells. -/
theorem Pieced.onSpine {t : Tree} (h : Pieced es tags t) : ∀ {l : String} {p : List String}, Plain l →
    (∀ c ∈ p, Plain c) → t.label = spineLabel l p → OnSpine es tags l p t := by
  induction h with
  | @tagging tag word htag =>
    intro l p _ _ hlabel
    -- a tag has no separating mark, so that nothing has been passed
    have hp : p = [] := by
      by_contra hp
      exact not_plain_spineLabel l hp (hlabel ▸ htags tag htag)
    subst hp
    have hwhole : OnSpine es tags l [] (Tree.preterminal tag word).binarize := .whole (.tagging htag) hlabel
    rwa [Tree.binarize_preterminal] at hwhole
  | @only e m t he hmem _ ih =>
    intro l p hl hp hlabel
    rw [Tree.label_node] at hlabel
    subst hlabel
    obtain ⟨rfl, rfl⟩ := (hes e he).eq_of_unary_mem_chain hl hp hmem
    exact .only he (ih ((hes _ he).children _ List.mem_cons_self) (by simp) rfl)
  | @pair e m s t he hmem _ _ ihs iht =>
    intro l p hl hp hlabel
    rw [Tree.label_node] at hlabel
    subst hlabel
    obtain ⟨ht, rfl⟩ | ⟨ds, -, rfl, ht⟩ := (hes e he).eq_of_binary_mem_chain hl hp hmem
    · have hs : Plain s.label := (hes _ he).children _ (by simp)
      exact .last he (ihs hs (by simp) rfl) (iht ht (by simp) rfl)
    · -- the second child is on the same spine, one sibling further
      have hs : Plain s.label := (hes _ he).children _ (by simp)
      refine .pass (ihs hs (by simp) rfl) (iht hl ?_ ht)
      rw [List.forall_mem_append]
      exact ⟨hp, by simpa using hs⟩

theorem Pieced.exists_binarize {t : Tree} (h : Pieced es tags t) (hlabel : Plain t.label) :
    ∃ u, Assembled es tags u ∧ u.binarize = t :=
  (h.onSpine hes htags hlabel (p := []) (by simp) rfl).exists_binarize

end Constituency
