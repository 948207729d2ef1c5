/-
Chains of productions. The expansion of a phrase is its label with the labels of its children, and binarization spells
it by a chain of productions: the first one for the phrase itself, the others for the inserted nodes, whose labels
name the phrase and the siblings passed (`spineLabel`). The productions of a binarized tree are the chains of the
expansions in the tree (`productions_binarize_perm`). When no label has the mark that separates siblings on a trail,
the label of an inserted node tells the phrase and the siblings passed (`spineLabel_inj`), so that a production on a
chain tells as much of the expansion as it has passed (`mem_chain_iff`).
-/
import Constituency.Proofs.Annotation.Shape

namespace Constituency

/-! ## Expansions -/

/-- The label of a node with the labels of its children. -/
structure Expansion where
  parent : String
  children : List String
deriving DecidableEq, Repr

namespace Tree

def expansion (t : Tree) : Expansion := ⟨t.label, t.children.map label⟩

@[simp] theorem parent_expansion (t : Tree) : t.expansion.parent = t.label := rfl

@[simp] theorem children_expansion (t : Tree) : t.expansion.children = t.children.map label := rfl

/-- The nodes of a tree that are neither words nor preterminals, in preorder. -/
def phrases (t : Tree) : List Tree := t.subtrees.filter (!·.isLexical)

theorem mem_phrases_iff {s t : Tree} : s ∈ t.phrases ↔ s ∈ t.subtrees ∧ s.isLexical = false := by
  simp [phrases]

theorem phrases_of_isLexical {t : Tree} (h : t.isLexical = true) : t.phrases = [] := by
  match t with
  | node _ [] | node _ [node _ []] => simp [phrases, subtrees_node, isLexical]
  | node _ [node _ (_ :: _)] | node _ (_ :: _ :: _) => simp [isLexical] at h

theorem phrases_node {l : String} {ts : Forest} (h : (node l ts).isLexical = false) :
    (node l ts).phrases = node l ts :: ts.flatMap phrases := by
  rw [phrases, subtrees_node, List.filter_cons_of_pos (by simp [h]), List.filter_flatMap]
  rfl

end Tree

/-! ## Chains -/

/-- The productions of a node with the given label and of the nodes inserted below it, in front of the children with
the given labels. -/
def chainFrom (l trail : String) : List String → List Production
  | [] => []
  | [c] => [.unary l c]
  | [c, d] => [.binary l c d]
  | c :: d :: e :: cs =>
    let trail := trailPast trail c
    .binary l c trail :: chainFrom trail trail (d :: e :: cs)

/-- The productions by which binarization spells an expansion. -/
def Expansion.chain (e : Expansion) : List Production := chainFrom e.parent (trailStart e.parent) e.children

/-- A node over binarized children has the productions of its chain and those of the children. -/
theorem productions_chainFrom : ∀ (l trail : String) (ts : Forest),
    (Tree.node l (Forest.binarize trail ts)).isLexical = false →
      (Tree.node l (Forest.binarize trail ts)).productions.Perm
        (chainFrom l trail (ts.map Tree.label) ++ ts.flatMap fun t => t.binarize.productions)
  | _, _, [], h => by simp [Forest.binarize, Tree.isLexical] at h
  | l, trail, [t], h => by
    rw [Tree.productions_node, Tree.production?_of_not_isLexical h]
    simp [Forest.binarize, Production.ofNode?, chainFrom]
  | l, trail, [s, t], h => by
    rw [Tree.productions_node, Tree.production?_of_not_isLexical h]
    simp [Forest.binarize, Production.ofNode?, chainFrom]
  | l, trail, s :: t :: u :: ts, h => by
    have hrest := productions_chainFrom (trailPast trail s.label) (trailPast trail s.label) (t :: u :: ts) (by
      obtain ⟨r, hr⟩ := Forest.binarize_cons_cons (trailPast trail s.label) t u ts
      simp [hr, Tree.isLexical])
    rw [Tree.productions_node, Tree.production?_of_not_isLexical h, Forest.binarize]
    simp only [Production.ofNode?, Option.toList_some, Tree.label_binarize, Tree.label_node, List.flatMap_cons,
      List.flatMap_nil, List.append_nil, List.map_cons, chainFrom, List.cons_append, List.nil_append] at hrest ⊢
    exact ((hrest.append_left _).trans (List.perm_append_comm_assoc ..)).cons _

theorem productions_binarize_phrase {t : Tree} (h : t.isLexical = false) : t.binarize.productions.Perm
    (t.expansion.chain ++ t.children.flatMap fun c => c.binarize.productions) := by
  obtain ⟨l, ts⟩ := t
  rw [Tree.binarize_node]
  exact productions_chainFrom l (trailStart l) ts (by rw [← Tree.binarize_node, Tree.isLexical_binarize, h])

/-- The productions of a binarized tree are those of the chains of its expansions. -/
theorem productions_binarize_perm (t : Tree) :
    t.binarize.productions.Perm (t.phrases.flatMap fun s => s.expansion.chain) := by
  induction t using Tree.induction_on_children with
  | h l ts ih =>
    cases hlex : (Tree.node l ts).isLexical with
    | true =>
      rw [Tree.productions_of_isLexical ((Tree.isLexical_binarize _).trans hlex), Tree.phrases_of_isLexical hlex,
        List.flatMap_nil]
    | false =>
      rw [Tree.phrases_node hlex, List.flatMap_cons, List.flatMap_assoc]
      exact (productions_binarize_phrase hlex).trans ((List.Perm.flatMap_left ts ih).append_left _)

/-! ## Labels on the spine -/

/-- The label of a trail past some siblings. -/
def trailOf (l : String) (passed : List String) : String := passed.foldl trailPast (trailStart l)

/-- The label on the spine of a node once some siblings have been passed; at the start it is that of the node. -/
def spineLabel (l : String) (passed : List String) : String := if passed = [] then l else trailOf l passed

@[simp] theorem spineLabel_nil (l : String) : spineLabel l [] = l := rfl

theorem spineLabel_of_ne_nil (l : String) {p : List String} (h : p ≠ []) : spineLabel l p = trailOf l p := if_neg h

theorem trailOf_concat (l : String) (p : List String) (c : String) :
    trailOf l (p ++ [c]) = trailPast (trailOf l p) c := by
  rw [trailOf, List.foldl_append]
  rfl

theorem spineLabel_concat (l : String) (p : List String) (c : String) :
    spineLabel l (p ++ [c]) = trailPast (trailOf l p) c := by
  rw [spineLabel_of_ne_nil l (by simp), trailOf_concat]

/-- A label without the mark that separates the siblings on a trail. -/
def Plain (l : String) : Prop := '_' ∉ l.toList

instance (l : String) : Decidable (Plain l) := inferInstanceAs (Decidable ('_' ∉ l.toList))

theorem plain_underParent {l parent : String} (hl : Plain l) (hparent : Plain parent) :
    Plain (underParent parent l) := by
  simp only [Plain, underParent, String.toList_append, List.mem_append, not_or] at *
  exact ⟨⟨hl, by decide⟩, hparent⟩

theorem toList_foldl_trailPast (s : String) (p : List String) :
    (p.foldl trailPast s).toList = ['_'].intercalate (s.toList :: p.map String.toList) := by
  induction p generalizing s with
  | nil => simp
  | cons c p ih =>
    rw [List.foldl_cons, ih, List.map_cons, List.intercalate_cons_cons]
    cases p with
    | nil => simp [trailPast]
    | cons d p => simp [trailPast, List.intercalate_cons_cons]

theorem not_plain_spineLabel (l : String) {p : List String} (h : p ≠ []) : ¬ Plain (spineLabel l p) := by
  obtain ⟨p, c, rfl⟩ := (List.eq_nil_or_concat' p).resolve_left h
  rw [spineLabel_concat]
  simp [Plain, trailPast]

theorem trailOf_inj {l l' : String} {p p' : List String} (hl : Plain l) (hl' : Plain l') (hp : ∀ c ∈ p, Plain c)
    (hp' : ∀ c ∈ p', Plain c) (h : trailOf l p = trailOf l' p') : l = l' ∧ p = p' := by
  have hstart {m : String} (hm : Plain m) : '_' ∉ (trailStart m).toList := by
    simp only [Plain, trailStart, String.toList_append, List.mem_append, not_or] at *
    exact ⟨⟨by decide, hm⟩, by decide⟩
  have hpieces {m : String} {q : List String} (hm : Plain m) (hq : ∀ c ∈ q, Plain c) :
      (trailOf m q).toList.splitOn '_' = (trailStart m).toList :: q.map String.toList := by
    rw [trailOf, toList_foldl_trailPast]
    refine List.splitOn_intercalate _ ?_ (List.cons_ne_nil _ _)
    rw [List.forall_mem_cons, List.forall_mem_map]
    exact ⟨hstart hm, hq⟩
  have hsplit := hpieces hl hp
  rw [h, hpieces hl' hp', List.cons.injEq] at hsplit
  obtain ⟨hstarts, hps⟩ := hsplit
  refine ⟨?_, (List.map_injective_iff.2 (fun _ _ => String.toList_injective) hps).symm⟩
  apply String.toList_injective
  simpa [trailStart] using hstarts.symm

/-- Labels on spines tell the node and the siblings passed. -/
theorem spineLabel_inj {l l' : String} {p p' : List String} (hl : Plain l) (hl' : Plain l') (hp : ∀ c ∈ p, Plain c)
    (hp' : ∀ c ∈ p', Plain c) (h : spineLabel l p = spineLabel l' p') : l = l' ∧ p = p' := by
  by_cases hnil : p = []
  · subst hnil
    by_cases hnil' : p' = []
    · subst hnil'; exact ⟨h, rfl⟩
    · exact absurd (h ▸ hl : Plain (spineLabel l' p')) (not_plain_spineLabel l' hnil')
  · by_cases hnil' : p' = []
    · subst hnil'
      exact absurd (h ▸ hl' : Plain (spineLabel l p)) (not_plain_spineLabel l hnil)
    · rw [spineLabel_of_ne_nil l hnil, spineLabel_of_ne_nil l' hnil'] at h
      exact trailOf_inj hl hl' hp hp' h

/-! ## Links of a chain -/

/-- A production on the chain of a node with the label `l` past the siblings `p`, in front of the children `cs`: the
one over an only child, the one over the last two children, or one that passes a child with more than one behind it. -/
inductive Link (l : String) (p cs : List String) : Production → Prop
  | only {c : String} : cs = [c] → Link l p cs (.unary (spineLabel l p) c)
  | last {r : List String} {c d : String} : cs = r ++ [c, d] → Link l p cs (.binary (spineLabel l (p ++ r)) c d)
  | pass {r ds : List String} {c : String} : cs = r ++ c :: ds → 2 ≤ ds.length →
      Link l p cs (.binary (spineLabel l (p ++ r)) c (spineLabel l (p ++ r ++ [c])))

namespace Link

variable {l : String} {p cs : List String} {q : Production}

theorem cons {c : String} (h : Link l (p ++ [c]) cs q) (hcs : 2 ≤ cs.length) : Link l p (c :: cs) q := by
  cases h with
  | only h => simp [h] at hcs
  | @last r d e h =>
    rw [← List.append_cons]
    exact .last (by rw [h]; rfl)
  | @pass r ds d h hds =>
    rw [← List.append_cons]
    exact .pass (by rw [h]; rfl) hds

end Link

theorem chainFrom_cons (l : String) (p : List String) (c : String) {cs : List String} (h : 2 ≤ cs.length) :
    chainFrom (spineLabel l p) (trailOf l p) (c :: cs) =
      .binary (spineLabel l p) c (spineLabel l (p ++ [c])) ::
        chainFrom (spineLabel l (p ++ [c])) (trailOf l (p ++ [c])) cs := by
  match cs with
  | d :: e :: cs => rw [chainFrom, spineLabel_concat, trailOf_concat]

/-- What is on the chain past some more siblings is on the chain. -/
theorem mem_chainFrom_append {l : String} {cs : List String} {q : Production} (hcs : 2 ≤ cs.length) :
    ∀ r p : List String, q ∈ chainFrom (spineLabel l (p ++ r)) (trailOf l (p ++ r)) cs →
      q ∈ chainFrom (spineLabel l p) (trailOf l p) (r ++ cs)
  | [], p, h => by simpa using h
  | c :: r, p, h => by
    rw [List.cons_append, chainFrom_cons l p c (by simp; omega)]
    exact List.mem_cons_of_mem _ (mem_chainFrom_append hcs r (p ++ [c]) (by simpa using h))

theorem link_of_mem_chainFrom {l : String} {q : Production} : ∀ p cs : List String,
    q ∈ chainFrom (spineLabel l p) (trailOf l p) cs → Link l p cs q
  | _, [], h => by simp [chainFrom] at h
  | p, [c], h => by
    obtain rfl := List.mem_singleton.1 h
    exact .only rfl
  | p, [c, d], h => by
    obtain rfl := List.mem_singleton.1 h
    have hlast : Link l p [c, d] _ := .last (r := []) rfl
    rwa [List.append_nil] at hlast
  | p, c :: d :: e :: cs, h => by
    rw [chainFrom_cons l p c (by simp), List.mem_cons] at h
    rcases h with rfl | h
    · have hpass : Link l p (c :: d :: e :: cs) _ := .pass (r := []) rfl (by simp)
      rwa [List.append_nil] at hpass
    · exact (link_of_mem_chainFrom (p ++ [c]) (d :: e :: cs) h).cons (by simp)

/-- The productions on a chain are its links. -/
theorem mem_chainFrom_iff {l : String} {p cs : List String} {q : Production} :
    q ∈ chainFrom (spineLabel l p) (trailOf l p) cs ↔ Link l p cs q := by
  refine ⟨link_of_mem_chainFrom p cs, ?_⟩
  rintro (rfl | ⟨rfl⟩ | ⟨rfl, hds⟩)
  · simp [chainFrom]
  · exact mem_chainFrom_append (by simp) _ p (by simp [chainFrom])
  · refine mem_chainFrom_append (by simp; omega) _ p ?_
    rw [chainFrom_cons l _ _ hds]
    exact List.mem_cons_self

theorem Expansion.mem_chain_iff {e : Expansion} {q : Production} : q ∈ e.chain ↔ Link e.parent [] e.children q :=
  mem_chainFrom_iff (p := [])

end Constituency
