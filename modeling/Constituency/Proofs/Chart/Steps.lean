/-
What is entered into a chart, whatever the arithmetic of costs. A step comes into a cell as a tag of the word, along a
unary edge, or along a binary edge over a split of the span; what holds of these three holds of every step of a filled
chart (`Chart.everyStep_fill`), because neither offers nor passes invent steps. So a lexical step stands over one word,
and a binary one divides its span, and the trees that are read off a chart have the words of their spans
(`Chart.Reads.words_eq`).
-/
import Constituency.Proofs.Chart.Derivations
import Constituency.Proofs.Chart.Reconstruction

namespace Constituency

variable {ρ κ : Type} [NatCast ρ] [LT ρ] {g : Grammar ρ κ} {scorer : TagScorer ρ}

/-! ## Cells -/

/-- All steps of a cell have a property. -/
def Cell.EveryStep (P : Nat → Step → Prop) (cell : Cell κ) : Prop :=
  ∀ (a : Nat) (e : Entry κ), cell[a]? = some e → P a e.step

section Cells

variable {P : Nat → Step → Prop} {cell : Cell κ}

theorem Cell.everyStep_empty : (∅ : Cell κ).EveryStep P := by
  intro a e h
  simp at h

theorem Cell.EveryStep.insert (h : cell.EveryStep P) {a : Nat} {e : Entry κ} (he : P a e.step) :
    Cell.EveryStep P (cell.insert a e) := by
  intro b f hf
  rw [getElem?_insert_eq] at hf
  split at hf
  · rename_i hab
    cases hf; subst hab
    exact he
  · exact h b f hf

theorem Cell.everyStep_ofWord [DecidableLT ρ] [Surprisal ρ κ] {word : String}
    (hlexical : ∀ tag ∈ scorer.tags, ∀ a, g.symbols.number? tag = some a → ((0 : Nat) : ρ) < scorer.score word tag →
      P a .lexical) : (ofWord g scorer word).EveryStep P := by
  intro a e h
  rcases foldl_enterTag_some scorer.tags ∅ h with h | ⟨tag, htag, hnumber, hpos, rfl⟩
  · simp at h
  · exact hlexical tag htag a hnumber hpos

variable [LT κ] [DecidableLT κ]

theorem Cell.EveryStep.offer (h : cell.EveryStep P) {a : Nat} {e : Entry κ} (he : P a e.step) :
    (cell.offer a e).EveryStep P := by
  unfold Cell.offer
  split
  · exact h.insert he
  · exact h

theorem Cell.EveryStep.foldl_offer : ∀ (cs : List (Combination κ)) {cell : Cell κ}, cell.EveryStep P →
    (∀ c ∈ cs, P c.symbol c.entry.step) →
    Cell.EveryStep P (cs.foldl (fun cell c => cell.offer c.symbol c.entry) cell)
  | [], _, h, _ => h
  | c :: cs, _, h, hcs => by
    rw [List.forall_mem_cons] at hcs
    exact foldl_offer cs (h.offer hcs.1) hcs.2

variable [Add κ] [BEq κ]

theorem Pass.everyStep_follow {edge : UnaryEdge κ} (hedge : P edge.parent (.unary edge.child)) {p : Pass κ}
    (h : p.cell.EveryStep P) : (p.follow edge).cell.EveryStep P := by
  unfold follow
  split
  · exact h
  · dsimp only
    split
    · exact h.insert hedge
    · exact h

theorem Pass.everyStep_foldl_follow : ∀ (edges : List (UnaryEdge κ)) {p : Pass κ}, p.cell.EveryStep P →
    (∀ edge ∈ edges, P edge.parent (.unary edge.child)) → (edges.foldl follow p).cell.EveryStep P
  | [], _, h, _ => h
  | edge :: edges, _, h, hedges => by
    rw [List.forall_mem_cons] at hedges
    exact everyStep_foldl_follow edges (everyStep_follow hedges.1 h) hedges.2

omit [NatCast ρ] [LT ρ] in
theorem Cell.EveryStep.closeWithin (hunary : ∀ k, ∀ edge ∈ g.unaryEdges.get k, P edge.parent (.unary edge.child))
    (limit : Nat) {cell : Cell κ} (h : cell.EveryStep P) : (cell.closeWithin g limit).cell.EveryStep P := by
  induction limit generalizing cell with
  | zero => exact h
  | succ limit ih =>
    have hpass : (cell.pass g).cell.EveryStep P := by
      refine Pass.everyStep_foldl_follow (p := ⟨cell, false⟩) _ h fun edge hedge => ?_
      obtain ⟨k, hk⟩ := cell.exists_of_mem_unaryEdges edge hedge
      exact hunary k edge hk
    rw [Cell.closeWithin]
    split
    · exact h
    · rename_i heq
      rw [heq] at hpass
      exact ih hpass

end Cells

/-! ## Charts -/

/-- A property of the steps over a span that the three ways to enter a step have. -/
structure Admits (g : Grammar ρ κ) (scorer : TagScorer ρ) (words : Array String) (P : Nat → Nat → Nat → Step → Prop) :
    Prop where
  lexical : ∀ start, ∀ tag ∈ scorer.tags, ∀ a, g.symbols.number? tag = some a →
    ((0 : Nat) : ρ) < scorer.score (words.getD start "") tag → P start (start + 1) a .lexical
  unary : ∀ start stop k, ∀ edge ∈ g.unaryEdges.get k, P start stop edge.parent (.unary edge.child)
  binary : ∀ start split stop k, start < split → split < stop → ∀ edge ∈ g.binaryEdges.get k,
    P start stop edge.parent (.binary split edge.left edge.right)

section Charts

variable [DecidableLT ρ] [Surprisal ρ κ] [Add κ] [LT κ] [DecidableLT κ] {P : Nat → Nat → Nat → Step → Prop}

theorem Admits.initial {words : Array String} (hP : Admits g scorer words P) (levels : Array (Array (Closed κ)))
    (start length : Nat) :
    (Cell.initial g scorer words levels start length).EveryStep (P start (start + length)) := by
  unfold Cell.initial
  split
  · rename_i hone
    subst hone
    exact Cell.everyStep_ofWord (hP.lexical start)
  · refine Cell.everyStep_empty.foldl_offer _ fun c hc => ?_
    obtain ⟨split, a, l, edge, r, hlo, hhi, -, hedge, -, rfl⟩ := mem_combinations_iff.1 hc
    exact hP.binary start split _ a hlo hhi edge hedge

variable [BEq κ]

/-- The cells at position `i` of the levels are those of the spans of length `i`. -/
theorem Admits.levelsUpTo {words : Array String} (hP : Admits g scorer words P) :
    ∀ {n i start : Nat} {cells : Array (Closed κ)} {closed : Closed κ},
      (levelsUpTo g scorer words n)[i]? = some cells → cells[start]? = some closed →
      0 < i ∧ closed.cell.EveryStep (P start (start + i))
  | 0, 0, _, _, _, hcells, hclosed => by
    cases hcells
    cases hclosed
  | 0, _ + 1, _, _, _, hcells, _ => by cases hcells
  | n + 1, i, start, cells, closed, hcells, hclosed => by
    rw [Constituency.levelsUpTo, Array.getElem?_push, size_levelsUpTo] at hcells
    split at hcells
    · rename_i hi
      cases hcells; subst hi
      obtain ⟨hstart, rfl⟩ := Array.getElem?_eq_some_iff.1 hclosed
      simp only [level, Array.getElem_map, Array.getElem_range]
      exact ⟨n.succ_pos, (hP.initial _ start (n + 1)).closeWithin (hP.unary start _) _⟩
    · exact hP.levelsUpTo hcells hclosed

/-- What holds of all steps that can be entered holds of all steps of a chart. -/
theorem Chart.everyStep_fill {words : List String} (hP : Admits g scorer words.toArray P) (start stop : Nat) :
    ((Chart.fill g scorer words).cell start stop).EveryStep (P start stop) := by
  unfold cell cellIn fill
  split
  · exact Cell.everyStep_empty
  · rename_i hcells
    split
    · exact Cell.everyStep_empty
    · rename_i hclosed
      obtain ⟨hpos, hsteps⟩ := hP.levelsUpTo hcells hclosed
      rwa [show start + (stop - start) = stop by omega] at hsteps

end Charts

/-! ## Spans -/

/-- Whether a step can stand over a span: a word fills one position, and a split divides the span. -/
def Step.Fits (start stop : Nat) : Step → Prop
  | .lexical => stop = start + 1
  | .unary _ => True
  | .binary split _ _ => start < split ∧ split < stop

theorem admits_fits (g : Grammar ρ κ) (scorer : TagScorer ρ) (words : Array String) :
    Admits g scorer words fun start stop _ step => step.Fits start stop where
  lexical _ _ _ _ _ _ := rfl
  unary _ _ _ _ _ := trivial
  binary _ _ _ _ hlo hhi _ _ := ⟨hlo, hhi⟩

variable [DecidableLT ρ] [Surprisal ρ κ] [Add κ] [LT κ] [DecidableLT κ] [BEq κ]

/-- A tree that was read off a chart has the words of its span. -/
theorem Chart.Reads.words_eq {words : List String} {a start stop : Nat} {t : Tree}
    (h : Reads g words (Chart.fill g scorer words) a start stop t) : t.words = words.extract start stop := by
  have hfits := everyStep_fill (admits_fits g scorer words.toArray)
  induction h with
  | @lexical a start stop label word cost hlabel he hword =>
    have hone : stop = start + 1 := hfits start stop a _ he
    rw [hone, extract_succ hword]
    rfl
  | unary hlabel he ht ih => simpa [Tree.words, Forest.words] using ih
  | @binary a i j start split stop label cost s t hlabel he hs ht ihs iht =>
    obtain ⟨hlo, hhi⟩ : start < split ∧ split < stop := hfits start stop a _ he
    simp [Tree.words, Forest.words, ihs, iht, extract_append_extract words hlo.le hhi.le]

/-- A derivation has the words of the sentence. -/
theorem Grammar.words_of_derive? {words : List String} {start : String} {d : Derivation κ}
    (h : g.derive? scorer words start = some d) : d.tree.words = words := by
  simp only [derive?, Option.bind_eq_bind, Option.bind_eq_some_iff, Option.pure_def, Option.some.injEq] at h
  obtain ⟨-, -, a, -, cost, -, t, ht, rfl⟩ := h
  rw [(Chart.reads_of_tree? ht).words_eq, List.extract_eq_take_drop]
  simp

end Constituency
