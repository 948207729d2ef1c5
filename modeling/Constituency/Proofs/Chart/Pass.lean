/-
Passes over a cell, step by step. A `UnaryStep` enters the parent of a unary edge from its child; what a
pass does to a cell is a sequence of such steps (`foldl_follow_steps`), at least one when the pass reports a
change (`foldl_follow_changed`). No step drops a symbol or raises a cost (`UnaryStep.lowered`), and each step
either lowers a cost or takes the place of a lexical entry (`takesUnary_iff`).
-/
import Constituency.Chart.Closure
import Constituency.Proofs.Grammar.Edges
import Mathlib.Logic.Relation
import Mathlib.Tactic

namespace Constituency

variable {ρ κ : Type}

namespace Cell

theorem getElem?_insert_eq (cell : Cell κ) (a b : Nat) (e : Entry κ) :
    (cell.insert a e)[b]? = if a = b then some e else cell[b]? := by
  rw [Std.TreeMap.getElem?_insert]
  simp

theorem mem_iff_exists {cell : Cell κ} {a : Nat} : a ∈ cell ↔ ∃ e, cell[a]? = some e := by
  rw [Std.TreeMap.mem_iff_isSome_getElem?, Option.isSome_iff_exists]

/-- The cell has the symbol, at no higher a cost. -/
def HasWithin [LE κ] (cell : Cell κ) (a : Nat) (c : κ) : Prop := ∃ e, cell[a]? = some e ∧ e.cost ≤ c

/-- Every entry of the old cell is in the new one, at no higher a cost. -/
def Lowered [LE κ] (old new : Cell κ) : Prop :=
  ∀ (a : Nat) (e : Entry κ), old[a]? = some e → new.HasWithin a e.cost

section Order

variable [LinearOrder κ]

theorem HasWithin.weaken {cell : Cell κ} {a : Nat} {c d : κ} (h : cell.HasWithin a c) (hle : c ≤ d) :
    cell.HasWithin a d := by
  obtain ⟨e, he, hc⟩ := h
  exact ⟨e, he, hc.trans hle⟩

theorem HasWithin.cost_le {cell : Cell κ} {a : Nat} {c : κ} {e : Entry κ} (h : cell.HasWithin a c)
    (he : cell[a]? = some e) : e.cost ≤ c := by
  obtain ⟨e', he', hc⟩ := h
  rw [he] at he'; cases he'
  exact hc

theorem HasWithin.lowered {old new : Cell κ} {a : Nat} {c : κ} (h : old.HasWithin a c)
    (hlow : Lowered old new) : new.HasWithin a c := by
  obtain ⟨e, he, hc⟩ := h
  exact (hlow a e he).weaken hc

theorem Lowered.refl (cell : Cell κ) : Lowered cell cell := fun _ e h => ⟨e, h, le_rfl⟩

theorem Lowered.trans {a b c : Cell κ} (hab : Lowered a b) (hbc : Lowered b c) : Lowered a c :=
  fun x e he => (hab x e he).lowered hbc

theorem improves_iff {cost : κ} {old : Option (Entry κ)} :
    improves cost old = true ↔ ∀ e, old = some e → cost < e.cost := by
  cases old with
  | none => simp [improves]
  | some e => simp [improves]

theorem lowered_insert {cell : Cell κ} {a : Nat} {e : Entry κ}
    (h : ∀ old, cell[a]? = some old → e.cost ≤ old.cost) : Lowered cell (cell.insert a e) := by
  intro b old hb
  by_cases hab : a = b
  · subst hab
    exact ⟨e, by rw [getElem?_insert_eq, if_pos rfl], h old hb⟩
  · exact ⟨old, by rw [getElem?_insert_eq, if_neg hab]; exact hb, le_rfl⟩

/-- A unary step is entered when it is cheaper than what is known, or when it ties with a lexical entry and
the chain below the child does not come to the parent. -/
theorem takesUnary_iff {cell : Cell κ} {parent child : Nat} {cost : κ} :
    cell.takesUnary parent child cost = true ↔
      (∀ e, cell[parent]? = some e → cost < e.cost) ∨
        (cell[parent]? = some ⟨cost, .lexical⟩ ∧ cell.reaches child parent = false) := by
  unfold takesUnary
  rw [Bool.or_eq_true, improves_iff, or_comm]
  apply or_congr_right
  unfold replacesLexical
  split
  · rename_i known h
    simp only [h, Bool.and_eq_true, beq_iff_eq, Bool.not_eq_true', Option.some.injEq, Entry.mk.injEq, and_true]
    exact and_congr_left fun _ => eq_comm
  · rename_i hno
    simp only [Bool.false_eq_true, false_iff, not_and]
    exact fun h => absurd h (hno cost)

theorem le_of_takesUnary {cell : Cell κ} {parent child : Nat} {cost : κ}
    (h : cell.takesUnary parent child cost = true) : ∀ e, cell[parent]? = some e → cost ≤ e.cost := by
  intro e he
  rcases takesUnary_iff.1 h with hlt | ⟨hlex, -⟩
  · exact (hlt e he).le
  · rw [hlex] at he; cases he; exact le_rfl

theorem hasWithin_of_not_takesUnary {cell : Cell κ} {parent child : Nat} {cost : κ}
    (h : cell.takesUnary parent child cost = false) : cell.HasWithin parent cost := by
  by_contra hno
  have htakes : cell.takesUnary parent child cost = true :=
    takesUnary_iff.2 (.inl fun e he => not_le.1 fun hle => hno ⟨e, he, hle⟩)
  rw [h] at htakes; cases htakes

end Order

/-! ## Steps -/

variable [LinearOrder κ] [Add κ]

/-- The parent of a unary edge is entered from its child. -/
inductive UnaryStep (g : Grammar ρ κ) : Cell κ → Cell κ → Prop
  | enter {cell : Cell κ} {k : Nat} {edge : UnaryEdge κ} {child : Entry κ} :
      edge ∈ g.unaryEdges.get k → cell[edge.child]? = some child →
      cell.takesUnary edge.parent edge.child (child.cost + edge.cost) = true →
      UnaryStep g cell (cell.insert edge.parent ⟨child.cost + edge.cost, .unary edge.child⟩)

/-- Any number of unary steps. -/
abbrev UnarySteps (g : Grammar ρ κ) : Cell κ → Cell κ → Prop := Relation.ReflTransGen (UnaryStep g)

theorem UnaryStep.lowered {g : Grammar ρ κ} {old new : Cell κ} (h : UnaryStep g old new) : Lowered old new := by
  obtain ⟨-, -, htakes⟩ := h
  exact lowered_insert (le_of_takesUnary htakes)

theorem UnarySteps.lowered {g : Grammar ρ κ} {old new : Cell κ} (h : UnarySteps g old new) :
    Lowered old new := by
  induction h with
  | refl => exact Lowered.refl old
  | tail _ hstep ih => exact ih.trans hstep.lowered

section Entries

variable {g : Grammar ρ κ} {old new : Cell κ} (h : UnarySteps g old new) {a : Nat} {e e' : Entry κ}

include h

/-- An entry that is not unary was there before. -/
theorem UnarySteps.of_step_ne (hnew : new[a]? = some e) (hstep : ∀ b, e.step ≠ .unary b) : old[a]? = some e := by
  induction h with
  | refl => exact hnew
  | tail _ hlast ih =>
    obtain ⟨-, -, -⟩ := hlast
    rw [getElem?_insert_eq] at hnew
    split at hnew
    · cases hnew
      exact absurd rfl (hstep _)
    · exact ih hnew

/-- An entry that is not lexical stays until a cheaper one comes. -/
theorem UnarySteps.eq_of_le (hold : old[a]? = some e) (hlex : e.step ≠ .lexical) (hnew : new[a]? = some e')
    (hle : e.cost ≤ e'.cost) : e' = e := by
  induction h generalizing e' with
  | refl =>
    rw [hold] at hnew
    exact (Option.some.inj hnew).symm
  | tail hsteps hlast ih =>
    obtain ⟨mid, hmid, -⟩ := UnarySteps.lowered hsteps a e hold
    have hmid_le : e'.cost ≤ mid.cost := (hlast.lowered a mid hmid).cost_le hnew
    obtain rfl := ih hmid (hle.trans hmid_le)
    obtain ⟨-, -, htakes⟩ := hlast
    rw [getElem?_insert_eq] at hnew
    split at hnew
    · rename_i hparent
      cases hnew; subst hparent
      rcases takesUnary_iff.1 htakes with hlt | ⟨hlexical, -⟩
      · exact absurd (hlt mid hmid) (not_lt.2 hle)
      · rw [hmid] at hlexical
        cases hlexical
        exact absurd rfl hlex
    · rw [hmid] at hnew
      exact (Option.some.inj hnew).symm

end Entries

end Cell

/-! ## Passes -/

namespace Pass

open Cell

variable [LinearOrder κ] [Add κ]

/-- Following an edge makes a unary step where the cell takes one, and changes nothing otherwise. -/
theorem follow_cases (p : Pass κ) (edge : UnaryEdge κ) :
    (p.follow edge = p ∧ ∀ child, p.cell[edge.child]? = some child →
      p.cell.takesUnary edge.parent edge.child (child.cost + edge.cost) = false) ∨
    ∃ child, p.cell[edge.child]? = some child ∧
      p.cell.takesUnary edge.parent edge.child (child.cost + edge.cost) = true ∧
      p.follow edge = ⟨p.cell.insert edge.parent ⟨child.cost + edge.cost, .unary edge.child⟩, true⟩ := by
  unfold follow
  cases hchild : p.cell[edge.child]? with
  | none => exact .inl ⟨rfl, by simp⟩
  | some child =>
    cases htakes : p.cell.takesUnary edge.parent edge.child (child.cost + edge.cost) with
    | false => exact .inl ⟨by simp [htakes], by rintro _ ⟨rfl⟩; exact htakes⟩
    | true => exact .inr ⟨child, rfl, htakes, by simp [htakes]⟩

variable {g : Grammar ρ κ}

theorem follow_steps {k : Nat} {edge : UnaryEdge κ} (he : edge ∈ g.unaryEdges.get k) (p : Pass κ) :
    UnarySteps g p.cell (p.follow edge).cell := by
  rcases p.follow_cases edge with ⟨h, -⟩ | ⟨child, hchild, htakes, h⟩
  · rw [h]
  · rw [h]
    exact .single (.enter he hchild htakes)

theorem foldl_follow_steps : ∀ (edges : List (UnaryEdge κ)) (p : Pass κ),
    (∀ edge ∈ edges, ∃ k, edge ∈ g.unaryEdges.get k) → UnarySteps g p.cell (edges.foldl follow p).cell
  | [], _, _ => .refl
  | edge :: edges, p, h => by
    obtain ⟨k, he⟩ := h edge (List.mem_cons_self ..)
    exact (follow_steps he p).trans
      (foldl_follow_steps edges (p.follow edge) fun e he => h e (List.mem_cons_of_mem _ he))

/-- A pass that reports a change has made a step. -/
theorem foldl_follow_changed : ∀ (edges : List (UnaryEdge κ)) (p : Pass κ),
    (∀ edge ∈ edges, ∃ k, edge ∈ g.unaryEdges.get k) → p.changed = false →
    (edges.foldl follow p).changed = true →
    ∃ cell, UnaryStep g p.cell cell ∧ UnarySteps g cell (edges.foldl follow p).cell
  | [], p, _, h0, h1 => by
    rw [List.foldl_nil, h0] at h1; cases h1
  | edge :: edges, p, h, h0, h1 => by
    have hrest : ∀ e ∈ edges, ∃ k, e ∈ g.unaryEdges.get k := fun e he => h e (List.mem_cons_of_mem _ he)
    rw [List.foldl_cons] at h1 ⊢
    rcases p.follow_cases edge with ⟨hf, -⟩ | ⟨child, hchild, htakes, hf⟩
    · rw [hf] at h1 ⊢
      exact foldl_follow_changed edges p hrest h0 h1
    · obtain ⟨k, he⟩ := h edge (List.mem_cons_self ..)
      rw [hf]
      exact ⟨_, .enter he hchild htakes, foldl_follow_steps edges ⟨_, true⟩ hrest⟩

/-- A pass that reports no change has left the cell as it was, and takes none of its edges. -/
theorem foldl_follow_unchanged : ∀ (edges : List (UnaryEdge κ)) (p : Pass κ),
    (edges.foldl follow p).changed = false → edges.foldl follow p = p ∧
      ∀ edge ∈ edges, ∀ child, p.cell[edge.child]? = some child →
        p.cell.takesUnary edge.parent edge.child (child.cost + edge.cost) = false
  | [], _, _ => ⟨rfl, by simp⟩
  | edge :: edges, p, h => by
    rw [List.foldl_cons] at h ⊢
    obtain ⟨hfold, hall⟩ := foldl_follow_unchanged edges (p.follow edge) h
    rcases p.follow_cases edge with ⟨hf, hno⟩ | ⟨child, -, -, hf⟩
    · rw [hf] at hfold hall ⊢
      exact ⟨hfold, List.forall_mem_cons.2 ⟨hno, hall⟩⟩
    · rw [hfold, hf] at h; cases h

/-- The moment of a pass at which one of its edges is followed. -/
theorem exists_moment {edges : List (UnaryEdge κ)} {p : Pass κ}
    (h : ∀ edge ∈ edges, ∃ k, edge ∈ g.unaryEdges.get k) {edge : UnaryEdge κ} (he : edge ∈ edges) :
    ∃ q : Pass κ, UnarySteps g p.cell q.cell ∧ UnarySteps g (q.follow edge).cell (edges.foldl follow p).cell := by
  obtain ⟨before, after, rfl⟩ := List.append_of_mem he
  rw [List.foldl_append, List.foldl_cons]
  exact ⟨before.foldl follow p, foldl_follow_steps before p fun e he => h e (by simp [he]),
    foldl_follow_steps after _ fun e he => h e (by simp [he])⟩

/-- After a pass the parent of an edge costs at most the step from its child. -/
theorem foldl_follow_within [AddLeftMono κ] [AddRightMono κ] {edges : List (UnaryEdge κ)} {p : Pass κ}
    (h : ∀ edge ∈ edges, ∃ k, edge ∈ g.unaryEdges.get k) {edge : UnaryEdge κ} (he : edge ∈ edges) {c : κ}
    (hchild : p.cell.HasWithin edge.child c) :
    (edges.foldl follow p).cell.HasWithin edge.parent (c + edge.cost) := by
  obtain ⟨q, hbefore, hafter⟩ := exists_moment h (p := p) he
  obtain ⟨child, hchild, hle⟩ := hchild.lowered hbefore.lowered
  suffices hparent : (q.follow edge).cell.HasWithin edge.parent (child.cost + edge.cost) from
    (hparent.lowered hafter.lowered).weaken (add_le_add hle le_rfl)
  rcases q.follow_cases edge with ⟨hf, hno⟩ | ⟨child', hchild', -, hf⟩
  · rw [hf]
    exact hasWithin_of_not_takesUnary (hno child hchild)
  · rw [hf]
    rw [hchild] at hchild'
    cases hchild'
    exact ⟨_, by rw [getElem?_insert_eq, if_pos rfl], le_rfl⟩

/-- A pass over an edge leaves a lexical entry of its parent only where the step from the child was not taken. -/
theorem exists_not_takesUnary {edges : List (UnaryEdge κ)} {p : Pass κ}
    (h : ∀ edge ∈ edges, ∃ k, edge ∈ g.unaryEdges.get k) {edge : UnaryEdge κ} (he : edge ∈ edges) {c : κ}
    (hlex : (edges.foldl follow p).cell[edge.parent]? = some ⟨c, .lexical⟩) :
    ∃ mid, UnarySteps g p.cell mid ∧ UnarySteps g mid (edges.foldl follow p).cell ∧
      ∀ child, mid[edge.child]? = some child →
        mid.takesUnary edge.parent edge.child (child.cost + edge.cost) = false := by
  obtain ⟨q, hbefore, hafter⟩ := exists_moment h (p := p) he
  rcases q.follow_cases edge with ⟨hf, hno⟩ | ⟨child, -, -, hf⟩
  · rw [hf] at hafter
    exact ⟨q.cell, hbefore, hafter, hno⟩
  · -- a step that was taken would have stayed
    have hold := hafter.of_step_ne hlex (by simp)
    rw [hf, getElem?_insert_eq, if_pos rfl] at hold
    cases hold

end Pass

end Constituency
