/-
The closure of a cell is closed: after as many passes as there are parents of unary edges, and often sooner, a further
pass changes nothing (`pass_unchanged`), and the closure stops at the first such pass (`exists_closesAfter`). So no
unary edge of a closed cell leads to a cheaper parent (`close_within`).

A `Climb` is a chain of unary edges upwards from an entry of the cell that is being closed. Every cost that comes up
belongs to a climb, and a climb that meets a symbol twice can be cut short at no higher a cost, so that after as many
passes as there are parents all costs are final. If a lexical entry is still there by then, a pass less was enough: a
climb over all parents can start from that entry instead. And once costs are final, what a pass could put in the place
of a lexical entry, the pass before it could have put there already.
-/
import Constituency.Proofs.Chart.Pass
import Mathlib.Data.Finset.Card

namespace Constituency

namespace Cell

variable {ρ κ : Type} [LinearOrder κ] [Add κ] {g : Grammar ρ κ}

/-! ## Passes in a row -/

def afterPasses (g : Grammar ρ κ) (cell : Cell κ) : Nat → Cell κ
  | 0 => cell
  | n + 1 => ((afterPasses g cell n).pass g).cell

theorem afterPasses_succ' (cell : Cell κ) (n : Nat) :
    afterPasses g cell (n + 1) = afterPasses g (cell.pass g).cell n := by
  induction n with
  | zero => rfl
  | succ n ih => rw [afterPasses, ih, afterPasses]

omit [LinearOrder κ] [Add κ] in
theorem mem_unaryEdges_iff {cell : Cell κ} {edge : UnaryEdge κ} :
    edge ∈ cell.unaryEdges g ↔ ∃ k ∈ cell, edge ∈ g.unaryEdges.get k := by
  simp [unaryEdges, List.mem_flatMap]

omit [LinearOrder κ] [Add κ] in
theorem exists_of_mem_unaryEdges (cell : Cell κ) :
    ∀ edge ∈ cell.unaryEdges g, ∃ k, edge ∈ g.unaryEdges.get k := by
  intro edge he
  obtain ⟨k, -, hk⟩ := mem_unaryEdges_iff.1 he
  exact ⟨k, hk⟩

theorem pass_steps (cell : Cell κ) : UnarySteps g cell (cell.pass g).cell :=
  Pass.foldl_follow_steps _ ⟨cell, false⟩ cell.exists_of_mem_unaryEdges

theorem afterPasses_steps (cell : Cell κ) (n : Nat) : UnarySteps g cell (afterPasses g cell n) := by
  induction n with
  | zero => exact .refl
  | succ n ih => exact ih.trans (pass_steps _)

theorem closeWithin_eq (limit : Nat) (cell : Cell κ) :
    (cell.closeWithin g limit).cell = afterPasses g cell (cell.closeWithin g limit).passes := by
  induction limit generalizing cell with
  | zero => rfl
  | succ limit ih =>
    rw [closeWithin]
    split
    · rfl
    · rename_i cell' hpass
      simp only
      rw [ih, afterPasses_succ', hpass]

theorem close_eq (cell : Cell κ) : (cell.close g).cell = afterPasses g cell (cell.close g).passes :=
  closeWithin_eq _ cell

theorem close_steps (cell : Cell κ) : UnarySteps g cell (cell.close g).cell := by
  rw [close_eq]; exact afterPasses_steps cell _

/-! ## Climbs -/

/-- A chain of unary edges up to a symbol from an entry of the cell: the symbols below, from the top down, and
the cost at which it arrives. -/
inductive Climb (g : Grammar ρ κ) (cell : Cell κ) : Nat → List Nat → κ → Prop
  | start {a : Nat} {e : Entry κ} : cell[a]? = some e → Climb g cell a [] e.cost
  | step {k : Nat} {edge : UnaryEdge κ} {path : List Nat} {c : κ} : edge ∈ g.unaryEdges.get k →
      Climb g cell edge.child path c → Climb g cell edge.parent (edge.child :: path) (c + edge.cost)

/-- Every entry that unary steps lead to is at the end of a climb. -/
theorem exists_climb {old new : Cell κ} (h : UnarySteps g old new) :
    ∀ (a : Nat) (e : Entry κ), new[a]? = some e → ∃ path, Climb g old a path e.cost := by
  induction h with
  | refl => exact fun a e he => ⟨[], .start he⟩
  | tail _ hstep ih =>
    obtain ⟨hedge, hchild, -⟩ := hstep
    intro a e he
    rw [getElem?_insert_eq] at he
    split at he
    · rename_i hparent
      obtain ⟨path, hpath⟩ := ih _ _ hchild
      cases he; subst hparent
      exact ⟨_, .step hedge hpath⟩
    · exact ih a e he

/-- A climb over a symbol contains one to that symbol, which costs no more. -/
theorem Climb.cut (hg : g.Indexed) {cell : Cell κ} {a b : Nat} {path : List Nat} {c : κ}
    (h : Climb g cell a path c) (hnd : (a :: path).Nodup) (hb : b ∈ a :: path) :
    ∃ path' c', Climb g cell b path' c' ∧ c' ≤ c ∧ (b :: path').Nodup := by
  induction h with
  | start he =>
    obtain rfl := List.mem_singleton.1 hb
    exact ⟨[], _, .start he, le_rfl, hnd⟩
  | step hedge hpath ih =>
    rcases List.mem_cons.1 hb with rfl | hb
    · exact ⟨_, _, .step hedge hpath, le_rfl, hnd⟩
    · obtain ⟨path', c', hclimb, hle, hnd'⟩ := ih (List.nodup_cons.1 hnd).2 hb
      exact ⟨path', c', hclimb, hle.trans (hg.le_add hedge _), hnd'⟩

def ParentsIn (g : Grammar ρ κ) (parents : Finset Nat) : Prop :=
  ∀ (k : Nat) (edge : UnaryEdge κ), edge ∈ g.unaryEdges.get k → edge.parent ∈ parents

omit [LinearOrder κ] in
/-- All symbols of a climb but the one that it starts from are parents. -/
theorem Climb.mem_parents {parents : Finset Nat} (hp : ParentsIn g parents) {cell : Cell κ} {a : Nat}
    {path : List Nat} {c : κ} (h : Climb g cell a path c) : ∀ b ∈ (a :: path).dropLast, b ∈ parents := by
  induction h with
  | start _ => simp
  | step hedge _ ih =>
    intro b hb
    rw [List.dropLast_cons_of_ne_nil (List.cons_ne_nil _ _)] at hb
    rcases List.mem_cons.1 hb with rfl | hb
    · exact hp _ _ hedge
    · exact ih b hb

theorem card_dropLast {a : Nat} {path : List Nat} (hnd : (a :: path).Nodup) :
    (a :: path).dropLast.toFinset.card = path.length := by
  rw [List.toFinset_card_of_nodup (hnd.sublist (List.dropLast_sublist _))]
  simp

omit [LinearOrder κ] in
theorem Climb.length_le {parents : Finset Nat} (hp : ParentsIn g parents) {cell : Cell κ} {a : Nat}
    {path : List Nat} {c : κ} (h : Climb g cell a path c) (hnd : (a :: path).Nodup) :
    path.length ≤ parents.card := by
  rw [← card_dropLast hnd]
  exact Finset.card_le_card fun b hb => h.mem_parents hp b (List.mem_toFinset.1 hb)

omit [LinearOrder κ] in
/-- A climb that is as long as there are parents meets them all above its start. -/
theorem Climb.mem_dropLast {parents : Finset Nat} (hp : ParentsIn g parents) {cell : Cell κ} {a b : Nat}
    {path : List Nat} {c : κ} (h : Climb g cell a path c) (hnd : (a :: path).Nodup)
    (hlength : parents.card ≤ path.length) (hb : b ∈ parents) : b ∈ (a :: path).dropLast := by
  have hsub : (a :: path).dropLast.toFinset ⊆ parents := fun x hx => h.mem_parents hp x (List.mem_toFinset.1 hx)
  rw [← card_dropLast hnd] at hlength
  rwa [← Finset.eq_of_subset_of_card_le hsub hlength, List.mem_toFinset] at hb

/-! ## Costs settle -/

variable [AddLeftMono κ] [AddRightMono κ]

theorem pass_within (hg : g.Indexed) {cell : Cell κ} {k : Nat} {edge : UnaryEdge κ} {c : κ}
    (he : edge ∈ g.unaryEdges.get k) (h : cell.HasWithin edge.child c) :
    (cell.pass g).cell.HasWithin edge.parent (c + edge.cost) := by
  obtain ⟨child, hchild, -⟩ := id h
  have hmem : edge ∈ cell.unaryEdges g :=
    mem_unaryEdges_iff.2 ⟨k, hg.child_eq he ▸ mem_iff_exists.2 ⟨child, hchild⟩, he⟩
  exact Pass.foldl_follow_within (p := ⟨cell, false⟩) cell.exists_of_mem_unaryEdges hmem h

/-- After as many passes as a climb has edges the cell has its symbol at its cost. -/
theorem Climb.within (hg : g.Indexed) {cell : Cell κ} {a : Nat} {path : List Nat} {c : κ}
    (h : Climb g cell a path c) : ∀ n, path.length ≤ n → (afterPasses g cell n).HasWithin a c := by
  induction h with
  | start he =>
    intro n _
    exact (afterPasses_steps _ n).lowered _ _ he
  | step hedge _ ih =>
    intro n hn
    obtain ⟨n, rfl⟩ : ∃ m, n = m + 1 := ⟨n - 1, by simp at hn; omega⟩
    exact pass_within hg hedge (ih n (by simpa using hn))

/-- Some climb to the same symbol repeats none and costs no more. -/
theorem Climb.shorten (hg : g.Indexed) {cell : Cell κ} {a : Nat} {path : List Nat} {c : κ}
    (h : Climb g cell a path c) : ∃ path' c', Climb g cell a path' c' ∧ c' ≤ c ∧ (a :: path').Nodup := by
  induction h with
  | start he => exact ⟨[], _, .start he, le_rfl, List.nodup_singleton _⟩
  | @step k edge path c hedge _ ih =>
    obtain ⟨path', c', hclimb, hle, hnd⟩ := ih
    -- a climb back to a symbol on the path is cut down to where it was first there
    by_cases hmem : edge.parent ∈ edge.child :: path'
    · obtain ⟨path'', c'', hclimb', hle', hnd'⟩ := hclimb.cut hg hnd hmem
      exact ⟨path'', c'', hclimb', (hle'.trans hle).trans (hg.le_add hedge c), hnd'⟩
    · exact ⟨_, _, .step hedge hclimb, add_le_add hle le_rfl, List.nodup_cons.2 ⟨hmem, hnd⟩⟩

/-- After as many passes as there are parents of unary edges a symbol costs no more than any climb to it. -/
theorem Climb.within_card (hg : g.Indexed) {parents : Finset Nat} (hp : ParentsIn g parents) {cell : Cell κ} {n : Nat}
    (hn : parents.card ≤ n) {a : Nat} {path : List Nat} {c : κ} (h : Climb g cell a path c) :
    (afterPasses g cell n).HasWithin a c := by
  obtain ⟨path', c', hclimb, hle, hnd⟩ := h.shorten hg
  exact (hclimb.within hg n ((hclimb.length_le hp hnd).trans hn)).weaken hle

/-- When there were as many passes as there are parents of unary edges, no further steps lower a cost. -/
theorem settled (hg : g.Indexed) {parents : Finset Nat} (hp : ParentsIn g parents) {cell new : Cell κ} {n : Nat}
    (hn : parents.card ≤ n) (h : UnarySteps g (afterPasses g cell n) new) {a : Nat} {e : Entry κ}
    (he : new[a]? = some e) : (afterPasses g cell n).HasWithin a e.cost := by
  obtain ⟨path, hpath⟩ := exists_climb ((afterPasses_steps cell n).trans h) a e he
  exact hpath.within_card hg hp hn

/-! ## Lexical entries that are left -/

/-- A climb over a symbol whose own entry costs no more than any climb to it can start from that entry. -/
theorem Climb.shortcut {cell : Cell κ} {a b : Nat} {path : List Nat} {c : κ} {e : Entry κ}
    (h : Climb g cell a path c) (he : cell[b]? = some e)
    (hleast : ∀ path' c', Climb g cell b path' c' → e.cost ≤ c') (hb : b ∈ (a :: path).dropLast) :
    ∃ path' c', Climb g cell a path' c' ∧ c' ≤ c ∧ path'.length < path.length := by
  induction h with
  | start => simp at hb
  | step hedge hpath ih =>
    rw [List.dropLast_cons_of_ne_nil (List.cons_ne_nil _ _)] at hb
    rcases List.mem_cons.1 hb with rfl | hb
    · exact ⟨[], _, .start he, hleast _ _ (.step hedge hpath), by simp⟩
    · obtain ⟨path', c', hclimb, hle, hlt⟩ := ih hb
      exact ⟨_, _, .step hedge hclimb, add_le_add hle le_rfl, by simpa using hlt⟩

/-- Where a lexical entry of a parent is left after as many passes as there are parents, the costs were final one pass
before. -/
theorem settled_of_lexical (hg : g.Indexed) {parents : Finset Nat} (hp : ParentsIn g parents) {cell : Cell κ}
    {n b : Nat} {c : κ} (hn : parents.card ≤ n + 1) (hb : b ∈ parents)
    (hlex : (afterPasses g cell (n + 1))[b]? = some ⟨c, .lexical⟩) {a : Nat} {e : Entry κ}
    (he : (afterPasses g cell (n + 1))[a]? = some e) : (afterPasses g cell n).HasWithin a e.cost := by
  have hsteps := afterPasses_steps (g := g) cell (n + 1)
  obtain ⟨path, hpath⟩ := exists_climb hsteps a e he
  obtain ⟨path', c', hclimb, hle, hnd⟩ := hpath.shorten hg
  by_cases hlength : path'.length ≤ n
  · exact (hclimb.within hg n hlength).weaken hle
  · -- the climb meets all parents, so that it can start from the entry that is left
    have hleast (path'' : List Nat) (c'' : κ) (h : Climb g cell b path'' c'') : c ≤ c'' :=
      (h.within_card hg hp hn).cost_le hlex
    have hmem := hclimb.mem_dropLast hp hnd (by omega) hb
    obtain ⟨short, d, hshort, hd, hlt⟩ := hclimb.shortcut (hsteps.of_step_ne hlex (by simp)) hleast hmem
    have hlength' := hclimb.length_le hp hnd
    exact (hshort.within hg n (by omega)).weaken (hd.trans hle)

section Reaches

variable {old new : Cell κ}

omit [Add κ] [AddLeftMono κ] [AddRightMono κ] [LinearOrder κ] in
theorem leadsTo_mono (h : ∀ (x child : Nat) (c : κ), old[x]? = some ⟨c, .unary child⟩ →
    new[x]? = some ⟨c, .unary child⟩) {target : Nat} :
    ∀ {n a : Nat}, old.leadsTo target n a = true → new.leadsTo target n a = true
  | 0, _, _ => rfl
  | n + 1, a, hold => by
    rw [leadsTo, Bool.or_eq_true] at hold ⊢
    refine hold.imp_right fun hold => ?_
    split at hold
    · rename_i c child he
      rw [h a child c he]
      exact leadsTo_mono h hold
    · cases hold

omit [AddLeftMono κ] [AddRightMono κ] in
/-- While no cost is lowered, a chain leads where it led before. -/
theorem reaches_of_steps (h : UnarySteps g old new)
    (hcost : ∀ (x : Nat) (e : Entry κ), new[x]? = some e → old.HasWithin x e.cost) {a target : Nat}
    (hold : old.reaches a target = true) : new.reaches a target = true := by
  have hkeys : old.keys.Perm new.keys := by
    rw [List.perm_ext_iff_of_nodup Std.TreeMap.nodup_keys Std.TreeMap.nodup_keys]
    intro x
    rw [Std.TreeMap.mem_keys, Std.TreeMap.mem_keys, mem_iff_exists, mem_iff_exists]
    constructor
    · rintro ⟨e, he⟩
      exact (h.lowered x e he).imp fun _ hnew => hnew.1
    · rintro ⟨e, he⟩
      exact (hcost x e he).imp fun _ hold => hold.1
  have hsize : old.size = new.size := by
    rw [← Std.TreeMap.length_keys, hkeys.length_eq, Std.TreeMap.length_keys]
  rw [reaches, hsize] at hold
  refine leadsTo_mono (fun x child c hx => ?_) hold
  obtain ⟨e, he, -⟩ := h.lowered x _ hx
  rw [he, h.eq_of_le hx (by simp) he ((hcost x e he).cost_le hx)]

end Reaches

/-! ## The last pass -/

/-- After as many passes as there are parents of unary edges a further pass changes nothing. -/
theorem pass_unchanged (hg : g.Indexed) {parents : Finset Nat} (hp : ParentsIn g parents) (cell : Cell κ) {n : Nat}
    (hn : parents.card ≤ n) : ((afterPasses g cell n).pass g).changed = false := by
  by_contra hchanged
  obtain ⟨new, hstep, -⟩ := Pass.foldl_follow_changed _ ⟨afterPasses g cell n, false⟩ (exists_of_mem_unaryEdges _) rfl
    (Bool.of_not_eq_false hchanged)
  have hsettled := fun a e => settled hg hp hn (.single hstep) (a := a) (e := e)
  obtain ⟨hedge, hchild, htakes⟩ := hstep
  rename_i k edge child
  rcases takesUnary_iff.1 htakes with hlt | ⟨hlex, hreach⟩
  · -- no cost is lowered any more
    obtain ⟨e, he, hle⟩ := hsettled _ _ (by rw [getElem?_insert_eq, if_pos rfl])
    exact absurd (hlt e he) (not_lt.2 hle)
  · -- the step takes the place of a lexical entry, which the pass before has looked at, too
    have hparent := hp _ _ hedge
    obtain ⟨n, rfl⟩ : ∃ m, n = m + 1 := ⟨n - 1, by have := Finset.card_pos.2 ⟨_, hparent⟩; omega⟩
    have hbefore (x : Nat) (e : Entry κ) := settled_of_lexical hg hp hn hparent hlex (a := x) (e := e)
    have hmem : edge ∈ (afterPasses g cell n).unaryEdges g := by
      obtain ⟨e, he, -⟩ := hbefore _ _ hchild
      exact mem_unaryEdges_iff.2 ⟨k, hg.child_eq hedge ▸ mem_iff_exists.2 ⟨e, he⟩, hedge⟩
    obtain ⟨mid, hto, hfrom, hno⟩ := Pass.exists_not_takesUnary (p := ⟨afterPasses g cell n, false⟩)
      (exists_of_mem_unaryEdges _) hmem hlex
    have hcost (x : Nat) (e : Entry κ) (he : (afterPasses g cell (n + 1))[x]? = some e) : mid.HasWithin x e.cost :=
      (hbefore x e he).lowered hto.lowered
    -- by then the child had its cost, so that only its chain can have stood in the way
    obtain ⟨child', hchild', hle⟩ := hcost _ _ hchild
    have hsame : child'.cost = child.cost := le_antisymm hle ((hfrom.lowered _ _ hchild').cost_le hchild)
    have hreach' : mid.reaches edge.child edge.parent = true := by
      by_contra hnot
      have htakes' := takesUnary_iff.2 (.inr ⟨hfrom.of_step_ne hlex (by simp), Bool.eq_false_iff.2 hnot⟩)
      rw [← hsame, hno child' hchild'] at htakes'
      cases htakes'
    exact absurd (reaches_of_steps hfrom hcost hreach') (Bool.eq_false_iff.1 hreach)

omit [LinearOrder κ] [AddLeftMono κ] [AddRightMono κ] in
theorem parentsIn_range [LE κ] (hg : g.Indexed) : ParentsIn g (Finset.range g.numSymbols) :=
  fun _ _ he => Finset.mem_range.2 (hg.unary_lt he)

/-- The closure of a cell stops after the first passes, each of which changes it, at a pass that changes nothing. -/
structure ClosesAfter (g : Grammar ρ κ) (cell : Cell κ) (n : Nat) : Prop where
  changed : ∀ i < n, ((afterPasses g cell i).pass g).changed = true
  unchanged : ((afterPasses g cell n).pass g).changed = false
  close_eq : cell.close g = ⟨afterPasses g cell n, n⟩

omit [AddLeftMono κ] [AddRightMono κ] in
theorem closeWithin_of_changed : ∀ {n limit : Nat} {cell : Cell κ}, n < limit →
    (∀ i < n, ((afterPasses g cell i).pass g).changed = true) →
    ((afterPasses g cell n).pass g).changed = false → cell.closeWithin g limit = ⟨afterPasses g cell n, n⟩
  | 0, limit + 1, cell, _, _, hlast => by
    rw [closeWithin]
    split
    · rfl
    · rename_i hpass
      rw [afterPasses, hpass] at hlast
      cases hlast
  | n + 1, limit + 1, cell, hn, hfirst, hlast => by
    rw [closeWithin]
    split
    · rename_i hpass
      have hchanged := hfirst 0 n.succ_pos
      rw [afterPasses, hpass] at hchanged
      cases hchanged
    · rename_i cell' hpass
      have hnext (i : Nat) : afterPasses g cell (i + 1) = afterPasses g cell' i := by
        rw [afterPasses_succ', hpass]
      rw [hnext] at hlast
      rw [closeWithin_of_changed (Nat.lt_of_succ_lt_succ hn)
        (fun i hi => hnext i ▸ hfirst (i + 1) (Nat.succ_lt_succ hi)) hlast, hnext]

theorem exists_closesAfter (hg : g.Indexed) (cell : Cell κ) : ∃ n, ClosesAfter g cell n := by
  classical
  have hsome : ∃ n, ((afterPasses g cell n).pass g).changed = false :=
    ⟨_, pass_unchanged hg (parentsIn_range hg) cell le_rfl⟩
  have hchanged : ∀ i < Nat.find hsome, ((afterPasses g cell i).pass g).changed = true :=
    fun i hi => Bool.of_not_eq_false (Nat.find_min hsome hi)
  have hle : Nat.find hsome ≤ g.numSymbols := by
    have h := pass_unchanged hg (parentsIn_range hg) cell le_rfl
    rw [Finset.card_range] at h
    exact Nat.find_min' hsome h
  refine ⟨Nat.find hsome, hchanged, Nat.find_spec hsome, ?_⟩
  refine closeWithin_of_changed ?_ hchanged (Nat.find_spec hsome)
  unfold passLimit
  nlinarith

/-- The closure takes no more passes than there are parents of unary edges. -/
theorem ClosesAfter.le_card (hg : g.Indexed) {parents : Finset Nat} (hp : ParentsIn g parents) {cell : Cell κ} {n : Nat}
    (h : ClosesAfter g cell n) : n ≤ parents.card := by
  by_contra hlt
  have hchanged := h.changed parents.card (by omega)
  rw [pass_unchanged hg hp cell le_rfl] at hchanged
  cases hchanged

/-- The closure of a cell is closed: a further pass changes nothing. -/
theorem close_unchanged (hg : g.Indexed) (cell : Cell κ) : ((cell.close g).cell.pass g).changed = false := by
  obtain ⟨n, h⟩ := exists_closesAfter hg cell
  rw [h.close_eq]
  exact h.unchanged

/-- No unary edge of a closed cell is taken any more. -/
theorem close_not_takesUnary (hg : g.Indexed) {cell : Cell κ} {k : Nat} {edge : UnaryEdge κ} {child : Entry κ}
    (he : edge ∈ g.unaryEdges.get k) (hchild : (cell.close g).cell[edge.child]? = some child) :
    (cell.close g).cell.takesUnary edge.parent edge.child (child.cost + edge.cost) = false := by
  have hmem : edge ∈ (cell.close g).cell.unaryEdges g :=
    mem_unaryEdges_iff.2 ⟨k, hg.child_eq he ▸ mem_iff_exists.2 ⟨child, hchild⟩, he⟩
  exact (Pass.foldl_follow_unchanged _ ⟨(cell.close g).cell, false⟩ (close_unchanged hg cell)).2 edge hmem child hchild

/-- No unary edge of a closed cell leads to a cheaper parent. -/
theorem close_within (hg : g.Indexed) {cell : Cell κ} {k : Nat} {edge : UnaryEdge κ} {c : κ}
    (he : edge ∈ g.unaryEdges.get k) (h : (cell.close g).cell.HasWithin edge.child c) :
    (cell.close g).cell.HasWithin edge.parent (c + edge.cost) := by
  obtain ⟨child, hchild, hle⟩ := h
  exact (hasWithin_of_not_takesUnary (close_not_takesUnary hg he hchild)).weaken (add_le_add hle le_rfl)

end Cell

end Constituency
