/-
Charts do not depend on the order in which rules are given. Another order moves only edges with the same ends, and of
two edges with the same ends the cheaper one decides, whichever comes first: this holds of a unary edge, which may also
take the place of a lexical entry (`Pass.follow_comm`), and of a combination (`Cell.offer_comm`). So the cells of both
charts are equal as maps after every pass, the passes change something at the same time, and the charts are alike
(`alike_levelsUpTo`), from which the same derivations are read off.
-/
import Constituency.Proofs.Chart.Fill
import Constituency.Proofs.Chart.Optimal
import Constituency.Proofs.Grammar.Order

namespace Constituency

variable {ρ κ : Type}

namespace Cell

/-! ## Cells as maps -/

theorem equiv_insert_insert (cell : Cell κ) (a : Nat) (e f : Entry κ) :
    ((cell.insert a e).insert a f).Equiv (cell.insert a f) := by
  refine .of_forall_constGet?_eq fun b => ?_
  rw [getElem?_insert_eq, getElem?_insert_eq, getElem?_insert_eq]
  split <;> rfl

theorem leadsTo_congr {c d : Cell κ} (h : c.Equiv d) (target : Nat) : ∀ (n a : Nat),
    c.leadsTo target n a = d.leadsTo target n a
  | 0, _ => rfl
  | n + 1, a => by
    rw [leadsTo, leadsTo, h.getElem?_eq]
    rcases d[a]? with _ | ⟨_, step⟩
    · rfl
    · cases step with
      | unary child => simp only [leadsTo_congr h target n child]
      | lexical | binary => rfl

theorem reaches_congr {c d : Cell κ} (h : c.Equiv d) (a b : Nat) : c.reaches a b = d.reaches a b := by
  rw [reaches, reaches, h.size_eq, leadsTo_congr h]

theorem reaches_self (cell : Cell κ) (a : Nat) : cell.reaches a a = true := by
  simp [reaches, leadsTo]

variable [LinearOrder κ]

theorem takesUnary_congr {c d : Cell κ} (h : c.Equiv d) (parent child : Nat) (cost : κ) :
    c.takesUnary parent child cost = d.takesUnary parent child cost := by
  unfold takesUnary replacesLexical
  rw [h.getElem?_eq, reaches_congr h]

/-- No unary step from a symbol to itself is taken. -/
theorem takesUnary_self [Add κ] {cell : Cell κ} {a : Nat} {e : Entry κ} {w : κ} (he : cell[a]? = some e)
    (hw : e.cost ≤ e.cost + w) : cell.takesUnary a a (e.cost + w) = false := by
  by_contra htakes
  rcases takesUnary_iff.1 (Bool.of_not_eq_false htakes) with hlt | ⟨-, hreach⟩
  · exact absurd (hlt e he) (not_lt.2 hw)
  · rw [reaches_self] at hreach
    cases hreach

/-! ## Offers in either order -/

theorem offer_congr {c d : Cell κ} (h : c.Equiv d) (a : Nat) (e : Entry κ) : (c.offer a e).Equiv (d.offer a e) := by
  unfold offer
  rw [h.getElem?_eq]
  split
  · exact h.insert a e
  · exact h

theorem offer_eq_self {cell : Cell κ} {a : Nat} {e : Entry κ} (h : cell.HasWithin a e.cost) :
    cell.offer a e = cell := by
  rcases cell.offer_cases a e with ⟨heq, -⟩ | ⟨-, hlt⟩
  · exact heq
  · obtain ⟨old, hold, hle⟩ := h
    exact absurd (hlt old hold) (not_lt.2 hle)

theorem offer_eq_insert {cell : Cell κ} {a : Nat} {e : Entry κ}
    (h : ∀ old, cell[a]? = some old → e.cost < old.cost) : cell.offer a e = cell.insert a e := by
  rw [offer, if_pos (improves_iff.2 h)]

/-- Of two offers of one step the cheaper one decides. -/
theorem offer_offer_of_le (cell : Cell κ) (a : Nat) (step : Step) {x y : κ} (hle : x ≤ y) :
    (cell.offer a ⟨x, step⟩).offer a ⟨y, step⟩ = cell.offer a ⟨x, step⟩ ∧
      ((cell.offer a ⟨y, step⟩).offer a ⟨x, step⟩).Equiv (cell.offer a ⟨x, step⟩) := by
  refine ⟨offer_eq_self ((offer_within cell a ⟨x, step⟩).weaken hle), ?_⟩
  rcases hle.eq_or_lt with rfl | hxy
  · rw [offer_eq_self (offer_within cell a ⟨x, step⟩)]
  · rcases cell.offer_cases a ⟨y, step⟩ with ⟨heq, -⟩ | ⟨heq, hlt⟩
    · rw [heq]
    · -- the dearer offer was taken, and the cheaper one takes its place
      have hafter : ∀ old, (cell.insert a ⟨y, step⟩)[a]? = some old → x < old.cost := by
        intro old hold
        rw [getElem?_insert_eq, if_pos rfl] at hold
        cases hold
        exact hxy
      rw [heq, offer_eq_insert hafter, offer_eq_insert fun old hold => hxy.trans (hlt old hold)]
      exact equiv_insert_insert cell a _ _

/-- Offers of one step can be made in either order. -/
theorem offer_comm (cell : Cell κ) (a : Nat) (step : Step) (x y : κ) :
    ((cell.offer a ⟨x, step⟩).offer a ⟨y, step⟩).Equiv ((cell.offer a ⟨y, step⟩).offer a ⟨x, step⟩) := by
  rcases le_total x y with hle | hle
  · obtain ⟨heq, hequiv⟩ := offer_offer_of_le cell a step hle
    rw [heq]
    exact hequiv.symm
  · obtain ⟨heq, hequiv⟩ := offer_offer_of_le cell a step hle
    rw [heq]
    exact hequiv

end Cell

/-! ## Unary edges in either order -/

namespace Pass

/-- The passes have cells that are equal as maps and have both changed them or not. -/
structure Alike (p q : Pass κ) : Prop where
  cell : p.cell.Equiv q.cell
  changed : p.changed = q.changed

theorem Alike.refl (p : Pass κ) : p.Alike p := ⟨.rfl, rfl⟩

theorem Alike.symm {p q : Pass κ} (h : p.Alike q) : q.Alike p := ⟨h.cell.symm, h.changed.symm⟩

theorem Alike.trans {p q r : Pass κ} (h₁ : p.Alike q) (h₂ : q.Alike r) : p.Alike r :=
  ⟨h₁.cell.trans h₂.cell, h₁.changed.trans h₂.changed⟩

variable [LinearOrder κ]

/-- A pass with a unary step entered, if the cell takes it. -/
def take (p : Pass κ) (parent child : Nat) (cost : κ) : Pass κ :=
  if p.cell.takesUnary parent child cost then ⟨p.cell.insert parent ⟨cost, .unary child⟩, true⟩ else p

theorem take_congr {p q : Pass κ} (h : p.Alike q) (parent child : Nat) (cost : κ) :
    (p.take parent child cost).Alike (q.take parent child cost) := by
  unfold take
  rw [Cell.takesUnary_congr h.cell]
  split
  · exact ⟨h.cell.insert _ _, rfl⟩
  · exact h

theorem take_of_false {p : Pass κ} {parent child : Nat} {cost : κ}
    (h : p.cell.takesUnary parent child cost = false) : p.take parent child cost = p := by
  rw [take, h, if_neg Bool.false_ne_true]

theorem take_of_true {p : Pass κ} {parent child : Nat} {cost : κ} (h : p.cell.takesUnary parent child cost = true) :
    p.take parent child cost = ⟨p.cell.insert parent ⟨cost, .unary child⟩, true⟩ := by
  rw [take, h, if_pos rfl]

/-- Where a unary step stands, only a cheaper one is taken. -/
theorem takesUnary_insert_unary {cell : Cell κ} {parent child : Nat} {x y : κ} :
    Cell.takesUnary (cell.insert parent ⟨x, .unary child⟩) parent child y = true ↔ y < x := by
  rw [Cell.takesUnary_iff, Cell.getElem?_insert_eq, if_pos rfl]
  simp

/-- A step that is not cheaper than one that was not taken is not taken either. -/
theorem takesUnary_mono {cell : Cell κ} {parent child : Nat} {x y : κ} (hle : x ≤ y)
    (h : cell.takesUnary parent child x = false) : cell.takesUnary parent child y = false := by
  obtain ⟨e, he, hex⟩ := Cell.hasWithin_of_not_takesUnary h
  by_contra htakes
  rcases Cell.takesUnary_iff.1 (Bool.of_not_eq_false htakes) with hlt | ⟨hlex, hreach⟩
  · exact absurd (hlt e he) (not_lt.2 (hex.trans hle))
  · -- over a lexical entry the dearer step has its very cost, and so has the cheaper one
    rw [hlex] at he
    cases he
    obtain rfl := le_antisymm hle hex
    rw [Cell.takesUnary_iff.2 (.inr ⟨hlex, hreach⟩)] at h
    cases h

/-- Of two unary steps from one child the cheaper one decides. -/
theorem take_take_of_le (p : Pass κ) (parent child : Nat) {x y : κ} (hle : x ≤ y) :
    (p.take parent child x).take parent child y = p.take parent child x ∧
      ((p.take parent child y).take parent child x).Alike (p.take parent child x) := by
  have hlater : Cell.takesUnary (p.cell.insert parent ⟨x, .unary child⟩) parent child y = false :=
    Bool.eq_false_iff.2 fun h => absurd (takesUnary_insert_unary.1 h) (not_lt.2 hle)
  constructor
  · cases hx : p.cell.takesUnary parent child x with
    | true => rw [take_of_true hx, take_of_false hlater]
    | false => rw [take_of_false hx, take_of_false (takesUnary_mono hle hx)]
  · cases hy : p.cell.takesUnary parent child y with
    | false =>
      rw [take_of_false hy]
      exact .refl _
    | true =>
      rcases hle.eq_or_lt with rfl | hxy
      · rw [take_of_true hy, take_of_false hlater]
        exact .refl _
      · have hx : p.cell.takesUnary parent child x = true :=
          Cell.takesUnary_iff.2 (.inl fun e he => hxy.trans_le (Cell.le_of_takesUnary hy e he))
        rw [take_of_true hy, take_of_true hx, take_of_true (takesUnary_insert_unary.2 hxy)]
        exact ⟨Cell.equiv_insert_insert .., rfl⟩

theorem take_comm (p : Pass κ) (parent child : Nat) (x y : κ) :
    ((p.take parent child x).take parent child y).Alike ((p.take parent child y).take parent child x) := by
  rcases le_total x y with hle | hle
  · obtain ⟨heq, halike⟩ := take_take_of_le p parent child hle
    rw [heq]
    exact halike.symm
  · obtain ⟨heq, halike⟩ := take_take_of_le p parent child hle
    rw [heq]
    exact halike

/-- A step does not change the entries of other symbols than its parent. -/
theorem getElem?_take (p : Pass κ) {parent child b : Nat} (cost : κ) (h : parent ≠ b) :
    (p.take parent child cost).cell[b]? = p.cell[b]? := by
  unfold take
  split
  · rw [Cell.getElem?_insert_eq, if_neg h]
  · rfl

variable [Add κ]

theorem follow_of_none {p : Pass κ} {e : UnaryEdge κ} (h : p.cell[e.child]? = none) : p.follow e = p := by
  rw [follow, h]

theorem follow_of_some {p : Pass κ} {e : UnaryEdge κ} {child : Entry κ} (h : p.cell[e.child]? = some child) :
    p.follow e = p.take e.parent e.child (child.cost + e.cost) := by
  rw [follow, h]
  rfl

theorem follow_congr {p q : Pass κ} (h : p.Alike q) (e : UnaryEdge κ) : (p.follow e).Alike (q.follow e) := by
  have hlookup : p.cell[e.child]? = q.cell[e.child]? := h.cell.getElem?_eq
  cases hchild : q.cell[e.child]? with
  | none =>
    rw [follow_of_none hchild, follow_of_none (hlookup.trans hchild)]
    exact h
  | some child =>
    rw [follow_of_some hchild, follow_of_some (hlookup.trans hchild)]
    exact take_congr h _ _ _

theorem follow_loop {p : Pass κ} {e : UnaryEdge κ} (hloop : e.parent = e.child) (hle : ∀ c : κ, c ≤ c + e.cost) :
    p.follow e = p := by
  cases hchild : p.cell[e.child]? with
  | none => exact follow_of_none hchild
  | some child =>
    rw [follow_of_some hchild, hloop]
    exact take_of_false (Cell.takesUnary_self hchild (hle _))

/-- Two unary edges with the same ends can be followed in either order. -/
theorem follow_comm (p : Pass κ) {e f : UnaryEdge κ} (hends : e.ends = f.ends) (he : ∀ c : κ, c ≤ c + e.cost)
    (hf : ∀ c : κ, c ≤ c + f.cost) : ((p.follow e).follow f).Alike ((p.follow f).follow e) := by
  obtain ⟨hparent, hchild⟩ := Prod.mk.inj hends
  by_cases hloop : e.parent = e.child
  · -- an edge from a symbol to itself does nothing
    have hloop' : f.parent = f.child := hparent ▸ hchild ▸ hloop
    rw [follow_loop hloop he, follow_loop hloop' hf, follow_loop hloop he]
    exact .refl p
  · cases hentry : p.cell[e.child]? with
    | none =>
      have hentry' : p.cell[f.child]? = none := hchild ▸ hentry
      rw [follow_of_none hentry, follow_of_none hentry', follow_of_none hentry]
      exact .refl p
    | some child =>
      have hstays (cost : κ) : (p.take e.parent e.child cost).cell[e.child]? = some child :=
        (p.getElem?_take cost hloop).trans hentry
      have hfollow (q : Pass κ) (hq : q.cell[e.child]? = some child) :
          q.follow f = q.take e.parent e.child (child.cost + f.cost) := by
        rw [follow_of_some (hchild ▸ hq), hparent, hchild]
      rw [follow_of_some hentry, hfollow p hentry, hfollow _ (hstays _), follow_of_some (hstays _)]
      exact take_comm p _ _ _ _

end Pass

/-! ## Closures -/

/-- The closed cells are equal as maps and took as many passes. -/
structure Closed.Alike (c d : Closed κ) : Prop where
  cell : c.cell.Equiv d.cell
  passes : c.passes = d.passes

namespace Cell

variable [LinearOrder κ] [Add κ] {g g' : Grammar ρ κ}

theorem pass_alike (h : g.Alike g') (hg : g.Indexed) {c d : Cell κ} (hcd : c.Equiv d) :
    (c.pass g).Alike (d.pass g') := by
  have hedges : Reordered UnaryEdge.ends (c.unaryEdges g) (d.unaryEdges g') := by
    rw [unaryEdges, unaryEdges, hcd.keys_eq]
    exact .flatMap _ fun k _ => h.unaryEdges k
  have hle : ∀ e ∈ c.unaryEdges g, ∀ w : κ, w ≤ w + e.cost := by
    intro e he
    obtain ⟨k, hk⟩ := exists_of_mem_unaryEdges c e he
    exact hg.le_add hk
  exact hedges.foldl Pass.Alike.refl (fun _ _ _ => Pass.Alike.trans) (fun _ _ e hpq => Pass.follow_congr hpq e)
    (fun p e he f hf hends => p.follow_comm hends (hle e he) (hle f hf)) _ _ ⟨hcd, rfl⟩

theorem closeWithin_alike (h : g.Alike g') (hg : g.Indexed) : ∀ (limit : Nat) {c d : Cell κ}, c.Equiv d →
    (c.closeWithin g limit).Alike (d.closeWithin g' limit)
  | 0, _, _, hcd => ⟨hcd, rfl⟩
  | limit + 1, c, d, hcd => by
    have hpass := pass_alike h hg hcd
    rw [closeWithin, closeWithin]
    generalize c.pass g = p, d.pass g' = q at hpass ⊢
    obtain ⟨c', changed⟩ := p
    obtain ⟨d', changed'⟩ := q
    obtain ⟨hcell, hchanged⟩ := hpass
    obtain rfl : changed = changed' := hchanged
    cases changed with
    | false => exact ⟨hcd, rfl⟩
    | true =>
      obtain ⟨hclosed, hpasses⟩ := closeWithin_alike h hg limit hcell
      exact ⟨hclosed, congrArg (· + 1) hpasses⟩

theorem close_alike (h : g.Alike g') (hg : g.Indexed) {c d : Cell κ} (hcd : c.Equiv d) :
    (c.close g).Alike (d.close g') := by
  have hlimit : passLimit g = passLimit g' := by
    rw [passLimit, passLimit, Grammar.numSymbols, Grammar.numSymbols, h.symbols]
  rw [close, close, hlimit]
  exact closeWithin_alike h hg _ hcd

end Cell

/-! ## Levels -/

section Levels

/-- The levels have cells that are equal as maps and took as many passes. -/
structure LevelsAlike (levels levels' : Array (Array (Closed κ))) : Prop where
  cell (start stop : Nat) : (cellIn levels start stop).Equiv (cellIn levels' start stop)
  passes : levels.map (·.map Closed.passes) = levels'.map (·.map Closed.passes)

variable [NatCast ρ] [LT ρ] [DecidableLT ρ] [Surprisal ρ κ] [LinearOrder κ] [Add κ] {g g' : Grammar ρ κ}

/-- The symbol and the step of a combination, without its cost. -/
def Combination.ends (c : Combination κ) : Nat × Step := (c.symbol, c.entry.step)

omit [NatCast ρ] [LT ρ] [DecidableLT ρ] [Surprisal ρ κ] [LinearOrder κ] in
theorem reordered_combineAt (h : g.Alike g') (split : Nat) {left left' right right' : Cell κ}
    (hleft : left.Equiv left') (hright : right.Equiv right') :
    Reordered Combination.ends (combineAt g split left right) (combineAt g' split left' right') := by
  rw [combineAt, combineAt, hleft.toList_eq]
  apply Reordered.flatMap
  rintro ⟨symbol, entry⟩ -
  have hcombine : combineEdge split entry right = combineEdge split entry right' := by
    funext edge
    rw [combineEdge, combineEdge, hright.getElem?_eq]
  simp only [hcombine]
  refine (h.binaryEdges symbol).filterMap fun e f x y hx hy hends => ?_
  simp only [combineEdge, Option.map_eq_some_iff] at hx hy
  obtain ⟨-, -, rfl⟩ := hx
  obtain ⟨-, -, rfl⟩ := hy
  simp only [BinaryEdge.ends, Prod.mk.injEq] at hends
  obtain ⟨hparent, hl, hr⟩ := hends
  simp [Combination.ends, hparent, hl, hr]

theorem initial_equiv (h : g.Alike g') (scorer : TagScorer ρ) (words : Array String)
    {levels levels' : Array (Array (Closed κ))} (hlevels : LevelsAlike levels levels') (start length : Nat) :
    (Cell.initial g scorer words levels start length).Equiv (Cell.initial g' scorer words levels' start length) := by
  unfold Cell.initial
  split
  · have htag : Cell.enterTag g scorer = Cell.enterTag g' scorer := by
      funext word cell tag
      rw [Cell.enterTag, Cell.enterTag, h.symbols]
    rw [Cell.ofWord, Cell.ofWord, htag]
  · have hreordered : Reordered Combination.ends (combinations g levels start length)
        (combinations g' levels' start length) :=
      .flatMap _ fun split _ => reordered_combineAt h split (hlevels.cell ..) (hlevels.cell ..)
    rw [Cell.ofCombinations, Cell.ofCombinations]
    refine hreordered.foldl (R := Std.TreeMap.Equiv) (fun _ => .rfl) (fun _ _ _ => .trans)
      (fun _ _ c hcd => Cell.offer_congr hcd c.symbol c.entry) (fun cell c _ d _ hends => ?_) _ _ .rfl
    -- combinations with the same ends offer one step, at two costs
    obtain ⟨a, x, step⟩ := c
    obtain ⟨b, y, step'⟩ := d
    obtain ⟨rfl, rfl⟩ : a = b ∧ step = step' := Prod.mk.inj hends
    exact Cell.offer_comm cell a step x y

omit [NatCast ρ] [LT ρ] [DecidableLT ρ] [Surprisal ρ κ] [LinearOrder κ] [Add κ] in
theorem cellIn_push (levels : Array (Array (Closed κ))) (level : Array (Closed κ)) (start stop : Nat) :
    cellIn (levels.push level) start stop =
      if stop - start = levels.size then (level[start]?.map Closed.cell).getD ∅ else cellIn levels start stop := by
  unfold cellIn
  rw [Array.getElem?_push]
  by_cases hlength : stop - start = levels.size
  · rw [if_pos hlength, if_pos hlength]
    simp only
    cases level[start]? <;> rfl
  · rw [if_neg hlength, if_neg hlength]

theorem alike_level (h : g.Alike g') (hg : g.Indexed) (scorer : TagScorer ρ) (words : Array String)
    {levels levels' : Array (Array (Closed κ))} (hlevels : LevelsAlike levels levels') (length : Nat) :
    (∀ start : Nat, (((level g scorer words levels length)[start]?.map Closed.cell).getD ∅).Equiv
      (((level g' scorer words levels' length)[start]?.map Closed.cell).getD ∅)) ∧
    (level g scorer words levels length).map Closed.passes =
      (level g' scorer words levels' length).map Closed.passes := by
  have hclose (start : Nat) := Cell.close_alike h hg (initial_equiv h scorer words hlevels start length)
  unfold level
  constructor
  · intro start
    rw [Array.getElem?_map, Array.getElem?_map]
    cases (Array.range (words.size + 1 - length))[start]? with
    | none => exact .rfl
    | some i => exact (hclose i).cell
  · rw [Array.map_map, Array.map_map]
    exact Array.map_congr_left fun start _ => (hclose start).passes

theorem alike_levelsUpTo (h : g.Alike g') (hg : g.Indexed) (scorer : TagScorer ρ) (words : Array String) (n : Nat) :
    LevelsAlike (levelsUpTo g scorer words n) (levelsUpTo g' scorer words n) := by
  induction n with
  | zero => exact ⟨fun _ _ => .rfl, rfl⟩
  | succ n ih =>
    obtain ⟨hcell, hpasses⟩ := alike_level h hg scorer words ih (n + 1)
    rw [levelsUpTo, levelsUpTo]
    constructor
    · intro start stop
      rw [cellIn_push, cellIn_push, size_levelsUpTo, size_levelsUpTo]
      split
      · exact hcell start
      · exact ih.cell start stop
    · rw [Array.map_push, Array.map_push, ih.passes, hpasses]

end Levels

/-! ## Charts and derivations -/

namespace Chart

theorem maxPasses_eq (c : Chart κ) :
    c.maxPasses = (c.levels.map (·.map Closed.passes)).foldl (fun m passes => passes.foldl max m) 0 := by
  rw [maxPasses, Array.foldl_map]
  simp only [Array.foldl_map]

/-- Trees read off charts depend on the cells as maps only. -/
theorem tree?_congr {g g' : Grammar ρ κ} (h : g.symbols = g'.symbols) {c d : Chart κ}
    (hcell : ∀ start stop, (c.cell start stop).Equiv (d.cell start stop)) (words : Array String) :
    ∀ depth symbol start stop, c.tree? g words depth symbol start stop = d.tree? g' words depth symbol start stop
  | 0, _, _, _ => rfl
  | depth + 1, symbol, start, stop => by
    rw [tree?, tree?, h, (hcell start stop).getElem?_eq]
    simp only [tree?_congr h hcell words depth]

end Chart

/-- Two grammars that number the same symbols alike and make the same charts and derivations of every sentence. -/
structure Grammar.Indistinguishable [NatCast ρ] [LT ρ] [DecidableLT ρ] [Surprisal ρ κ] [LinearOrder κ] [Add κ]
    (g g' : Grammar ρ κ) : Prop where
  symbols : g.symbols = g'.symbols
  nonTerminals : g.nonTerminals = g'.nonTerminals
  entry (scorer : TagScorer ρ) (words : List String) (start stop symbol : Nat) :
    ((Chart.fill g scorer words).cell start stop)[symbol]? = ((Chart.fill g' scorer words).cell start stop)[symbol]?
  maxPasses (scorer : TagScorer ρ) (words : List String) :
    (Chart.fill g scorer words).maxPasses = (Chart.fill g' scorer words).maxPasses
  derivation (scorer : TagScorer ρ) (words : List String) (start : String) :
    g.derive? scorer words start = g'.derive? scorer words start

section Indistinguishable

variable [NatCast ρ] [LT ρ] [DecidableLT ρ] [Surprisal ρ κ] [LinearOrder κ] [Add κ] {g g' : Grammar ρ κ}

/-- Grammars that are the same up to the order of edges with the same ends make the same charts. -/
theorem Grammar.Alike.indistinguishable (h : g.Alike g') (hg : g.Indexed) : g.Indistinguishable g' := by
  have hfill (scorer : TagScorer ρ) (words : List String) :
      LevelsAlike (Chart.fill g scorer words).levels (Chart.fill g' scorer words).levels :=
    alike_levelsUpTo h hg scorer words.toArray words.length
  have hcell (scorer : TagScorer ρ) (words : List String) (start stop : Nat) :
      ((Chart.fill g scorer words).cell start stop).Equiv ((Chart.fill g' scorer words).cell start stop) :=
    (hfill scorer words).cell start stop
  refine ⟨h.symbols, h.nonTerminals, fun scorer words start stop symbol => ?_, fun scorer words => ?_,
    fun scorer words start => ?_⟩
  · exact (hcell scorer words start stop).getElem?_eq
  · rw [Chart.maxPasses_eq, Chart.maxPasses_eq, (hfill scorer words).passes]
  · have hlength : (Chart.fill g scorer words).depthLimit g = (Chart.fill g' scorer words).depthLimit g' := by
      rw [Chart.depthLimit, Chart.depthLimit, Grammar.numSymbols, Grammar.numSymbols, h.symbols]
      rfl
    have hcost (symbol : Nat) : (Chart.fill g scorer words).cost? 0 words.length symbol =
        (Chart.fill g' scorer words).cost? 0 words.length symbol := by
      rw [Chart.cost?, Chart.cost?, (hcell scorer words 0 words.length).getElem?_eq]
    simp only [Grammar.derive?, h.symbols, hlength, hcost, Chart.tree?_congr h.symbols (hcell scorer words)]

end Indistinguishable

/-- Giving rules in another order changes neither the numbers of symbols nor any chart or derivation, copies of one
production with different probabilities included. The grammar of binarized trees is the very same for every order of
the trees and every order of the rules that their counts are made into. -/
theorem Grammar.indistinguishable_of_perm [NatCast ρ] [LT ρ] [DecidableLT ρ] [LE ρ] [Div ρ] [Surprisal ρ κ]
    [LinearOrder κ] [Add κ] [LawfulSurprisal ρ κ] :
    (∀ {rules rules' : List (Rule ρ)}, rules.Perm rules' → AtMostCertain rules →
      (ofRules rules : Grammar ρ κ).Indistinguishable (ofRules rules')) ∧
    ∀ {ts ts' : Forest}, ts.Perm ts' → (∀ t ∈ ts, ∀ s ∈ t.subtrees, s.isNarrow = true) →
      ∃ counts, ProductionCounts.ofTrees? ts' = .ok counts ∧ ∀ rules : List (Rule ρ), rules.Perm counts.rules →
        (ofTrees ts : Except Error (Grammar ρ κ)) = .ok (ofRules rules) :=
  ⟨fun hperm hrules => (alike_of_perm hperm).indistinguishable (indexed_ofRules hrules), ofTrees_eq_of_perm⟩

/-- Two trees in which a noun phrase is made differently. -/
def twoNounPhrases : Forest :=
  [.node "NP" [.preterminal "DT" "the", .preterminal "NN" "dog"],
    .node "NP" [.node "NP" [.preterminal "NN" "food"], .preterminal "NN" "dog"]]

/-- The cyclic rules backwards, where the copies of one production change places. -/
theorem Grammar.indistinguishable_of_perm_backwards :
    (cyclicRules.Perm cyclicRules.reverse ∧ AtMostCertain cyclicRules ∧
      ((ofRules cyclicRules : Grammar ℚ ℤ).unaryEdges.get 2).map UnaryEdge.cost = [2, 1] ∧
      ((ofRules cyclicRules.reverse : Grammar ℚ ℤ).unaryEdges.get 2).map UnaryEdge.cost = [1, 2]) ∧
    (ofRules cyclicRules : Grammar ℚ ℤ).Indistinguishable (ofRules cyclicRules.reverse) ∧
    ∃ counts, ProductionCounts.ofTrees? twoNounPhrases.reverse = .ok counts ∧
      (ofTrees twoNounPhrases : Except Error (Grammar ℚ ℤ)) = .ok (ofRules counts.rules.reverse) := by
  have hperm : cyclicRules.Perm cyclicRules.reverse := (List.reverse_perm cyclicRules).symm
  have hrules : AtMostCertain cyclicRules := by unfold AtMostCertain; decide +kernel
  have hnarrow : ∀ t ∈ twoNounPhrases, ∀ s ∈ t.subtrees, s.isNarrow = true := by decide +kernel
  obtain ⟨counts, hcounts, htrees⟩ := (indistinguishable_of_perm (ρ := ℚ) (κ := ℤ)).2
    (List.reverse_perm twoNounPhrases).symm hnarrow
  refine ⟨⟨hperm, hrules, by decide +kernel, by decide +kernel⟩, indistinguishable_of_perm.1 hperm hrules, counts,
    hcounts, htrees _ (List.reverse_perm _)⟩

end Constituency
