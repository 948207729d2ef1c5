/-
How a chart is filled. The cell of a span that is not empty is the closure of its initial cell, which is
built from the cells of shorter spans as they are in the finished chart (`cell_fill`). What can stand in an
initial cell are the seeds of its span: the tags of its word and the combinations over its splits. Every
entry of the initial cell is a seed (`initial_seed`), and every seed is there at its cost or less
(`initial_within`).
-/
import Constituency.Chart.Basic
import Constituency.Proofs.Chart.Closure

namespace Constituency

variable {ρ κ : Type} [NatCast ρ] [LT ρ] [DecidableLT ρ] [Surprisal ρ κ] [LinearOrder κ] [Add κ]
  {g : Grammar ρ κ} {scorer : TagScorer ρ}

/-! ## Levels -/

section Levels

variable {words : Array String}

omit [LinearOrder κ] in
theorem size_levelsUpTo [LT κ] [DecidableLT κ] [BEq κ] (n : Nat) : (levelsUpTo g scorer words n).size = n + 1 := by
  induction n with
  | zero => rfl
  | succ n ih => simp [levelsUpTo, ih]

theorem levelsUpTo_getElem? (g : Grammar ρ κ) (scorer : TagScorer ρ) (words : Array String) {m n : Nat} (h : m < n) :
    (levelsUpTo g scorer words n)[m + 1]? = some (level g scorer words (levelsUpTo g scorer words m) (m + 1)) := by
  induction n with
  | zero => omega
  | succ n ih =>
    rw [levelsUpTo, Array.getElem?_push, size_levelsUpTo]
    by_cases hmn : m = n
    · subst hmn; simp
    · rw [if_neg (by omega)]; exact ih (by omega)

theorem cellIn_levelsUpTo {start stop n : Nat} (hlt : start < stop) (hstop : stop ≤ words.size)
    (hn : stop - start ≤ n) : cellIn (levelsUpTo g scorer words n) start stop =
      ((Cell.initial g scorer words (levelsUpTo g scorer words (stop - start - 1)) start (stop - start)).close
        g).cell := by
  have hlength : stop - start = stop - start - 1 + 1 := by omega
  have hlevel := levelsUpTo_getElem? g scorer words (show stop - start - 1 < n by omega)
  rw [← hlength] at hlevel
  unfold cellIn
  rw [hlevel]
  have hstart : start < words.size + 1 - (stop - start) := by omega
  simp [level, hstart]

theorem cellIn_levelsUpTo_of_not {start stop n : Nat} (h : ¬ (start < stop ∧ stop ≤ words.size)) :
    cellIn (levelsUpTo g scorer words n) start stop = ∅ := by
  unfold cellIn
  cases hk : stop - start with
  | zero =>
    have h0 : (levelsUpTo g scorer words n)[0]? = some #[] := by
      induction n with
      | zero => rfl
      | succ n ih => rw [levelsUpTo, Array.getElem?_push, size_levelsUpTo, if_neg (by omega)]; exact ih
    rw [h0]
    rfl
  | succ m =>
    by_cases hm : m < n
    · rw [levelsUpTo_getElem? g scorer words hm]
      have hstart : words.size - m ≤ start := by omega
      simp [level, hstart]
    · rw [Array.getElem?_eq_none (by rw [size_levelsUpTo]; omega)]

/-- Filling more levels does not change the cells of those filled before. -/
theorem cellIn_levelsUpTo_congr {start stop m n : Nat} (hm : stop - start ≤ m) (hn : stop - start ≤ n) :
    cellIn (levelsUpTo g scorer words m) start stop = cellIn (levelsUpTo g scorer words n) start stop := by
  by_cases h : start < stop ∧ stop ≤ words.size
  · rw [cellIn_levelsUpTo h.1 h.2 hm, cellIn_levelsUpTo h.1 h.2 hn]
  · rw [cellIn_levelsUpTo_of_not h, cellIn_levelsUpTo_of_not h]

end Levels

/-! ## Seeds -/

/-- The entries that a span can have before it is closed, given the cells of shorter spans: the tags of a
single word, and the combinations of two cells by a binary edge. -/
inductive Seed (g : Grammar ρ κ) (scorer : TagScorer ρ) (words : List String) (cellAt : Nat → Nat → Cell κ)
    (start stop : Nat) : Nat → Entry κ → Prop
  | tagging {word tag : String} {a : Nat} : stop = start + 1 → words[start]? = some word → tag ∈ scorer.tags →
      g.symbols.number? tag = some a → ((0 : Nat) : ρ) < scorer.score word tag →
      Seed g scorer words cellAt start stop a ⟨surprisal (scorer.score word tag), .lexical⟩
  | combination {split k : Nat} {edge : BinaryEdge κ} {l r : Entry κ} : start < split → split < stop →
      edge ∈ g.binaryEdges.get k → (cellAt start split)[edge.left]? = some l →
      (cellAt split stop)[edge.right]? = some r →
      Seed g scorer words cellAt start stop edge.parent
        ⟨l.cost + r.cost + edge.cost, .binary split edge.left edge.right⟩

omit [DecidableLT ρ] [LinearOrder κ] in
theorem Seed.congr {words : List String} {cellAt cellAt' : Nat → Nat → Cell κ} {start stop : Nat}
    (h : ∀ i j, start ≤ i → j ≤ stop → j - i < stop - start → cellAt i j = cellAt' i j) {a : Nat} {e : Entry κ}
    (hs : Seed g scorer words cellAt start stop a e) : Seed g scorer words cellAt' start stop a e := by
  cases hs with
  | tagging hstop hword htag hnum hpos => exact .tagging hstop hword htag hnum hpos
  | combination hl hr he hle hre =>
    exact .combination hl hr he (h _ _ le_rfl hr.le (by omega) ▸ hle) (h _ _ hl.le le_rfl (by omega) ▸ hre)

/-! ## Tags of a word -/

namespace Cell

omit [LinearOrder κ] [Add κ] in
theorem enterTag_cases (g : Grammar ρ κ) (scorer : TagScorer ρ) (word : String) (cell : Cell κ) (tag : String) :
    cell.enterTag g scorer word tag = cell ∨ ∃ a, g.symbols.number? tag = some a ∧
      ((0 : Nat) : ρ) < scorer.score word tag ∧
      cell.enterTag g scorer word tag = cell.insert a ⟨surprisal (scorer.score word tag), .lexical⟩ := by
  unfold enterTag
  cases hnum : g.symbols.number? tag with
  | none => exact .inl rfl
  | some a =>
    by_cases hpos : ((0 : Nat) : ρ) < scorer.score word tag
    · exact .inr ⟨a, rfl, hpos, by simp [hpos]⟩
    · exact .inl (by simp [hpos])

omit [LinearOrder κ] [Add κ] in
theorem foldl_enterTag_some {word : String} {a : Nat} {e : Entry κ} : ∀ (tags : List String) (cell : Cell κ),
    (tags.foldl (enterTag g scorer word) cell)[a]? = some e → cell[a]? = some e ∨
      ∃ tag ∈ tags, g.symbols.number? tag = some a ∧ ((0 : Nat) : ρ) < scorer.score word tag ∧
        e = ⟨surprisal (scorer.score word tag), .lexical⟩
  | [], _, h => .inl h
  | tag :: tags, cell, h => by
    rw [List.foldl_cons] at h
    rcases foldl_enterTag_some tags _ h with h | ⟨t, ht, hrest⟩
    · rcases enterTag_cases g scorer word cell tag with heq | ⟨b, hnum, hpos, heq⟩
      · rw [heq] at h; exact .inl h
      · rw [heq, getElem?_insert_eq] at h
        split at h
        · rename_i hb
          cases h; subst hb
          exact .inr ⟨tag, List.mem_cons_self .., hnum, hpos, rfl⟩
        · exact .inl h
    · exact .inr ⟨t, List.mem_cons_of_mem _ ht, hrest⟩

omit [LinearOrder κ] [Add κ] in
theorem mem_foldl_enterTag (g : Grammar ρ κ) (scorer : TagScorer ρ) {word : String} {a : Nat} :
    ∀ (tags : List String) (cell : Cell κ),
      (a ∈ cell ∨ ∃ tag ∈ tags, g.symbols.number? tag = some a ∧ ((0 : Nat) : ρ) < scorer.score word tag) →
      a ∈ tags.foldl (enterTag g scorer word) cell
  | [], _, h => by simpa using h
  | tag :: tags, cell, h => by
    rw [List.foldl_cons]
    refine mem_foldl_enterTag g scorer tags _ ?_
    rcases h with h | ⟨t, ht, hnum, hpos⟩
    · rcases enterTag_cases g scorer word cell tag with heq | ⟨b, -, -, heq⟩
      · rw [heq]; exact .inl h
      · rw [heq]; exact .inl (Std.TreeMap.mem_insert.2 (.inr h))
    · rcases List.mem_cons.1 ht with rfl | ht
      · refine .inl ?_
        simp [enterTag, hnum, hpos]
      · exact .inr ⟨t, ht, hnum, hpos⟩

/-! ## Combinations of a span -/

omit [Add κ] in
theorem offer_cases (cell : Cell κ) (a : Nat) (e : Entry κ) :
    (cell.offer a e = cell ∧ cell.HasWithin a e.cost) ∨
      (cell.offer a e = cell.insert a e ∧ ∀ old, cell[a]? = some old → e.cost < old.cost) := by
  unfold offer
  by_cases h : improves e.cost cell[a]? = true
  · exact .inr ⟨by rw [if_pos h], improves_iff.1 h⟩
  · refine .inl ⟨by rw [if_neg h], ?_⟩
    rw [improves_iff] at h
    push Not at h
    exact h

omit [Add κ] in
theorem lowered_offer (cell : Cell κ) (a : Nat) (e : Entry κ) : Lowered cell (cell.offer a e) := by
  rcases cell.offer_cases a e with ⟨h, -⟩ | ⟨h, hlt⟩
  · rw [h]; exact .refl cell
  · rw [h]; exact lowered_insert fun old ho => (hlt old ho).le

omit [Add κ] in
theorem offer_within (cell : Cell κ) (a : Nat) (e : Entry κ) : (cell.offer a e).HasWithin a e.cost := by
  rcases cell.offer_cases a e with ⟨h, hw⟩ | ⟨h, -⟩
  · rw [h]; exact hw
  · rw [h]; exact ⟨e, by rw [getElem?_insert_eq, if_pos rfl], le_rfl⟩

omit [Add κ] in
theorem foldl_offer_some {a : Nat} {e : Entry κ} : ∀ (cs : List (Combination κ)) (cell : Cell κ),
    (cs.foldl (fun cell c => cell.offer c.symbol c.entry) cell)[a]? = some e →
      cell[a]? = some e ∨ ∃ c ∈ cs, c.symbol = a ∧ c.entry = e
  | [], _, h => .inl h
  | c :: cs, cell, h => by
    rw [List.foldl_cons] at h
    rcases foldl_offer_some cs _ h with h | ⟨d, hd, hrest⟩
    · rcases cell.offer_cases c.symbol c.entry with ⟨heq, -⟩ | ⟨heq, -⟩
      · rw [heq] at h; exact .inl h
      · rw [heq, getElem?_insert_eq] at h
        split at h
        · rename_i ha
          exact .inr ⟨c, List.mem_cons_self .., ha, Option.some.inj h⟩
        · exact .inl h
    · exact .inr ⟨d, List.mem_cons_of_mem _ hd, hrest⟩

omit [Add κ] in
theorem lowered_foldl_offer : ∀ (cs : List (Combination κ)) (cell : Cell κ),
    Lowered cell (cs.foldl (fun cell c => cell.offer c.symbol c.entry) cell)
  | [], cell => .refl cell
  | _ :: cs, cell => (lowered_offer cell _ _).trans (lowered_foldl_offer cs _)

omit [Add κ] in
theorem foldl_offer_within {c : Combination κ} : ∀ (cs : List (Combination κ)) (cell : Cell κ), c ∈ cs →
    (cs.foldl (fun cell c => cell.offer c.symbol c.entry) cell).HasWithin c.symbol c.entry.cost
  | d :: cs, cell, h => by
    rw [List.foldl_cons]
    rcases List.mem_cons.1 h with rfl | h
    · exact (offer_within cell _ _).lowered (lowered_foldl_offer cs _)
    · exact foldl_offer_within cs _ h

end Cell

omit [NatCast ρ] [LT ρ] [DecidableLT ρ] [Surprisal ρ κ] [LinearOrder κ] in
theorem mem_combinations_iff {levels : Array (Array (Closed κ))} {start length : Nat} {c : Combination κ} :
    c ∈ combinations g levels start length ↔ ∃ split a l edge r, start < split ∧ split < start + length ∧
      (cellIn levels start split)[a]? = some l ∧ edge ∈ g.binaryEdges.get a ∧
      (cellIn levels split (start + length))[edge.right]? = some r ∧
      c = ⟨edge.parent, l.cost + r.cost + edge.cost, .binary split edge.left edge.right⟩ := by
  simp only [combinations, combineAt, combineEdge, List.mem_flatMap, List.mem_range', List.mem_filterMap,
    Prod.exists, Std.TreeMap.mem_toList_iff_getElem?_eq_some, Option.map_eq_some_iff]
  constructor
  · rintro ⟨split, ⟨i, hi, rfl⟩, a, l, hl, edge, he, r, hr, rfl⟩
    exact ⟨_, a, l, edge, r, by omega, by omega, hl, he, hr, rfl⟩
  · rintro ⟨split, a, l, edge, r, hlo, hhi, hl, he, hr, rfl⟩
    exact ⟨split, ⟨split - (start + 1), by omega, by omega⟩, a, l, hl, edge, he, r, hr, rfl⟩

omit [DecidableLT ρ] in
/-- The combinations of a span of two or more words are its seeds. -/
theorem mem_combinations_iff_seed {levels : Array (Array (Closed κ))} (hg : g.Indexed) (scorer : TagScorer ρ)
    (words : List String) {start stop : Nat} (hspan : start + 1 < stop) {c : Combination κ} :
    c ∈ combinations g levels start (stop - start) ↔
      Seed g scorer words (cellIn levels) start stop c.symbol c.entry := by
  rw [mem_combinations_iff, show start + (stop - start) = stop by omega]
  constructor
  · rintro ⟨split, a, l, edge, r, hlo, hhi, hl, hedge, hr, rfl⟩
    exact .combination hlo hhi hedge (hg.left_eq hedge ▸ hl) hr
  · obtain ⟨a, e⟩ := c
    intro h
    cases h with
    | tagging hone => omega
    | combination hlo hhi hedge hl hr => exact ⟨_, _, _, _, _, hlo, hhi, hl, hg.left_eq hedge ▸ hedge, hr, rfl⟩

/-! ## Initial cells -/

/-- The initial cell of a span when `k` of its tags or combinations have been entered. -/
def Cell.initialUpTo (g : Grammar ρ κ) (scorer : TagScorer ρ) (words : Array String)
    (levels : Array (Array (Closed κ))) (start length k : Nat) : Cell κ :=
  if length = 1 then (scorer.tags.take k).foldl (Cell.enterTag g scorer (words.getD start "")) ∅
  else Cell.ofCombinations ((combinations g levels start length).take k)

theorem Cell.exists_initialUpTo (g : Grammar ρ κ) (scorer : TagScorer ρ) (words : Array String)
    (levels : Array (Array (Closed κ))) (start length : Nat) :
    ∃ k, Cell.initialUpTo g scorer words levels start length k = Cell.initial g scorer words levels start length := by
  refine ⟨max scorer.tags.length (combinations g levels start length).length, ?_⟩
  unfold initialUpTo initial ofWord
  rw [List.take_of_length_le (le_max_left _ _), List.take_of_length_le (le_max_right _ _)]

section Initial

variable {words : List String} {levels : Array (Array (Closed κ))} {start stop : Nat}

/-- What has been entered into an initial cell are seeds. -/
theorem initialUpTo_seed (hg : g.Indexed) (hlt : start < stop) (hstop : stop ≤ words.length) {k a : Nat}
    {e : Entry κ} (h : (Cell.initialUpTo g scorer words.toArray levels start (stop - start) k)[a]? = some e) :
    Seed g scorer words (cellIn levels) start stop a e := by
  unfold Cell.initialUpTo at h
  split at h
  · rcases Cell.foldl_enterTag_some _ _ h with h | ⟨tag, htag, hnum, hpos, rfl⟩
    · simp at h
    · have hword : words[start]? = some (words.toArray.getD start "") := by
        have hsize : start < words.length := by omega
        simp [Array.getD, hsize]
      exact .tagging (by omega) hword (List.mem_of_mem_take htag) hnum hpos
  · rcases Cell.foldl_offer_some _ _ h with h | ⟨c, hc, rfl, rfl⟩
    · simp at h
    · exact (mem_combinations_iff_seed hg scorer words (by omega)).1 (List.mem_of_mem_take hc)

theorem initial_seed (hg : g.Indexed) (hlt : start < stop) (hstop : stop ≤ words.length) {a : Nat} {e : Entry κ}
    (h : (Cell.initial g scorer words.toArray levels start (stop - start))[a]? = some e) :
    Seed g scorer words (cellIn levels) start stop a e := by
  obtain ⟨k, hk⟩ := Cell.exists_initialUpTo g scorer words.toArray levels start (stop - start)
  rw [← hk] at h
  exact initialUpTo_seed hg hlt hstop h

/-- The initial cell has every seed, at its cost or less. -/
theorem initial_within (hg : g.Indexed) {a : Nat} {e : Entry κ}
    (h : Seed g scorer words (cellIn levels) start stop a e) :
    (Cell.initial g scorer words.toArray levels start (stop - start)).HasWithin a e.cost := by
  unfold Cell.initial
  cases h with
  | @tagging word tag a hstop hword htag hnum hpos =>
    -- whichever tag with this number was entered last, it is the same tag
    have hgetD : words.toArray.getD start "" = word := by
      obtain ⟨hsize, hget⟩ := List.getElem?_eq_some_iff.1 hword
      simp [Array.getD, hsize, hget]
    rw [if_pos (by omega), hgetD]
    obtain ⟨e, he⟩ := Cell.mem_iff_exists.1
      (Cell.mem_foldl_enterTag g scorer scorer.tags ∅ (.inr ⟨tag, htag, hnum, hpos⟩))
    rcases Cell.foldl_enterTag_some _ _ he with h | ⟨tag', -, hnum', -, rfl⟩
    · simp at h
    · rw [hg.number_inj hnum' hnum] at he
      exact ⟨_, he, le_rfl⟩
  | @combination split k edge l r hlo hhi hedge hl hr =>
    rw [if_neg (by omega)]
    exact Cell.foldl_offer_within (c := ⟨edge.parent, _⟩) _ ∅
      ((mem_combinations_iff_seed hg scorer words (by omega)).2 (.combination hlo hhi hedge hl hr))

end Initial

/-! ## The finished chart -/

namespace Chart

variable {words : List String} {start stop : Nat}

theorem cell_fill (hlt : start < stop) (hstop : stop ≤ words.length) :
    (Chart.fill g scorer words).cell start stop =
      ((Cell.initial g scorer words.toArray (levelsUpTo g scorer words.toArray (stop - start - 1)) start
        (stop - start)).close g).cell :=
  cellIn_levelsUpTo hlt (by simpa using hstop) (by omega)

theorem cell_fill_of_not (h : ¬ (start < stop ∧ stop ≤ words.length)) :
    (Chart.fill g scorer words).cell start stop = ∅ :=
  cellIn_levelsUpTo_of_not (by simpa using h)

theorem span_of_mem {a : Nat} (h : a ∈ (Chart.fill g scorer words).cell start stop) :
    start < stop ∧ stop ≤ words.length := by
  by_contra hno
  rw [cell_fill_of_not hno] at h
  simp at h

/-- The cells of shorter spans that a cell was built from are those of the finished chart. -/
theorem seed_fill_iff (hstop : stop ≤ words.length) {a : Nat} {e : Entry κ} :
    Seed g scorer words (cellIn (levelsUpTo g scorer words.toArray (stop - start - 1))) start stop a e ↔
      Seed g scorer words (Chart.fill g scorer words).cell start stop a e := by
  have h (i j : Nat) (hlt : j - i < stop - start) :
      cellIn (levelsUpTo g scorer words.toArray (stop - start - 1)) i j = (Chart.fill g scorer words).cell i j :=
    cellIn_levelsUpTo_congr (by omega) (by omega)
  exact ⟨Seed.congr fun i j _ _ hlt => h i j hlt, Seed.congr fun i j _ _ hlt => (h i j hlt).symm⟩

/-- The cell of a span has every seed, at its cost or less. -/
theorem seed_within (hg : g.Indexed) (scorer : TagScorer ρ) (hlt : start < stop) (hstop : stop ≤ words.length)
    {a : Nat} {e : Entry κ} (h : Seed g scorer words (Chart.fill g scorer words).cell start stop a e) :
    ((Chart.fill g scorer words).cell start stop).HasWithin a e.cost := by
  rw [cell_fill hlt hstop]
  exact (initial_within hg ((seed_fill_iff hstop).2 h)).lowered (Cell.close_steps _).lowered

/-- No unary edge of a span leads to a cheaper parent. -/
theorem unary_within [AddLeftMono κ] [AddRightMono κ] (hg : g.Indexed) {k : Nat} {edge : UnaryEdge κ} {c : κ}
    (hedge : edge ∈ g.unaryEdges.get k)
    (h : ((Chart.fill g scorer words).cell start stop).HasWithin edge.child c) :
    ((Chart.fill g scorer words).cell start stop).HasWithin edge.parent (c + edge.cost) := by
  obtain ⟨hlt, hstop⟩ := span_of_mem (Cell.mem_iff_exists.2 (h.imp fun _ he => he.1))
  rw [cell_fill hlt hstop] at h ⊢
  exact Cell.close_within hg hedge h

end Chart

end Constituency
