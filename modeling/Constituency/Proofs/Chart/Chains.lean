/-
The unary steps in a cell are well founded at every moment of the fill. A `Chain` is a way down along unary
steps to a lexical or a binary entry; as there is only one way down, a chain repeats no symbol
(`Chain.nodup`). Every symbol of a cell has a chain (`Moment.grounded`).

Two things keep it so. Costs do not rise down a chain, so that an entry that is improved on strictly is on no
chain below its new child; and where a unary step takes the place of a lexical entry of equal cost, the cell
has been searched for such a chain before.
-/
import Constituency.Proofs.Chart.Fill

namespace Constituency

namespace Cell

variable {ρ κ : Type}

/-! ## Chains -/

/-- The symbols on the way down from a symbol along unary steps to an entry that is not unary. -/
inductive Chain (cell : Cell κ) : Nat → List Nat → Prop
  | stop {a : Nat} {e : Entry κ} : cell[a]? = some e → (∀ b, e.step ≠ .unary b) → Chain cell a [a]
  | unary {a b : Nat} {c : κ} {path : List Nat} : cell[a]? = some ⟨c, .unary b⟩ → Chain cell b path →
      Chain cell a (a :: path)

theorem Chain.unique {cell : Cell κ} {a : Nat} {path path' : List Nat} (h : Chain cell a path)
    (h' : Chain cell a path') : path = path' := by
  induction h generalizing path' with
  | stop he hstop =>
    cases h' with
    | stop => rfl
    | unary he' => rw [he] at he'; cases he'; exact absurd rfl (hstop _)
  | unary he _ ih =>
    cases h' with
    | stop he' hstop => rw [he] at he'; cases he'; exact absurd rfl (hstop _)
    | unary he' hpath =>
      rw [he] at he'; cases he'
      rw [ih hpath]

theorem Chain.exists_of_mem {cell : Cell κ} {a b : Nat} {path : List Nat} (h : Chain cell a path) (hb : b ∈ path) :
    ∃ path', Chain cell b path' ∧ path'.length ≤ path.length := by
  induction h with
  | stop he hstop =>
    obtain rfl := List.mem_singleton.1 hb
    exact ⟨_, .stop he hstop, le_rfl⟩
  | unary he hpath ih =>
    rcases List.mem_cons.1 hb with rfl | hb
    · exact ⟨_, .unary he hpath, le_rfl⟩
    · obtain ⟨path', hpath', hle⟩ := ih hb
      exact ⟨path', hpath', hle.trans (Nat.le_succ _)⟩

/-- No chain meets a symbol twice. -/
theorem Chain.nodup {cell : Cell κ} {a : Nat} {path : List Nat} (h : Chain cell a path) : path.Nodup := by
  induction h with
  | stop => exact List.nodup_singleton _
  | @unary a b c path he hpath ih =>
    refine List.nodup_cons.2 ⟨fun hmem => ?_, ih⟩
    -- a chain from the symbol further down would be the whole chain again, yet shorter
    obtain ⟨path', hpath', hle⟩ := hpath.exists_of_mem hmem
    rw [← (Chain.unary he hpath).unique hpath', List.length_cons] at hle
    omega

theorem Chain.mem_of_mem {cell : Cell κ} {a b : Nat} {path : List Nat} (h : Chain cell a path) (hb : b ∈ path) :
    ∃ e, cell[b]? = some e := by
  obtain ⟨_, hpath', -⟩ := h.exists_of_mem hb
  cases hpath' with
  | stop he _ => exact ⟨_, he⟩
  | unary he _ => exact ⟨_, he⟩

/-- The search for a symbol down a chain does not miss it. -/
theorem Chain.not_mem_of_leadsTo {cell : Cell κ} {a target : Nat} {path : List Nat} (h : Chain cell a path) :
    ∀ {steps : Nat}, cell.leadsTo target steps a = false → target ∉ path := by
  induction h with
  | stop he hstop =>
    intro steps hno
    cases steps with
    | zero => cases hno
    | succ steps =>
      simp only [leadsTo, Bool.or_eq_false_iff, beq_eq_false_iff_ne] at hno
      simpa using Ne.symm hno.1
  | unary he _ ih =>
    intro steps hno
    cases steps with
    | zero => cases hno
    | succ steps =>
      simp only [leadsTo, he, Bool.or_eq_false_iff, beq_eq_false_iff_ne] at hno
      rw [List.mem_cons, not_or]
      exact ⟨Ne.symm hno.1, ih hno.2⟩

theorem Chain.mem_of_leadsTo {cell : Cell κ} {a target : Nat} {path : List Nat} (h : Chain cell a path) :
    ∀ {steps : Nat}, path.length < steps → cell.leadsTo target steps a = true → target ∈ path := by
  induction h with
  | @stop a e he hstop =>
    intro steps hsteps hleads
    obtain ⟨steps, rfl⟩ : ∃ n, steps = n + 1 := ⟨steps - 1, by omega⟩
    obtain ⟨c, step⟩ := e
    cases step with
    | unary b => exact absurd rfl (hstop b)
    | lexical | binary =>
      simp only [leadsTo, he, Bool.or_false, beq_iff_eq] at hleads
      exact List.mem_singleton.2 hleads.symm
  | unary he _ ih =>
    intro steps hsteps hleads
    obtain ⟨steps, rfl⟩ : ∃ n, steps = n + 1 := ⟨steps - 1, by omega⟩
    simp only [leadsTo, he, Bool.or_eq_true, beq_iff_eq] at hleads
    rw [List.mem_cons]
    exact hleads.imp Eq.symm (ih (by simpa using hsteps))

/-- Where a symbol has a chain, the search from it finds just the symbols of the chain. -/
theorem Chain.reaches_iff {cell : Cell κ} {a target : Nat} {path : List Nat} (h : Chain cell a path) :
    cell.reaches a target = true ↔ target ∈ path := by
  constructor
  · have hsub : path ⊆ cell.keys := fun b hb => Std.TreeMap.mem_keys.2 (mem_iff_exists.2 (h.mem_of_mem hb))
    have hlength := (h.nodup.subperm hsub).length_le
    rw [Std.TreeMap.length_keys] at hlength
    exact h.mem_of_leadsTo (Nat.lt_succ_of_le hlength)
  · intro hmem
    by_contra hno
    exact h.not_mem_of_leadsTo (Bool.eq_false_iff.2 hno) hmem

theorem Chain.insert_of_not_mem {cell : Cell κ} {a b : Nat} {e : Entry κ} {path : List Nat} (h : Chain cell a path)
    (hb : b ∉ path) : Chain (cell.insert b e) a path := by
  have hother {x : Nat} (hx : b ≠ x) : (cell.insert b e)[x]? = cell[x]? := by
    rw [getElem?_insert_eq, if_neg hx]
  induction h with
  | stop he hstop =>
    exact .stop ((hother fun h => hb (h ▸ List.mem_singleton_self _)).trans he) hstop
  | unary he _ ih =>
    rw [List.mem_cons, not_or] at hb
    exact .unary ((hother hb.1).trans he) (ih hb.2)

/-- When a unary step to a child is entered for a symbol that is not on the child's chain, all symbols keep a
chain. -/
theorem Chain.exists_insert {cell : Cell κ} {parent child : Nat} {c : κ} {below : List Nat}
    (hbelow : Chain cell child below) (hparent : parent ∉ below) {a : Nat} {path : List Nat} (h : Chain cell a path) :
    ∃ path', Chain (cell.insert parent ⟨c, .unary child⟩) a path' := by
  have hnew : Chain (cell.insert parent ⟨c, .unary child⟩) parent (parent :: below) :=
    .unary (by rw [getElem?_insert_eq, if_pos rfl]) (hbelow.insert_of_not_mem hparent)
  induction h with
  | @stop a e he hstop =>
    by_cases ha : parent = a
    · subst ha
      exact ⟨_, hnew⟩
    · exact ⟨_, .stop (by rw [getElem?_insert_eq, if_neg ha]; exact he) hstop⟩
  | @unary a b d path he _ ih =>
    by_cases ha : parent = a
    · subst ha
      exact ⟨_, hnew⟩
    · obtain ⟨path', hpath'⟩ := ih
      exact ⟨_, .unary (by rw [getElem?_insert_eq, if_neg ha]; exact he) hpath'⟩

/-! ## Support -/

section Support

variable [LinearOrder κ] [Add κ]

/-- What an entry of a cell rests on: it is a seed, or it costs at least as much as the unary step from the
entry that its child has now. -/
inductive Supports (g : Grammar ρ κ) (seed : Nat → Entry κ → Prop) (cell : Cell κ) : Nat → Entry κ → Prop
  | seed {a : Nat} {e : Entry κ} : seed a e → Supports g seed cell a e
  | unary {k : Nat} {edge : UnaryEdge κ} {child : Entry κ} {c : κ} : edge ∈ g.unaryEdges.get k →
      cell[edge.child]? = some child → child.cost + edge.cost ≤ c →
      Supports g seed cell edge.parent ⟨c, .unary edge.child⟩

/-- All entries of a cell are supported and have chains. -/
structure Grounded (g : Grammar ρ κ) (seed : Nat → Entry κ → Prop) (cell : Cell κ) : Prop where
  supports {a : Nat} {e : Entry κ} : cell[a]? = some e → Supports g seed cell a e
  chain {a : Nat} {e : Entry κ} : cell[a]? = some e → ∃ path, Chain cell a path

variable {g : Grammar ρ κ} {seed : Nat → Entry κ → Prop}

theorem Supports.lowered [AddLeftMono κ] [AddRightMono κ] {old new : Cell κ} {a : Nat} {e : Entry κ}
    (h : Supports g seed old a e) (hlow : Lowered old new) : Supports g seed new a e := by
  cases h with
  | seed hs => exact .seed hs
  | unary hedge hchild hle =>
    obtain ⟨child', hchild', hle'⟩ := hlow _ _ hchild
    exact .unary hedge hchild' ((add_le_add hle' le_rfl).trans hle)

theorem grounded_of_seeds {cell : Cell κ} (hseed : ∀ a e, seed a e → ∀ b, e.step ≠ .unary b)
    (h : ∀ (a : Nat) (e : Entry κ), cell[a]? = some e → seed a e) : Grounded g seed cell where
  supports he := .seed (h _ _ he)
  chain he := ⟨_, .stop he (hseed _ _ (h _ _ he))⟩

theorem Grounded.le_of_chain (hg : g.Indexed) (hseed : ∀ a e, seed a e → ∀ b, e.step ≠ .unary b) {cell : Cell κ}
    (h : Grounded g seed cell) {a b : Nat} {path : List Nat} (hpath : Chain cell a path) (hb : b ∈ path)
    {ea eb : Entry κ} (ha : cell[a]? = some ea) (heb : cell[b]? = some eb) : eb.cost ≤ ea.cost := by
  induction hpath generalizing ea with
  | stop =>
    obtain rfl := List.mem_singleton.1 hb
    rw [ha] at heb; cases heb
    exact le_rfl
  | unary he hpath ih =>
    rw [ha] at he; cases he
    rcases List.mem_cons.1 hb with rfl | hbelow
    · rw [ha] at heb; cases heb
      exact le_rfl
    · cases h.supports ha with
      | seed hs => exact absurd rfl (hseed _ _ hs _)
      | unary hedge hchild hle => exact (ih hbelow hchild).trans ((hg.le_add hedge _).trans hle)

/-- A unary step keeps a cell grounded. -/
theorem Grounded.step [AddLeftMono κ] [AddRightMono κ] (hg : g.Indexed)
    (hseed : ∀ a e, seed a e → ∀ b, e.step ≠ .unary b) {old new : Cell κ} (h : Grounded g seed old)
    (hstep : UnaryStep g old new) : Grounded g seed new := by
  have hlow := hstep.lowered
  obtain ⟨hedge, hchild, htakes⟩ := hstep
  rename_i k edge child
  obtain ⟨below, hbelow⟩ := h.chain hchild
  have hparent : edge.parent ∉ below := by
    rcases takesUnary_iff.1 htakes with hlt | ⟨-, hreaches⟩
    · -- a strictly cheaper entry cannot be on the chain, whose costs are no higher than the child's
      intro hmem
      obtain ⟨e, he⟩ := hbelow.mem_of_mem hmem
      have hle := h.le_of_chain hg hseed hbelow hmem hchild he
      exact absurd ((hlt e he).trans_le hle) (not_lt.2 (hg.le_add hedge _))
    · -- at equal cost the cell has been searched instead
      exact hbelow.not_mem_of_leadsTo hreaches
  constructor
  · intro a e he
    rw [getElem?_insert_eq] at he
    split at he
    · rename_i ha
      cases he; subst ha
      obtain ⟨child', hchild', hle⟩ := hlow _ _ hchild
      exact .unary hedge hchild' (add_le_add hle le_rfl)
    · exact (h.supports he).lowered hlow
  · intro a e he
    rw [getElem?_insert_eq] at he
    split at he
    · rename_i ha
      subst ha
      exact ⟨_, .unary (by rw [getElem?_insert_eq, if_pos rfl]) (hbelow.insert_of_not_mem hparent)⟩
    · obtain ⟨path, hpath⟩ := h.chain he
      exact Chain.exists_insert hbelow hparent hpath

theorem Grounded.steps [AddLeftMono κ] [AddRightMono κ] (hg : g.Indexed)
    (hseed : ∀ a e, seed a e → ∀ b, e.step ≠ .unary b) {old new : Cell κ} (h : Grounded g seed old)
    (hsteps : UnarySteps g old new) : Grounded g seed new := by
  induction hsteps with
  | refl => exact h
  | tail _ hstep ih => exact ih.step hg hseed hstep

end Support

end Cell

/-! ## Moments of the fill -/

section Moments

variable {ρ κ : Type} [NatCast ρ] [LT ρ] [DecidableLT ρ] [Surprisal ρ κ] [LinearOrder κ] [Add κ]

/-- The cells at the time when a span is filled: those of the shorter spans. -/
def cellBefore (g : Grammar ρ κ) (scorer : TagScorer ρ) (words : List String) (start stop : Nat) :
    Nat → Nat → Cell κ :=
  cellIn (levelsUpTo g scorer words.toArray (stop - start - 1))

def initialCell (g : Grammar ρ κ) (scorer : TagScorer ρ) (words : List String) (start stop : Nat) : Cell κ :=
  Cell.initial g scorer words.toArray (levelsUpTo g scorer words.toArray (stop - start - 1)) start (stop - start)

/-- The cell in the course of a pass, when `k` edges have been followed. -/
def Cell.midPass (g : Grammar ρ κ) (cell : Cell κ) (k : Nat) : Cell κ :=
  (((cell.unaryEdges g).take k).foldl Pass.follow ⟨cell, false⟩).cell

/-- The cell of a span at some moment of the fill: when some of its tags or combinations have been entered, or
in the course of a pass of its closure, when some of the edges have been followed. -/
inductive Moment (g : Grammar ρ κ) (scorer : TagScorer ρ) (words : List String) (start stop : Nat) : Cell κ → Prop
  | entering (k : Nat) : Moment g scorer words start stop (Cell.initialUpTo g scorer words.toArray
      (levelsUpTo g scorer words.toArray (stop - start - 1)) start (stop - start) k)
  | closing (passes k : Nat) : Moment g scorer words start stop
      ((Cell.afterPasses g (initialCell g scorer words start stop) passes).midPass g k)

/-- What the last step of a derivation names is there: a single word, a child in the same cell, or two parts of
the span, neither of them empty, with their symbols. -/
def Step.Resolves (cellAt : Nat → Nat → Cell κ) (cell : Cell κ) (start stop : Nat) : Step → Prop
  | .lexical => stop = start + 1
  | .unary child => child ∈ cell
  | .binary split left right =>
    start < split ∧ split < stop ∧ left ∈ cellAt start split ∧ right ∈ cellAt split stop

variable {g : Grammar ρ κ} {scorer : TagScorer ρ} {words : List String} {start stop : Nat} {cell : Cell κ}

theorem moment_cell_fill (g : Grammar ρ κ) (scorer : TagScorer ρ) (hlt : start < stop) (hstop : stop ≤ words.length) :
    Moment g scorer words start stop ((Chart.fill g scorer words).cell start stop) := by
  rw [Chart.cell_fill hlt hstop, Cell.close_eq]
  exact .closing _ 0

omit [NatCast ρ] [LT ρ] [DecidableLT ρ] [Surprisal ρ κ] in
theorem Cell.midPass_steps (cell : Cell κ) (k : Nat) : UnarySteps g cell (cell.midPass g k) :=
  Pass.foldl_follow_steps _ ⟨cell, false⟩
    fun edge he => cell.exists_of_mem_unaryEdges edge (List.mem_of_mem_take he)

omit [DecidableLT ρ] [LinearOrder κ] in
theorem Seed.step_ne_unary {cellAt : Nat → Nat → Cell κ} (a : Nat) (e : Entry κ)
    (h : Seed g scorer words cellAt start stop a e) (b : Nat) : e.step ≠ .unary b := by
  cases h <;> simp

/-- At every moment all entries are supported and have chains. -/
theorem Moment.grounded [AddLeftMono κ] [AddRightMono κ] (hg : g.Indexed) (hlt : start < stop)
    (hstop : stop ≤ words.length) (h : Moment g scorer words start stop cell) :
    Cell.Grounded g (Seed g scorer words (cellBefore g scorer words start stop) start stop) cell := by
  cases h with
  | entering k => exact Cell.grounded_of_seeds Seed.step_ne_unary fun a e he => initialUpTo_seed hg hlt hstop he
  | closing passes k =>
    have hinitial : Cell.Grounded g (Seed g scorer words (cellBefore g scorer words start stop) start stop)
        (initialCell g scorer words start stop) :=
      Cell.grounded_of_seeds Seed.step_ne_unary fun a e he => initial_seed hg hlt hstop he
    exact hinitial.steps hg Seed.step_ne_unary ((Cell.afterPasses_steps _ passes).trans (Cell.midPass_steps _ k))

omit [DecidableLT ρ] in
theorem Cell.Supports.resolves {cellAt : Nat → Nat → Cell κ} {a : Nat} {e : Entry κ}
    (h : Supports g (Seed g scorer words cellAt start stop) cell a e) : e.step.Resolves cellAt cell start stop := by
  cases h with
  | seed hs =>
    cases hs with
    | tagging hone => exact hone
    | combination hlo hhi _ hl hr => exact ⟨hlo, hhi, mem_iff_exists.2 ⟨_, hl⟩, mem_iff_exists.2 ⟨_, hr⟩⟩
  | unary _ hchild _ => exact mem_iff_exists.2 ⟨_, hchild⟩

omit [DecidableLT ρ] in
theorem Cell.Supports.lt (hg : g.Indexed) {cellAt : Nat → Nat → Cell κ} {a : Nat} {e : Entry κ}
    (h : Supports g (Seed g scorer words cellAt start stop) cell a e) : a < g.numSymbols := by
  cases h with
  | seed hs =>
    cases hs with
    | tagging _ _ _ hnum _ => exact hg.number_lt hnum
    | combination _ _ hedge _ _ => exact hg.binary_lt hedge
  | unary hedge _ _ => exact hg.unary_lt hedge

omit [DecidableLT ρ] in
/-- A chain is no longer than the grammar has symbols. -/
theorem Cell.Grounded.length_le (hg : g.Indexed) {cellAt : Nat → Nat → Cell κ}
    (h : Grounded g (Seed g scorer words cellAt start stop) cell) {a : Nat} {path : List Nat}
    (hpath : Chain cell a path) : path.length ≤ g.numSymbols := by
  have hsub : path.toFinset ⊆ Finset.range g.numSymbols := by
    intro b hb
    obtain ⟨e, he⟩ := hpath.mem_of_mem (List.mem_toFinset.1 hb)
    exact Finset.mem_range.2 ((h.supports he).lt hg)
  have hcard := Finset.card_le_card hsub
  rwa [List.toFinset_card_of_nodup hpath.nodup, Finset.card_range] at hcard

end Moments

end Constituency
