/-
Reading derivations off a chart. `Reads` is what a tree has to be for its nodes to follow the steps of the
chart; `tree?` finds such a tree for every entry of a filled chart once it may go as deep as `depthLimit` says
(`exists_tree?`). It needs a level for each symbol of the chain that it is on, and after that as many levels for
each word that the span is shorter by as a chain can be long.
-/
import Constituency.Chart.Derivation
import Constituency.Proofs.Chart.Chains

namespace Constituency

/-! ## Unary chains of trees -/

/-- The labels from a node down along only children that are not leaves. -/
def Tree.unaryChain : Tree → List String
  | .node l [t] => if t.isLeaf then [l] else l :: t.unaryChain
  | .node l _ => [l]

theorem Tree.unaryChain_node_of_isLeaf {l : String} {t : Tree} (h : t.isLeaf = true) :
    (Tree.node l [t]).unaryChain = [l] := by
  rw [Tree.unaryChain, if_pos h]

theorem Tree.unaryChain_node {l : String} {t : Tree} (h : t.isLeaf = false) :
    (Tree.node l [t]).unaryChain = l :: t.unaryChain := by
  rw [Tree.unaryChain, if_neg (by simp [h])]

namespace Chart

variable {ρ κ : Type}

/-! ## Trees that follow the steps -/

/-- The tree of a symbol over a span, as the steps of the chart say. -/
inductive Reads (g : Grammar ρ κ) (words : List String) (c : Chart κ) : Nat → Nat → Nat → Tree → Prop
  | lexical {a start stop : Nat} {label word : String} {cost : κ} : g.symbols.name? a = some label →
      (c.cell start stop)[a]? = some ⟨cost, .lexical⟩ → words[start]? = some word →
      Reads g words c a start stop (.preterminal label word)
  | unary {a b start stop : Nat} {label : String} {cost : κ} {t : Tree} : g.symbols.name? a = some label →
      (c.cell start stop)[a]? = some ⟨cost, .unary b⟩ → Reads g words c b start stop t →
      Reads g words c a start stop (.node label [t])
  | binary {a l r start split stop : Nat} {label : String} {cost : κ} {s t : Tree} :
      g.symbols.name? a = some label → (c.cell start stop)[a]? = some ⟨cost, .binary split l r⟩ →
      Reads g words c l start split s → Reads g words c r split stop t →
      Reads g words c a start stop (.node label [s, t])

variable {g : Grammar ρ κ} {words : List String} {c : Chart κ}

theorem reads_of_tree? : ∀ {depth a start stop : Nat} {t : Tree},
    c.tree? g words.toArray depth a start stop = some t → Reads g words c a start stop t
  | 0, _, _, _, _, h => by cases h
  | depth + 1, a, start, stop, t, h => by
    simp only [tree?, Option.bind_eq_bind, Option.bind_eq_some_iff] at h
    obtain ⟨label, hlabel, ⟨cost, step⟩, he, h⟩ := h
    cases step with
    | lexical =>
      simp only [Option.bind_eq_some_iff, Option.pure_def, Option.some.injEq] at h
      obtain ⟨word, hword, rfl⟩ := h
      exact .lexical hlabel he (by simpa using hword)
    | unary b =>
      simp only [Option.bind_eq_some_iff, Option.pure_def, Option.some.injEq] at h
      obtain ⟨t, ht, rfl⟩ := h
      exact .unary hlabel he (reads_of_tree? ht)
    | binary split l r =>
      simp only [Option.bind_eq_some_iff, Option.pure_def, Option.some.injEq] at h
      obtain ⟨s, hs, t, ht, rfl⟩ := h
      exact .binary hlabel he (reads_of_tree? hs) (reads_of_tree? ht)

theorem Reads.isLeaf {a start stop : Nat} {t : Tree} (h : Reads g words c a start stop t) : t.isLeaf = false := by
  cases h <;> rfl

theorem Reads.name? {a start stop : Nat} {t : Tree} (h : Reads g words c a start stop t) :
    g.symbols.name? a = some t.label := by
  cases h <;> assumption

/-- Below a tree that was read off are words and trees that were read off. -/
theorem Reads.of_mem_subtrees {a start stop : Nat} {t : Tree} (h : Reads g words c a start stop t) :
    ∀ s ∈ t.subtrees, s.isLeaf = true ∨ ∃ b i j, Reads g words c b i j s := by
  induction h with
  | lexical hlabel he hword =>
    refine Tree.forall_mem_subtrees_node.2 ⟨.inr ⟨_, _, _, .lexical hlabel he hword⟩, ?_⟩
    simp [Tree.leaf, Tree.subtrees_node]
  | unary hlabel he ht ih =>
    exact Tree.forall_mem_subtrees_node.2 ⟨.inr ⟨_, _, _, .unary hlabel he ht⟩, by simpa using ih⟩
  | binary hlabel he hl hr ihl ihr =>
    exact Tree.forall_mem_subtrees_node.2 ⟨.inr ⟨_, _, _, .binary hlabel he hl hr⟩, by simpa using ⟨ihl, ihr⟩⟩

theorem Reads.unaryChain_eq [LE κ] [Add κ] (hg : g.Indexed) {a start stop : Nat} {t : Tree}
    (h : Reads g words c a start stop t) :
    ∃ path, Cell.Chain (c.cell start stop) a path ∧ t.unaryChain.map g.symbols.number? = path.map some := by
  induction h with
  | lexical hlabel he =>
    refine ⟨_, .stop he (by simp), ?_⟩
    rw [Tree.preterminal, Tree.unaryChain_node_of_isLeaf rfl, List.map_singleton, List.map_singleton,
      hg.number_iff.2 hlabel]
  | unary hlabel he ht ih =>
    obtain ⟨path, hpath, hnumbers⟩ := ih
    refine ⟨_, .unary he hpath, ?_⟩
    rw [Tree.unaryChain_node ht.isLeaf, List.map_cons, List.map_cons, hg.number_iff.2 hlabel, hnumbers]
  | binary hlabel he =>
    refine ⟨_, .stop he (by simp), ?_⟩
    rw [Tree.unaryChain, List.map_singleton, List.map_singleton, hg.number_iff.2 hlabel]
    simp

/-- No label is repeated on the unary chain of a tree that was read off. -/
theorem Reads.nodup_unaryChain [LE κ] [Add κ] (hg : g.Indexed) {a start stop : Nat} {t : Tree}
    (h : Reads g words c a start stop t) : t.unaryChain.Nodup := by
  obtain ⟨path, hpath, hnumbers⟩ := h.unaryChain_eq hg
  have hnodup : (path.map some).Nodup := hpath.nodup.map (Option.some_injective _)
  rw [← hnumbers] at hnodup
  exact hnodup.of_map _

/-! ## Depth -/

/-- From a depth on the tree of a symbol over a span is found. -/
def FoundFrom (g : Grammar ρ κ) (words : List String) (c : Chart κ) (n a start stop : Nat) (t : Tree) : Prop :=
  ∀ depth, n ≤ depth → c.tree? g words.toArray depth a start stop = some t

section FoundFrom

variable {a start stop m n : Nat} {label : String} {cost : κ} {s t : Tree}

theorem FoundFrom.weaken (h : FoundFrom g words c n a start stop t) (hnm : n ≤ m) :
    FoundFrom g words c m a start stop t :=
  fun depth hdepth => h depth (hnm.trans hdepth)

theorem foundFrom_lexical {word : String} (hname : g.symbols.name? a = some label)
    (he : (c.cell start stop)[a]? = some ⟨cost, .lexical⟩) (hword : words[start]? = some word) :
    FoundFrom g words c 1 a start stop (.preterminal label word) := by
  intro depth hdepth
  obtain ⟨depth, rfl⟩ := Nat.exists_eq_add_of_le' hdepth
  simp [tree?, hname, he, hword]

theorem foundFrom_unary {b : Nat} (hname : g.symbols.name? a = some label)
    (he : (c.cell start stop)[a]? = some ⟨cost, .unary b⟩) (ht : FoundFrom g words c n b start stop t) :
    FoundFrom g words c (n + 1) a start stop (.node label [t]) := by
  intro depth hdepth
  obtain ⟨depth, rfl⟩ : ∃ d, depth = d + 1 := ⟨depth - 1, by omega⟩
  simp [tree?, hname, he, ht depth (by omega)]

theorem foundFrom_binary {split l r : Nat} (hname : g.symbols.name? a = some label)
    (he : (c.cell start stop)[a]? = some ⟨cost, .binary split l r⟩) (hs : FoundFrom g words c n l start split s)
    (ht : FoundFrom g words c n r split stop t) :
    FoundFrom g words c (n + 1) a start stop (.node label [s, t]) := by
  intro depth hdepth
  obtain ⟨depth, rfl⟩ : ∃ d, depth = d + 1 := ⟨depth - 1, by omega⟩
  simp [tree?, hname, he, hs depth (by omega), ht depth (by omega)]

end FoundFrom

/-! ## Every entry has a tree -/

section Fill

variable [NatCast ρ] [LT ρ] [DecidableLT ρ] [Surprisal ρ κ] [LinearOrder κ] [Add κ] [AddLeftMono κ] [AddRightMono κ]
  {scorer : TagScorer ρ}

/-- In the finished chart all entries are supported and have chains. -/
theorem grounded_fill (hg : g.Indexed) (scorer : TagScorer ρ) (words : List String) (start stop : Nat) :
    Cell.Grounded g (Seed g scorer words (Chart.fill g scorer words).cell start stop)
      ((Chart.fill g scorer words).cell start stop) := by
  by_cases h : start < stop ∧ stop ≤ words.length
  · have hbefore := (moment_cell_fill g scorer h.1 h.2).grounded hg h.1 h.2
    refine ⟨fun he => ?_, hbefore.chain⟩
    cases hbefore.supports he with
    | seed hs => exact .seed ((seed_fill_iff h.2).1 hs)
    | unary hedge hchild hle => exact .unary hedge hchild hle
  · rw [cell_fill_of_not h]
    constructor <;> simp

theorem exists_foundFrom (hg : g.Indexed) (scorer : TagScorer ρ) (words : List String) :
    ∀ (length start stop : Nat), stop - start = length → ∀ (a : Nat) (path : List Nat),
      Cell.Chain ((Chart.fill g scorer words).cell start stop) a path → ∃ t,
        FoundFrom g words (Chart.fill g scorer words) ((length - 1) * g.numSymbols + path.length) a start stop t := by
  intro length
  induction length using Nat.strong_induction_on with
  | _ length ih =>
    intro start stop hlength a path hpath
    have hgrounded := grounded_fill hg scorer words
    have hlabel {b : Nat} {e : Entry κ} (he : ((Chart.fill g scorer words).cell start stop)[b]? = some e) :=
      SymbolTable.exists_name? (((hgrounded start stop).supports he).lt hg)
    -- a shorter span needs fewer levels by as many as its own chain can take
    have hshorter {i j b : Nat} (hb : b ∈ (Chart.fill g scorer words).cell i j) (hlt : i < j)
        (hshort : j - i < length) :
        ∃ t, FoundFrom g words (Chart.fill g scorer words) ((length - 1) * g.numSymbols) b i j t := by
      obtain ⟨e, he⟩ := Cell.mem_iff_exists.1 hb
      obtain ⟨below, hbelow⟩ := (hgrounded i j).chain he
      obtain ⟨t, ht⟩ := ih _ hshort i j rfl b below hbelow
      refine ⟨t, ht.weaken ?_⟩
      calc (j - i - 1) * g.numSymbols + below.length
          ≤ (j - i - 1) * g.numSymbols + g.numSymbols :=
            Nat.add_le_add_left ((hgrounded i j).length_le hg hbelow) _
        _ = (j - i - 1 + 1) * g.numSymbols := (Nat.succ_mul ..).symm
        _ ≤ (length - 1) * g.numSymbols := Nat.mul_le_mul_right _ (by omega)
    induction hpath with
    | @stop a e he hstop =>
      obtain ⟨label, hname⟩ := hlabel he
      have hresolves := ((hgrounded start stop).supports he).resolves
      have hspan := span_of_mem (Cell.mem_iff_exists.2 ⟨e, he⟩)
      obtain ⟨cost, step⟩ := e
      cases step with
      | lexical =>
        have hword : words[start]? = some words[start] := List.getElem?_eq_getElem _
        exact ⟨_, (foundFrom_lexical hname he hword).weaken (Nat.le_add_left _ _)⟩
      | unary b => exact absurd rfl (hstop b)
      | binary split l r =>
        obtain ⟨hlo, hhi, hl, hr⟩ := hresolves
        obtain ⟨s, hs⟩ := hshorter hl hlo (by omega)
        obtain ⟨t, ht⟩ := hshorter hr hhi (by omega)
        exact ⟨_, foundFrom_binary hname he hs ht⟩
    | unary he _ ih =>
      obtain ⟨label, hname⟩ := hlabel he
      obtain ⟨t, ht⟩ := ih
      exact ⟨_, foundFrom_unary hname he ht⟩

/-- Every entry of a filled chart has a tree, the same one at any depth that is not below the limit. -/
theorem exists_tree? (hg : g.Indexed) {start stop a : Nat} (ha : a ∈ (Chart.fill g scorer words).cell start stop) :
    ∃ t, ∀ depth, (Chart.fill g scorer words).depthLimit g ≤ depth →
      (Chart.fill g scorer words).tree? g words.toArray depth a start stop = some t := by
  obtain ⟨e, he⟩ := Cell.mem_iff_exists.1 ha
  obtain ⟨path, hpath⟩ := (grounded_fill hg scorer words start stop).chain he
  obtain ⟨t, ht⟩ := exists_foundFrom hg scorer words _ start stop rfl a path hpath
  refine ⟨t, ht.weaken ?_⟩
  have hlength := (grounded_fill hg scorer words start stop).length_le hg hpath
  have hstop := (span_of_mem ha).2
  calc (stop - start - 1) * g.numSymbols + path.length
      ≤ words.length * g.numSymbols + g.numSymbols :=
        Nat.add_le_add (Nat.mul_le_mul_right _ (by omega)) hlength
    _ = (words.length + 1) * g.numSymbols := (Nat.succ_mul ..).symm
    _ ≤ (words.length + 1) * (g.numSymbols + 1) := Nat.mul_le_mul_left _ (Nat.le_succ _)

end Fill

end Chart

/-! ## Steps are well founded -/

section WellFounded

variable {ρ κ : Type} [NatCast ρ] [LT ρ] [DecidableLT ρ] [Surprisal ρ κ] [LinearOrder κ] [Add κ]
  {g : Grammar ρ κ} {scorer : TagScorer ρ} {words : List String} {start : String} {d : Derivation κ}

/-- A derivation is read off the entry of the start symbol over the whole sentence. -/
theorem Grammar.exists_of_derive? (h : g.derive? scorer words start = some d) :
    ∃ a e, g.symbols.number? start = some a ∧
      ((Chart.fill g scorer words).cell 0 words.length)[a]? = some e ∧ e.cost = d.cost ∧
      Chart.Reads g words (Chart.fill g scorer words) a 0 words.length d.tree := by
  simp only [derive?, Option.bind_eq_bind, Option.bind_eq_some_iff, Option.pure_def, Option.some.injEq,
    Chart.cost?, Option.map_eq_some_iff] at h
  obtain ⟨-, -, a, ha, cost, ⟨e, he, rfl⟩, t, ht, rfl⟩ := h
  exact ⟨a, e, ha, he, rfl, Chart.reads_of_tree? ht⟩

/-- At every moment of the fill each step names entries that are there, and going down along unary steps meets no
symbol twice and ends. So every entry of the finished chart has a tree, found at any depth from the limit on, and
in a derivation no label is repeated on a unary chain. -/
theorem steps_wellFounded [AddLeftMono κ] [AddRightMono κ] [LE ρ] [LawfulSurprisal ρ κ] {rules : List (Rule ρ)}
    (hrules : AtMostCertain rules) (scorer : TagScorer ρ) (words : List String) :
    let g : Grammar ρ κ := .ofRules rules
    let chart := Chart.fill g scorer words
    (∀ start stop cell, start < stop → stop ≤ words.length → Moment g scorer words start stop cell →
      ∀ (a : Nat) (e : Entry κ), cell[a]? = some e →
        e.step.Resolves (cellBefore g scorer words start stop) cell start stop ∧
        ∃ path, Cell.Chain cell a path ∧ path.Nodup) ∧
    (∀ start stop a, a ∈ chart.cell start stop → ∃ t, ∀ depth, chart.depthLimit g ≤ depth →
      chart.tree? g words.toArray depth a start stop = some t) ∧
    ∀ start d, g.derive? scorer words start = some d → ∀ t ∈ d.tree.subtrees, t.unaryChain.Nodup := by
  intro g chart
  have hg := Grammar.indexed_ofRules (κ := κ) hrules
  refine ⟨?_, fun start stop a ha => Chart.exists_tree? hg ha, ?_⟩
  · intro start stop cell hlt hstop hmoment a e he
    have hgrounded := hmoment.grounded hg hlt hstop
    obtain ⟨path, hpath⟩ := hgrounded.chain he
    exact ⟨(hgrounded.supports he).resolves, path, hpath, hpath.nodup⟩
  · intro start d hd t ht
    obtain ⟨_, _, -, -, -, hreads⟩ := Grammar.exists_of_derive? hd
    rcases hreads.of_mem_subtrees t ht with hleaf | ⟨_, _, _, hreads⟩
    · obtain ⟨w, _ | ⟨_, _⟩⟩ := t
      · simp [Tree.unaryChain]
      · cases hleaf
    · exact hreads.nodup_unaryChain hg

end WellFounded

/-- Rules with a cycle that costs nothing. -/
def tiedRules : List (Rule ℚ) := [⟨.unary "A" "B", 1⟩, ⟨.unary "B" "A", 1⟩, ⟨.unary "S" "B", 1⟩]

/-- A scorer under which both symbols on the cycle can be the tag of the word, equally well. -/
def tiedTags : TagScorer ℚ := .ofTable [(⟨"time", "A"⟩, 1 / 2), (⟨"time", "B"⟩, 1 / 2)]

theorem steps_wellFounded_tied : AtMostCertain tiedRules ∧
    ∃ d, (.ofRules tiedRules : Grammar ℚ ℤ).derive? tiedTags ["time"] "S" = some d ∧
      d.tree = .node "S" [.node "B" [.preterminal "A" "time"]] ∧ ∀ t ∈ d.tree.subtrees, t.unaryChain.Nodup := by
  have hrules : AtMostCertain tiedRules := by unfold AtMostCertain; decide +kernel
  have htree : ((.ofRules tiedRules : Grammar ℚ ℤ).derive? tiedTags ["time"] "S").map Derivation.tree =
      some (.node "S" [.node "B" [.preterminal "A" "time"]]) := by decide +kernel
  obtain ⟨d, hd, hdtree⟩ := Option.map_eq_some_iff.1 htree
  exact ⟨hrules, d, hd, hdtree, (steps_wellFounded hrules tiedTags ["time"]).2.2 "S" d hd⟩

end Constituency
