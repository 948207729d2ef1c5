/-
The written forms of a grammar and of a lexicon lose nothing. Each line is a row of fields with a space between them,
and fields without white space are read back from it (`Text.pieces_row`). The lines of a grammar are those of its rules
in another order, and the number of fields tells the two kinds of rules apart, whatever the symbols look like
(`Rule.ofFields?_fields`). The taggings of a lexicon are those of its trees, each of them once and in the order of the
words and then the tags (`Lexicon.taggings_sorted`, `Lexicon.mem_taggings_iff`), so that they come out of a loop over
the words and the tags that leaves out what was not counted (`Lexicon.taggings_eq`).
-/
import Constituency.Decimal.Shortest
import Constituency.Grammar.Listing
import Constituency.Proofs.Counting.Modes
import Constituency.Proofs.Grammar.Representation
import Constituency.Proofs.Lexicon.Agreement
import Constituency.Text.Blank
import Constituency.Text.Separated

namespace Constituency

/-! ## Rows of fields -/

namespace Text

/-- The string has no white space in it. -/
def Unspaced (s : String) : Prop := ∀ c ∈ s.toList, isWhiteSpace c = false

instance : DecidablePred Unspaced := fun s => List.decidableBAll (isWhiteSpace · = false) s.toList

theorem Unspaced.notMem {s : String} (h : Unspaced s) {c : Char} (hc : isWhiteSpace c = true) : c ∉ s.toList := by
  intro hmem
  rw [h c hmem] at hc
  cases hc

/-- The parts of a string between marks. -/
def pieces (mark : Char) (s : String) : List String := (separated mark s.toList).map String.ofList

/-- The lines of a text, each with a line feed behind it. What follows the last one is a line if it is not empty. -/
def linesOf (text : String) : List String :=
  let lines := pieces '\n' text
  if lines.getLast? = some "" then lines.dropLast else lines

theorem separated_eq_splitOn {α : Type} [DecidableEq α] (mark : α) (items : List α) :
    separated mark items = items.splitOn mark := by
  have hpieces : ∀ piece ∈ separated mark items, mark ∉ piece := fun _ => not_mem_of_mem_separated
  have h := List.splitOn_intercalate mark hpieces (List.cons_ne_nil _ _)
  rw [intercalate_separated] at h
  exact h.symm

theorem pieces_intercalate {mark : Char} {ss : List String} (hne : ss ≠ []) (h : ∀ s ∈ ss, mark ∉ s.toList) :
    pieces mark ((String.ofList [mark]).intercalate ss) = ss := by
  rw [pieces, String.toList_intercalate, String.toList_ofList, separated_eq_splitOn,
    List.splitOn_intercalate mark (by simpa using h) (by simpa using hne), List.map_map]
  simp [Function.comp_def]

theorem unlines_eq : ∀ ls : List String, unlines ls = "\n".intercalate (ls ++ [""])
  | [] => rfl
  | l :: ls => by
    rw [unlines, List.map_cons, String.join_cons, ← unlines, unlines_eq ls, List.cons_append,
      String.intercalate_cons_of_ne_nil (by simp)]

theorem linesOf_unlines {ls : List String} (h : ∀ l ∈ ls, '\n' ∉ l.toList) : linesOf (unlines ls) = ls := by
  have hpieces : pieces '\n' (unlines ls) = ls ++ [""] := by
    rw [unlines_eq]
    refine pieces_intercalate (by simp) (List.forall_mem_append.2 ⟨h, by simp⟩)
  simp [linesOf, hpieces]

section Row

variable {row : List String} (h : ∀ field ∈ row, Unspaced field)

include h

theorem pieces_row (hne : row ≠ []) : pieces ' ' (" ".intercalate row) = row :=
  pieces_intercalate hne fun field hfield => (h field hfield).notMem rfl

theorem newline_notMem_row : '\n' ∉ (" ".intercalate row).toList := by
  induction row with
  | nil => simp
  | cons field row ih =>
    have hfield := (h field (List.mem_cons_self ..)).notMem (c := '\n') rfl
    cases row with
    | nil => simpa using hfield
    | cons next row =>
      have hrow := ih fun other hother => h other (List.mem_cons_of_mem _ hother)
      simpa [hfield] using hrow

end Row

end Text

/-! ## Rules -/

namespace Rule

variable {ρ : Type} (numeral : ρ → String) (r : Rule ρ)

/-- The rule with its probability as a numeral. -/
def withNumeral : Rule String := ⟨r.production, numeral r.probability⟩

/-- What is written of a rule, one part after the other. -/
def fields : List String :=
  r.production.parent :: "->" :: (r.production.children ++ [numeral r.probability])

/-- The symbols and the numeral of a rule have no white space in them. -/
def Unspaced : Prop := (∀ s ∈ r.production.symbols, Text.Unspaced s) ∧ Text.Unspaced (numeral r.probability)

/-- The rule that has been written, its probability left as a numeral. -/
def ofFields? : List String → Option (Rule String)
  | [parent, "->", child, p] => some ⟨.unary parent child, p⟩
  | [parent, "->", left, right, p] => some ⟨.binary parent left right, p⟩
  | _ => none

theorem write_eq : r.write numeral = " ".intercalate (r.fields numeral) := by
  rw [write, fields, show " -> " = " " ++ "->" ++ " " from rfl]
  cases r.production <;>
    simp only [Production.parent, Production.children, List.cons_append, List.nil_append, String.append_assoc,
      String.intercalate_cons_cons, String.intercalate_singleton]

/-- The number of parts is that of the children and three more. -/
theorem ofFields?_fields : ofFields? (r.fields numeral) = some (r.withNumeral numeral) := by
  rw [fields, withNumeral]
  cases r.production <;> rfl

variable {numeral r}

theorem Unspaced.forall_mem_fields (h : r.Unspaced numeral) : ∀ field ∈ r.fields numeral, Text.Unspaced field := by
  obtain ⟨hsymbols, hnumeral⟩ := h
  have harrow : Text.Unspaced "->" := by decide
  simpa [fields, Production.symbols, or_imp, forall_and, harrow, hnumeral] using hsymbols

theorem pieces_write (h : r.Unspaced numeral) : Text.pieces ' ' (r.write numeral) = r.fields numeral := by
  rw [write_eq, Text.pieces_row h.forall_mem_fields (List.cons_ne_nil _ _)]

theorem newline_notMem_write (h : r.Unspaced numeral) : '\n' ∉ (r.write numeral).toList := by
  rw [write_eq]
  exact Text.newline_notMem_row h.forall_mem_fields

theorem withNumeral_injOn {rules : Set (Rule ρ)} (h : Set.InjOn numeral (Rule.probability '' rules)) :
    Set.InjOn (Rule.withNumeral numeral) rules := by
  rintro ⟨p, a⟩ hr ⟨q, b⟩ hs heq
  obtain ⟨hprod, hnumeral⟩ := Rule.mk.inj heq
  obtain rfl : p = q := hprod
  obtain rfl : a = b := h (Set.mem_image_of_mem _ hr) (Set.mem_image_of_mem _ hs) hnumeral
  rfl

end Rule

/-! ## Grammars -/

/-- Lists that become rearrangements of one another under a map that tells their elements apart. -/
theorem perm_of_perm_map {α β : Type} {f : α → β} {xs ys : List α} (hinj : Set.InjOn f {a | a ∈ xs ++ ys})
    (h : (xs.map f).Perm (ys.map f)) : xs.Perm ys := by
  cases xs with
  | nil => rw [List.map_eq_nil_iff.1 h.nil_eq.symm]
  | cons x xs =>
    have : Nonempty α := ⟨x⟩
    have hback {zs : List α} (hzs : ∀ a ∈ zs, a ∈ x :: xs ++ ys) :
        (zs.map f).map (Function.invFunOn f {a | a ∈ x :: xs ++ ys}) = zs := by
      rw [List.map_map]
      exact (List.map_congr_left fun a ha => hinj.leftInvOn_invFunOn (hzs a ha)).trans (List.map_id zs)
    have hmap := h.map (Function.invFunOn f {a | a ∈ x :: xs ++ ys})
    rwa [hback fun a => List.mem_append_left ys, hback fun a => List.mem_append_right (x :: xs)] at hmap

namespace Grammar

variable {ρ κ : Type} (numeral : ρ → String)

/-- No symbol of a rule and no numeral has white space in it. -/
def Unspaced (g : Grammar ρ κ) : Prop := ∀ r ∈ g.rules, r.Unspaced numeral

/-- The rules that are written on the lines of a text. -/
def rulesIn (text : String) : List (Rule String) :=
  (Text.linesOf text).filterMap fun line => Rule.ofFields? (Text.pieces ' ' line)

/-- A text has a line for each rule of a grammar, copies included. The lines stand in the order of strings, and the
rules with their numerals are read back from them. -/
structure Lists (g : Grammar ρ κ) (text : String) : Prop where
  text_eq : text = unlines (Text.linesOf text)
  length_eq : (Text.linesOf text).length = g.rules.length
  sorted : (Text.linesOf text).Pairwise (· ≤ ·)
  rulesIn_perm : (rulesIn text).Perm (g.rules.map (Rule.withNumeral numeral))

variable {numeral} {g h : Grammar ρ κ}

theorem lines_perm (numeral : ρ → String) (g : Grammar ρ κ) :
    (g.lines numeral).Perm (g.rules.map (Rule.write numeral)) :=
  (stablySorted_sortedOn id _).perm

theorem lines_sorted (numeral : ρ → String) (g : Grammar ρ κ) : (g.lines numeral).Pairwise (· ≤ ·) :=
  (stablySorted_sortedOn id _).sorted.imp fun {a b} (h : (compareOfLessAndEq a b).isLE) =>
    (isLE_compareOfLessAndEq String.le_antisymm String.not_le String.le_total).1 h

theorem linesOf_listing (hg : g.Unspaced numeral) : Text.linesOf (g.listing numeral) = g.lines numeral := by
  refine Text.linesOf_unlines fun line hline => ?_
  obtain ⟨r, hr, rfl⟩ := List.mem_map.1 ((lines_perm numeral g).mem_iff.1 hline)
  exact Rule.newline_notMem_write (hg r hr)

theorem rulesIn_listing (hg : g.Unspaced numeral) :
    (rulesIn (g.listing numeral)).Perm (g.rules.map (Rule.withNumeral numeral)) := by
  rw [rulesIn, linesOf_listing hg]
  refine ((lines_perm numeral g).filterMap _).trans ?_
  rw [List.filterMap_map, ← List.filterMap_eq_map]
  refine .of_eq (List.filterMap_congr fun r hr => ?_)
  rw [Function.comp_apply, Rule.pieces_write (hg r hr), Rule.ofFields?_fields]
  rfl

theorem lists_listing (hg : g.Unspaced numeral) : g.Lists numeral (g.listing numeral) where
  text_eq := by rw [linesOf_listing hg, listing]
  length_eq := by rw [linesOf_listing hg, (lines_perm numeral g).length_eq, List.length_map]
  sorted := by
    rw [linesOf_listing hg]
    exact lines_sorted numeral g
  rulesIn_perm := rulesIn_listing hg

/-- Grammars with the same rules, in whatever order, are written alike. -/
theorem listing_eq_of_perm (hrules : g.rules.Perm h.rules) : g.listing numeral = h.listing numeral := by
  have hlines : g.lines numeral = h.lines numeral :=
    List.Perm.eq_of_pairwise (fun _ _ _ _ => String.le_antisymm) (lines_sorted numeral g) (lines_sorted numeral h)
      ((lines_perm numeral g).trans ((hrules.map _).trans (lines_perm numeral h).symm))
  rw [listing, hlines, listing]

theorem listing_eq_iff (hg : g.Unspaced numeral) (hh : h.Unspaced numeral)
    (hinj : Set.InjOn numeral (Rule.probability '' {r | r ∈ g.rules ++ h.rules})) :
    g.listing numeral = h.listing numeral ↔ g.rules.Perm h.rules := by
  refine ⟨fun heq => ?_, listing_eq_of_perm⟩
  have hread := (rulesIn_listing hg).symm
  rw [heq] at hread
  exact perm_of_perm_map (Rule.withNumeral_injOn hinj) (hread.trans (rulesIn_listing hh))

end Grammar

/-! ## Lexicons -/

/-- Taggings in the order of their words and, for one word, of their tags. -/
def Tagging.Before (x y : Tagging) : Prop := x.word < y.word ∨ x.word = y.word ∧ x.tag < y.tag

theorem Tagging.compare_eq_lt_iff {x y : Tagging} : compare x y = .lt ↔ x.Before y := by
  show compare [x.word, x.tag] [y.word, y.tag] = .lt ↔ _
  simp only [List.compare_cons_cons, List.compare_nil_nil, Ordering.then_eq, Ordering.then_eq_lt,
    Std.compare_eq_iff_eq]
  exact or_congr compareOfLessAndEq_eq_lt (and_congr_right' compareOfLessAndEq_eq_lt)

namespace Lexicon

section Taggings

variable {ts : Forest}

theorem words_sorted (lex : Lexicon) : lex.words.Pairwise (· < ·) := Tally.keys_sorted _

theorem mem_words_iff {word : String} :
    word ∈ (ofTrees ts).words ↔ ∃ t ∈ ts, ∃ tag, .preterminal tag word ∈ t.subtrees := by
  simp only [(observed_ofTrees ts).mem_words_iff, List.mem_map, List.mem_flatMap, Tree.mem_taggings_iff]
  constructor
  · rintro ⟨x, ⟨t, ht, hx⟩, rfl⟩
    exact ⟨t, ht, x.tag, hx⟩
  · rintro ⟨t, ht, tag, hx⟩
    exact ⟨⟨word, tag⟩, ⟨t, ht, hx⟩, rfl⟩

theorem taggings_sorted (lex : Lexicon) : lex.taggings.Pairwise Tagging.Before := by
  have hsorted : lex.taggings.Pairwise fun x y => compare x y = .lt := Std.TreeMap.ordered_keys
  exact hsorted.imp Tagging.compare_eq_lt_iff.1

theorem mem_taggings {x : Tagging} : x ∈ (ofTrees ts).taggings ↔ x ∈ ts.flatMap Tree.taggings := by
  rw [taggings, ofTrees, taggingCounts_foldl, Tally.mem_keys_addAll]
  simp [empty]

theorem mem_taggings_iff {x : Tagging} :
    x ∈ (ofTrees ts).taggings ↔ ∃ t ∈ ts, .preterminal x.tag x.word ∈ t.subtrees := by
  simp only [mem_taggings, List.mem_flatMap, Tree.mem_taggings_iff]

/-- The taggings that were observed, found by going through all words and, for each of them, all tags. -/
theorem taggings_eq (ts : Forest) : (ofTrees ts).taggings = (ofTrees ts).words.flatMap fun word =>
    ((ofTrees ts).tags.filter fun tag => 0 < (ofTrees ts).taggingCount word tag).map (Tagging.mk word) := by
  refine eq_of_mem_iff_of_ordered Std.TreeMap.ordered_keys ?_ fun x => ?_
  · simp only [Tagging.compare_eq_lt_iff]
    rw [List.pairwise_flatMap]
    constructor
    · intro word _
      rw [List.pairwise_map]
      exact ((sorted_tags _).filter _).imp fun hlt => .inr ⟨rfl, hlt⟩
    · refine (words_sorted _).imp fun hlt x hx y hy => ?_
      obtain ⟨tag, -, rfl⟩ := List.mem_map.1 hx
      obtain ⟨other, -, rfl⟩ := List.mem_map.1 hy
      exact .inl hlt
  · have hcount (word tag : String) :
        0 < (ofTrees ts).taggingCount word tag ↔ ⟨word, tag⟩ ∈ (ofTrees ts).taggings := by
      rw [taggingCount_ofTrees, List.count_pos_iff, mem_taggings]
    simp only [List.mem_flatMap, List.mem_map, List.mem_filter, decide_eq_true_eq, hcount]
    constructor
    · intro hx
      have hseen := mem_taggings.1 hx
      exact ⟨x.word, mem_words_of_mem ts hseen, x.tag, ⟨mem_tags_of_mem ts hseen, hx⟩, rfl⟩
    · rintro ⟨word, -, tag, ⟨-, hx⟩, rfl⟩
      exact hx

end Taggings

variable {ρ : Type} [NatCast ρ] [Add ρ] [Mul ρ] [Div ρ] (numeral : ρ → String)

/-- No word, no tag and no numeral of a tagging in the trees has white space in it. -/
def Unspaced (ts : Forest) : Prop :=
  ∀ t ∈ ts, ∀ tag word, .preterminal tag word ∈ t.subtrees →
    Text.Unspaced tag ∧ Text.Unspaced word ∧ Text.Unspaced (numeral ((ofTrees ts).score word tag))

/-- The parts of the line of a tagging. -/
def row (lex : Lexicon) (x : Tagging) : List String := [x.tag, x.word, numeral (lex.score x.word x.tag)]

/-- One text has a line for each word of the trees, in order, and another one a line for each tagging of the trees, in
the order of the words and then of the tags. -/
structure Lists (ts : Forest) (words listing : String) : Prop where
  words_eq : words = unlines (Text.linesOf words)
  words_sorted : (Text.linesOf words).Pairwise (· < ·)
  mem_words_iff (word : String) :
    word ∈ Text.linesOf words ↔ ∃ t ∈ ts, ∃ tag, .preterminal tag word ∈ t.subtrees
  listing_eq : listing = unlines (Text.linesOf listing)
  rows : ∃ xs : List Tagging, (Text.linesOf listing).map (Text.pieces ' ') = xs.map (row numeral (ofTrees ts)) ∧
    xs.Pairwise Tagging.Before ∧ ∀ x, x ∈ xs ↔ ∃ t ∈ ts, .preterminal x.tag x.word ∈ t.subtrees
  /-- The lines come out of a loop over the words and the tags. -/
  lines_eq : Text.linesOf listing = (Text.linesOf words).flatMap fun word =>
    ((ofTrees ts).tags.filter fun tag => 0 < (ofTrees ts).taggingCount word tag).map fun tag =>
      " ".intercalate (row numeral (ofTrees ts) ⟨word, tag⟩)

variable {numeral} {ts : Forest}

theorem unspaced_iff : Unspaced numeral ts ↔
    ∀ x ∈ (ofTrees ts).taggings, ∀ field ∈ row numeral (ofTrees ts) x, Text.Unspaced field := by
  simp only [Unspaced, mem_taggings_iff, row, List.forall_mem_cons, List.not_mem_nil, false_imp_iff, implies_true,
    and_true]
  constructor
  · rintro h x ⟨t, ht, hx⟩
    exact h t ht x.tag x.word hx
  · intro h t ht tag word hx
    exact h ⟨word, tag⟩ ⟨t, ht, hx⟩

theorem lines_eq_map_row (numeral : ρ → String) (lex : Lexicon) :
    lex.lines numeral = lex.taggings.map fun x => " ".intercalate (row numeral lex x) := by
  simp only [lines, row, String.intercalate_cons_cons, String.intercalate_singleton, String.append_assoc]

section Written

variable (h : Unspaced numeral ts)

include h

theorem linesOf_wordListing : Text.linesOf (ofTrees ts).wordListing = (ofTrees ts).words := by
  refine Text.linesOf_unlines fun word hword => ?_
  obtain ⟨t, ht, tag, htagging⟩ := mem_words_iff.1 hword
  exact (h t ht tag word htagging).2.1.notMem rfl

theorem linesOf_listing : Text.linesOf ((ofTrees ts).listing numeral) = (ofTrees ts).lines numeral := by
  refine Text.linesOf_unlines fun line hline => ?_
  rw [lines_eq_map_row] at hline
  obtain ⟨x, hx, rfl⟩ := List.mem_map.1 hline
  exact Text.newline_notMem_row (unspaced_iff.1 h x hx)

theorem lists_listing : Lists numeral ts (ofTrees ts).wordListing ((ofTrees ts).listing numeral) where
  words_eq := by rw [linesOf_wordListing h, wordListing]
  words_sorted := by
    rw [linesOf_wordListing h]
    exact words_sorted _
  mem_words_iff word := by rw [linesOf_wordListing h, Lexicon.mem_words_iff]
  listing_eq := by rw [linesOf_listing h, listing]
  rows := by
    refine ⟨(ofTrees ts).taggings, ?_, taggings_sorted _, fun x => mem_taggings_iff⟩
    rw [linesOf_listing h, lines_eq_map_row, List.map_map]
    exact List.map_congr_left fun x hx => Text.pieces_row (unspaced_iff.1 h x hx) (List.cons_ne_nil _ _)
  lines_eq := by
    rw [linesOf_listing h, linesOf_wordListing h, lines_eq_map_row, taggings_eq, List.map_flatMap]
    simp only [List.map_map, Function.comp_def]

end Written

end Lexicon

/-! ## What is written -/

section Listings

variable {ρ κ : Type} [NatCast ρ] [Add ρ] [Mul ρ] [Div ρ]

/-- A written grammar has a line for each rule, from which the rule can be read back, so that grammars are written alike
exactly when they have the same rules. What is written of a lexicon are the words and the taggings of its trees, each of
them once. -/
theorem listings_lose_nothing (numeral : ρ → String) :
    (∀ g : Grammar ρ κ, g.Unspaced numeral → g.Lists numeral (g.listing numeral)) ∧
      (∀ g h : Grammar ρ κ, g.Unspaced numeral → h.Unspaced numeral →
        Set.InjOn numeral (Rule.probability '' {r | r ∈ g.rules ++ h.rules}) →
        (g.listing numeral = h.listing numeral ↔ g.rules.Perm h.rules)) ∧
      ∀ ts : Forest, Lexicon.Unspaced numeral ts →
        Lexicon.Lists numeral ts (Lexicon.ofTrees ts).wordListing ((Lexicon.ofTrees ts).listing numeral) :=
  ⟨fun _ => Grammar.lists_listing, fun _ _ => Grammar.listing_eq_iff, fun _ => Lexicon.lists_listing⟩

/-- A grammar with arrows and a numeral among its symbols and with two copies of a rule. -/
def arrowGrammar : Grammar Float Float :=
  .ofRules [⟨.binary "->" "->" "->", 0.5⟩, ⟨.unary "->" "->", 0.5⟩, ⟨.unary "S" "0.5", 1⟩, ⟨.unary "->" "->", 0.5⟩]

/-- The grammar with one of the copies left out. -/
def arrowGrammarOnce : Grammar Float Float :=
  .ofRules [⟨.binary "->" "->" "->", 0.5⟩, ⟨.unary "->" "->", 0.5⟩, ⟨.unary "S" "0.5", 1⟩]

/-- Trees with an arrow and a numeral among their words. -/
def arrowTrees : Forest :=
  [.node "S" [.preterminal "V" "->", .preterminal "->" "0.5", .leaf "stray"], .preterminal "N" "->",
    .preterminal "N" "->"]

theorem listings_lose_nothing_arrows :
    arrowGrammar.Lists Decimal.shortest "-> -> -> -> 0.5\n-> -> -> 0.5\n-> -> -> 0.5\nS -> 0.5 1\n" ∧
      arrowGrammar.listing Decimal.shortest ≠ arrowGrammarOnce.listing Decimal.shortest ∧
      Lexicon.Lists (Decimal.shortest : Float → String) arrowTrees "->\n0.5\n"
        "N -> 0.8333333333333334\nV -> 1.25\n-> 0.5 1.5\n" := by
  obtain ⟨hlists, hiff, hlexicon⟩ := listings_lose_nothing (κ := Float) Decimal.shortest
  have hgrammar : arrowGrammar.Unspaced Decimal.shortest := by
    unfold Grammar.Unspaced Rule.Unspaced
    decide +kernel
  have honce : arrowGrammarOnce.Unspaced Decimal.shortest := by
    unfold Grammar.Unspaced Rule.Unspaced
    decide +kernel
  have htrees : Lexicon.Unspaced (Decimal.shortest : Float → String) arrowTrees :=
    Lexicon.unspaced_iff.2 (by decide +kernel)
  have hnumerals : ∀ r ∈ arrowGrammar.rules ++ arrowGrammarOnce.rules,
      ∀ s ∈ arrowGrammar.rules ++ arrowGrammarOnce.rules,
        Decimal.shortest r.probability = Decimal.shortest s.probability → r.probability = s.probability := by
    decide +kernel
  have hinj : Set.InjOn Decimal.shortest
      (Rule.probability '' {r | r ∈ arrowGrammar.rules ++ arrowGrammarOnce.rules}) := by
    rintro _ ⟨r, hr, rfl⟩ _ ⟨s, hs, rfl⟩ heq
    exact hnumerals r hr s hs heq
  refine ⟨?_, ?_, ?_⟩
  · have htext : arrowGrammar.listing Decimal.shortest =
        "-> -> -> -> 0.5\n-> -> -> 0.5\n-> -> -> 0.5\nS -> 0.5 1\n" := by decide +kernel
    exact htext ▸ hlists arrowGrammar hgrammar
  · rw [Ne, hiff _ _ hgrammar honce hinj]
    intro hperm
    have hlength : arrowGrammar.rules.length ≠ arrowGrammarOnce.rules.length := by decide +kernel
    exact hlength hperm.length_eq
  · have hwords : (Lexicon.ofTrees arrowTrees).wordListing = "->\n0.5\n" := by decide +kernel
    have htaggings : (Lexicon.ofTrees arrowTrees).listing (Decimal.shortest : Float → String) =
        "N -> 0.8333333333333334\nV -> 1.25\n-> 0.5 1.5\n" := by decide +kernel
    exact hwords ▸ htaggings ▸ hlexicon arrowTrees htrees

end Listings

end Constituency
