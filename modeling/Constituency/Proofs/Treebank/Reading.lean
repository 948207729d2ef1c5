/-
The reader accepts its language and nothing else. In one direction, the bracketings that are read consist of the lexemes
in front of what is left (`lexes_readNodes`), and they spell what the grammar allows. In the other, lexemes that the
grammar allows are read item by item, whatever stands behind them (`exists_readNodes_append`). A text is accepted when
only blanks are left, which is so at the end of a text with no white space but blanks.
-/
import Mathlib.Data.Set.Subsingleton
import Constituency.Proofs.Treebank.Language
import Constituency.Proofs.Treebank.Readers

namespace Constituency.Treebank

open Text

/-! ## Labels -/

theorem checkLabels_eq_ok {b : Bracketing} {t : Tree} : checkLabels b = .ok t ↔ b.tree? = some t := by
  unfold checkLabels
  cases b.tree? <;> simp

/-- The trees of a list of bracketings, when all labels are in order. -/
abbrev checkAll (bs : List Bracketing) : Except SyntaxError Forest := bs.mapM checkLabels

theorem checkAll_cons {b : Bracketing} {bs : List Bracketing} {ts : Forest} :
    checkAll (b :: bs) = .ok ts ↔ ∃ u us, b.tree? = some u ∧ checkAll bs = .ok us ∧ ts = u :: us := by
  simp only [← checkLabels_eq_ok]
  rw [checkAll, List.mapM_cons]
  cases hb : checkLabels b with
  | error e => simp [bind, Except.bind]
  | ok u =>
    cases hm : checkAll bs with
    | error e => simp [hm, bind, Except.bind]
    | ok us => simp [hm, bind, Except.bind, pure, Except.pure, eq_comm]

/-! ## Reading stays inside the language -/

/-- A label is a word at the start of the text, and without one the text stays as it is. -/
theorem lexes_readLabel (text : List Char) : Lexes text (labelLexemes (readLabel text).value) (readLabel text).rest := by
  by_cases word : ∃ w rest, Starts text (.word w) rest
  · obtain ⟨w, rest, first⟩ := word
    obtain ⟨value, left⟩ := readLabel_word first
    rw [value, left, labelLexemes, String.toList_ofList]
    exact .starts first
  · obtain ⟨value, left⟩ := readLabel_none fun w rest first => word ⟨w, rest, first⟩
    rw [value, left]
    exact .nil text

/-- The lexemes of a bracket, once its items are known to be read as theirs. -/
theorem lexes_bracket {body rest : List Char} (closes : skipBlanks (readItems (behindLabel body)).rest = ')' :: rest)
    (items : Lexes (behindLabel body) ((readItems (behindLabel body)).value.flatMap Bracketing.lexemes)
      (readItems (behindLabel body)).rest) :
    Lexes ('(' :: body) (Bracketing.bracket (readLabel (skipBlanks body)).value
      (readItems (behindLabel body)).value).lexemes rest := by
  have label := lexes_readLabel (skipBlanks body)
  rw [readLabel_rest] at label
  have closing := Lexes.blanks (readItems (behindLabel body)).rest
  rw [closes] at closing
  have inside := (label.trans items).trans (closing.trans (.starts (.closing rest)))
  have all := (Lexes.starts (.opening body)).trans ((Lexes.blanks body).trans inside)
  simpa using all

theorem lexes_readItems (text : List Char) :
    Lexes text ((readItems text).value.flatMap Bracketing.lexemes) (readItems text).rest := by
  induction text using induction_on_items with
  | stop text value left =>
    rw [value, left]
    exact .nil text
  | word text w rest first more =>
    obtain ⟨value, left⟩ := readItems_word first
    have := (Lexes.blanks text).trans ((Lexes.starts first).trans more)
    rw [value, left]
    simpa using this
  | bracket text body rest opens closes inside more =>
    obtain ⟨value, left⟩ := readItems_bracket opens closes
    have first := lexes_bracket closes inside
    rw [← opens] at first
    have := (Lexes.blanks text).trans (first.trans more)
    rw [value, left]
    simpa using this

/-- A bracket has no label only where no word stands behind it. -/
theorem outermost_bracket (body : List Char) :
    (Bracketing.bracket (readLabel (skipBlanks body)).value (readItems (behindLabel body)).value).Outermost := by
  intro label text first
  have none : ∀ w rest, ¬Starts (skipBlanks body) (.word w) rest := by
    intro w rest word
    rw [(readLabel_word word).1] at label
    nomatch label
  have start := lexes_readItems (behindLabel body)
  rw [← readLabel_rest, (readLabel_none none).2] at start first
  obtain ⟨items, value⟩ := List.head?_eq_some_iff.mp first
  rw [value] at start
  obtain ⟨rest, word, -⟩ := start.exists_starts
  rw [skipBlanks_skipBlanks] at word
  exact none _ rest word

/-- What is read of a list of brackets are the lexemes in front of what is left. -/
theorem lexes_readNodes (text : List Char) :
    Lexes text ((readNodes text).value.flatMap Bracketing.lexemes) (readNodes text).rest ∧
      ∀ b ∈ (readNodes text).value, b.Outermost := by
  cases node : readNode (skipBlanks text) with
  | error shown =>
    obtain ⟨value, left⟩ := readNodes_stop node
    rw [value, left]
    exact ⟨.nil text, nofun⟩
  | ok p =>
    have : p.rest.length < text.length := p.lt.trans_le (length_skipBlanks_le text)
    obtain ⟨more, outermost⟩ := lexes_readNodes p.rest
    obtain ⟨value, left⟩ := readNodes_step node
    obtain ⟨body, opens, closes, bracket⟩ := exists_of_readNode node
    have first := lexes_bracket closes (lexes_readItems (behindLabel body))
    rw [← opens, ← bracket] at first
    rw [value, left]
    refine ⟨?_, List.forall_mem_cons.mpr ⟨bracket ▸ outermost_bracket body, outermost⟩⟩
    simpa using (Lexes.blanks text).trans (first.trans more)
termination_by text.length

theorem spellsTrees_of_checkAll {bs : List Bracketing} {ts : Forest} (outermost : ∀ b ∈ bs, b.Outermost)
    (ok : checkAll bs = .ok ts) : SpellsTrees (bs.flatMap Bracketing.lexemes) ts := by
  induction bs generalizing ts with
  | nil =>
    obtain rfl := Except.ok.inj ok
    exact .nil
  | cons b bs ih =>
    obtain ⟨first, others⟩ := List.forall_mem_cons.mp outermost
    obtain ⟨u, us, tree, oks, rfl⟩ := checkAll_cons.mp ok
    exact first.spells tree (ih others oks)

/-! ## The language is read -/

theorem Lexes.exists_opening {text rest : List Char} {ls : List Lexeme} (h : Lexes text (.opening :: ls) rest) :
    ∃ body, skipBlanks text = '(' :: body ∧ Lexes body ls rest := by
  obtain ⟨body, first, more⟩ := h.exists_starts
  exact ⟨body, starts_opening_iff.mp first, more⟩

/-- Lexemes up to a closing bracket, that bracket, and what is behind. -/
theorem Lexes.exists_closing {text rest : List Char} {inner ls : List Lexeme}
    (h : Lexes text (inner ++ .closing :: ls) rest) :
    ∃ last behind, Lexes text inner last ∧ skipBlanks last = ')' :: behind ∧ Lexes behind ls rest := by
  obtain ⟨last, front, back⟩ := h.exists_append
  obtain ⟨behind, closing, more⟩ := back.exists_starts
  exact ⟨last, behind, front, starts_closing_iff.mp closing, more⟩

/-- A word behind an opening bracket is read as its label. -/
theorem Lexes.label {body rest w : List Char} {ls : List Lexeme} (h : Lexes body (.word w :: ls) rest) :
    (readLabel (skipBlanks body)).value = some (String.ofList w) ∧ Lexes (behindLabel body) ls rest := by
  obtain ⟨middle, word, more⟩ := h.exists_starts
  obtain ⟨value, left⟩ := readLabel_word word
  rw [← readLabel_rest, left]
  exact ⟨value, more⟩

theorem Lexes.no_label {body rest : List Char} {l : Lexeme} {ls : List Lexeme} (h : Lexes body (l :: ls) rest)
    (first : ∀ w, l ≠ .word w) :
    (readLabel (skipBlanks body)).value = none ∧ Lexes (behindLabel body) (l :: ls) rest := by
  obtain ⟨middle, start, more⟩ := h.exists_starts
  obtain ⟨value, left⟩ := readLabel_none fun w _ word => first w (start.unique word).1
  rw [← readLabel_rest, left]
  exact ⟨value, .lexeme start more⟩

/-- Items that are read up to a closing bracket are all that are read. -/
theorem readItems_of_closing {text last behind : List Char} {is : List Bracketing}
    (closing : skipBlanks last = ')' :: behind) (value : (readItems text).value = is ++ (readItems last).value)
    (left : skipBlanks (readItems text).rest = skipBlanks (readItems last).rest) :
    (readItems text).value = is ∧ skipBlanks (readItems text).rest = ')' :: behind := by
  obtain ⟨none, stops⟩ := readItems_closing closing
  rw [value, left, none, stops, List.append_nil]
  exact ⟨rfl, closing⟩

/-- Lexemes that the grammar allows inside a bracket are read as items with their trees, whatever stands behind. -/
theorem exists_readItems_append {ls : List Lexeme} {ts : Forest} (h : SpellsItems ls ts) {text rest : List Char}
    (lexes : Lexes text ls rest) :
    ∃ bs, Bracketing.innerForest? bs = some ts ∧ (readItems text).value = bs ++ (readItems rest).value ∧
      skipBlanks (readItems text).rest = skipBlanks (readItems rest).rest := by
  induction h generalizing text rest with
  | nil => exact ⟨[], rfl, readItems_congr lexes.skipBlanks_eq⟩
  | word w _ ih =>
    obtain ⟨middle, first, more⟩ := lexes.exists_starts
    obtain ⟨bs, trees, value, left⟩ := ih more
    obtain ⟨value', left'⟩ := readItems_word first
    refine ⟨.word (String.ofList w) :: bs, ?_, by rw [value', value, List.cons_append], by rw [left', left]⟩
    exact Bracketing.innerForest?_cons.mpr ⟨_, _, rfl, trees, rfl⟩
  | bracket l _ _ ihi ihm =>
    obtain ⟨body, opens, lexes⟩ := lexes.exists_opening
    obtain ⟨label, lexes⟩ := lexes.label
    obtain ⟨last, behind, inside, closing, more⟩ := lexes.exists_closing
    obtain ⟨is, inner, value, left⟩ := ihi inside
    obtain ⟨value, closes⟩ := readItems_of_closing closing value left
    obtain ⟨bs, trees, value', left'⟩ := ihm more
    obtain ⟨first, further⟩ := readItems_bracket opens closes
    refine ⟨.bracket (some (String.ofList l)) is :: bs, ?_, by rw [first, label, value, value', List.cons_append],
      by rw [further, left']⟩
    exact Bracketing.innerForest?_cons.mpr ⟨_, _, by simp [Bracketing.innerTree?, inner], trees, rfl⟩

/-- An outermost bracket is read when items and a closing bracket stand behind its label. -/
theorem exists_readNodes_bracket {text body rest : List Char} {inner ls : List Lexeme} {us : Forest}
    (opens : skipBlanks text = '(' :: body) (items : SpellsItems inner us)
    (lexes : Lexes (behindLabel body) (inner ++ .closing :: ls) rest) :
    ∃ is behind, Bracketing.innerForest? is = some us ∧ Lexes behind ls rest ∧
      (readNodes text).value = .bracket (readLabel (skipBlanks body)).value is :: (readNodes behind).value ∧
      (readNodes text).rest = (readNodes behind).rest := by
  obtain ⟨last, behind, inside, closing, more⟩ := lexes.exists_closing
  obtain ⟨is, inner, value, left⟩ := exists_readItems_append items inside
  obtain ⟨rfl, closes⟩ := readItems_of_closing closing value left
  exact ⟨_, behind, inner, more, readNodes_bracket opens closes⟩

/-- Lexemes that the grammar allows are read as brackets with their trees, whatever stands behind. -/
theorem exists_readNodes_append {ls : List Lexeme} {ts : Forest} (h : SpellsTrees ls ts) {text rest : List Char}
    (lexes : Lexes text ls rest) :
    ∃ bs, checkAll bs = .ok ts ∧ (readNodes text).value = bs ++ (readNodes rest).value ∧
      skipBlanks (readNodes text).rest = skipBlanks (readNodes rest).rest := by
  induction h generalizing text with
  | nil => exact ⟨[], rfl, readNodes_congr lexes.skipBlanks_eq⟩
  | labelled l items _ ih =>
    obtain ⟨body, opens, lexes⟩ := lexes.exists_opening
    obtain ⟨label, lexes⟩ := lexes.label
    obtain ⟨is, behind, inner, more, first, further⟩ := exists_readNodes_bracket opens items lexes
    obtain ⟨bs, trees, value, left⟩ := ih more
    refine ⟨.bracket (some (String.ofList l)) is :: bs, ?_, by rw [first, label, value, List.cons_append],
      by rw [further, left]⟩
    exact checkAll_cons.mpr ⟨_, _, by simp [Bracketing.tree?, Bracketing.innerTree?, inner], trees, rfl⟩
  | @unlabelled inner ls us ts items nonempty first _ ih =>
    obtain ⟨body, opens, lexes⟩ := lexes.exists_opening
    -- no word is taken for a label, since none stands behind the bracket
    obtain ⟨label, lexes⟩ :
        (readLabel (skipBlanks body)).value = none ∧ Lexes (behindLabel body) (inner ++ .closing :: ls) rest := by
      cases inner with
      | nil => exact lexes.no_label nofun
      | cons x inner => exact lexes.no_label fun w word => first w (congrArg some word)
    obtain ⟨is, behind, inner, more, first, further⟩ := exists_readNodes_bracket opens items lexes
    obtain ⟨bs, trees, value, left⟩ := ih more
    refine ⟨.bracket none is :: bs, ?_, by rw [first, label, value, List.cons_append], by rw [further, left]⟩
    match is with
    | [] => exact absurd (Option.some.inj inner).symm nonempty
    | item :: is => exact checkAll_cons.mpr ⟨_, _, by simp [Bracketing.tree?, inner], trees, rfl⟩

/-! ## Whole texts -/

theorem readTrees_eq_ok {text : String} {ts : Forest} :
    readTrees text = .ok ts ↔
      skipBlanks (readNodes text.toList).rest = [] ∧ checkAll (readNodes text.toList).value = .ok ts := by
  rw [readTrees_eq]
  split <;> simp_all

/-- A text is read just when its white space is blanks only and its lexemes spell trees, which are then the
ones that are read. -/
theorem readTrees_eq_ok_iff_spellsTrees {text : String} {ts : Forest} :
    readTrees text = .ok ts ↔ BlankSpaced text.toList ∧ SpellsTrees (lexemesOf text.toList) ts := by
  rw [readTrees_eq_ok]
  constructor
  · rintro ⟨ends, ok⟩
    obtain ⟨lexes, outermost⟩ := lexes_readNodes text.toList
    have blank := Lexes.blanks (readNodes text.toList).rest
    rw [ends] at blank
    obtain ⟨spaced, lexemes⟩ := lexes_nil_iff.mp (lexes.trans blank)
    rw [lexemes, List.append_nil]
    exact ⟨spaced, spellsTrees_of_checkAll outermost ok⟩
  · rintro ⟨spaced, spelt⟩
    obtain ⟨bs, ok, value, left⟩ := exists_readNodes_append spelt (lexes_lexemesOf spaced)
    obtain ⟨none, ends⟩ := readNodes_blank (show skipBlanks [] = [] from rfl)
    rw [value, left, none, ends, List.append_nil]
    exact ⟨rfl, ok⟩

/-- A text is read as one tree just when it is read as a list of one. -/
theorem readTree_eq_ok_iff_readTrees {text : String} {t : Tree} :
    readTree text = .ok t ↔ readTrees text = .ok [t] := by
  rw [readTrees_eq_ok]
  cases node : readNode (skipBlanks text.toList) with
  | error shown =>
    rw [readTree_missing node, (readNodes_stop node).1]
    constructor
    · exact nofun
    · rintro ⟨-, none⟩
      exact absurd (Except.ok.inj none) (by simp)
  | ok p =>
    obtain ⟨value, left⟩ := readNodes_step node
    rw [readTree_bracket node, value, left, checkAll_cons]
    by_cases ends : skipBlanks p.rest = []
    · -- nothing stands behind the bracket, so it is the only one
      obtain ⟨none, stops⟩ := readNodes_blank ends
      rw [if_pos ends, none, stops, checkLabels_eq_ok]
      constructor
      · exact fun tree => ⟨ends, t, [], tree, rfl, rfl⟩
      · rintro ⟨-, u, us, tree, -, ts⟩
        obtain ⟨rfl, -⟩ := List.cons.inj ts
        exact tree
    · rw [if_neg ends]
      constructor
      · exact nofun
      · rintro ⟨last, u, us, -, oks, ts⟩
        obtain ⟨rfl, rfl⟩ := List.cons.inj ts
        cases next : readNode (skipBlanks p.rest) with
        | error shown =>
          rw [(readNodes_stop next).2] at last
          exact absurd last ends
        | ok q =>
          -- the second bracket has a tree of its own
          rw [(readNodes_step next).1] at oks
          obtain ⟨_, _, -, -, none⟩ := checkAll_cons.mp oks
          exact absurd none (by simp)

/-- The reader accepts exactly its language: a text whose white space is blanks only and whose lexemes are a
list of outermost brackets. These have one list of trees, and it is the one that is read; a text is a single
tree when that list has one tree. -/
theorem readTrees_language (text : String) :
    (∀ ts, readTrees text = .ok ts ↔ BlankSpaced text.toList ∧ SpellsTrees (lexemesOf text.toList) ts) ∧
      {ts | SpellsTrees (lexemesOf text.toList) ts}.Subsingleton ∧
      ∀ t, readTree text = .ok t ↔ readTrees text = .ok [t] :=
  ⟨fun _ => readTrees_eq_ok_iff_spellsTrees, fun _ ht _ hu => ht.unique hu, fun _ => readTree_eq_ok_iff_readTrees⟩

example : readTrees "( (S dogs (VP run)) )(X)" =
    .ok [.node "ROOT" [.node "S" [.leaf "dogs", .node "VP" [.leaf "run"]]], .leaf "X"] := by decide +kernel

end Constituency.Treebank
