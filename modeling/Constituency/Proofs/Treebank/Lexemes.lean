/-
The lexemes of a text: opening and closing brackets, and words, which are maximal runs of characters that are neither
brackets nor white space. A text is seen in two ways: as a whole, with any white space between its lexemes, and from
its start, with blanks only in front of the lexemes that are taken. Both give the same lexemes when the white space of
the text is blanks only, and the second can then go on to the end (`lexes_nil_iff`).
-/
import Mathlib.Data.List.DropRight
import Mathlib.Data.List.TakeWhile
import Constituency.Treebank.Reader

namespace Constituency.Treebank

open Text

inductive Lexeme where
  | opening
  | closing
  | word (text : List Char)
deriving Repr, DecidableEq

/-! ## The lexemes of a text -/

/-- The brackets of a text and its words, which are the maximal runs of word characters; any white space
separates words. -/
def lexemesOf : List Char → List Lexeme
  | [] => []
  | c :: text =>
    if c = '(' then .opening :: lexemesOf text
    else if c = ')' then .closing :: lexemesOf text
    else if isWhiteSpace c then lexemesOf text
    else .word (c :: text.takeWhile isWordChar) :: lexemesOf (text.dropWhile isWordChar)
termination_by text => text.length
decreasing_by
  all_goals simp only [List.length_cons]
  · omega
  · omega
  · omega
  · have : (text.dropWhile isWordChar).length ≤ text.length := (List.dropWhile_suffix _).length_le
    omega

/-- The white space of the text is blanks only. -/
def BlankSpaced (text : List Char) : Prop := ∀ c ∈ text, isWhiteSpace c = true → isBlank c = true

/-- The text does not go on with a word character, so that a word in front of it ends there. -/
def EndsWord (text : List Char) : Prop := ∀ c ∈ text.head?, isWordChar c = false

/-- The text starts with the lexeme, and the rest follows. -/
inductive Starts : List Char → Lexeme → List Char → Prop
  | opening (rest : List Char) : Starts ('(' :: rest) .opening rest
  | closing (rest : List Char) : Starts (')' :: rest) .closing rest
  | word {w rest : List Char} (nonempty : w ≠ []) (all : ∀ c ∈ w, isWordChar c = true) (ends : EndsWord rest) :
      Starts (w ++ rest) (.word w) rest

theorem isWordChar_iff {c : Char} :
    isWordChar c = true ↔ isWhiteSpace c = false ∧ c ≠ '(' ∧ c ≠ ')' := by
  simp [isWordChar, and_assoc]

theorem endsWord_dropWhile (text : List Char) : EndsWord (text.dropWhile isWordChar) := by
  intro c hc
  have := List.head?_dropWhile_not isWordChar text
  rw [Option.mem_def.mp hc] at this
  exact this

/-- What holds of the empty text, and passes to a text from its rest behind white space and behind a first
lexeme, holds of all texts. -/
theorem induction_on_lexemes {P : List Char → Prop} (nil : P [])
    (space : ∀ c rest, isWhiteSpace c = true → P rest → P (c :: rest))
    (lexeme : ∀ text l rest, Starts text l rest → P rest → P text) (text : List Char) : P text := by
  fun_induction lexemesOf text with
  | case1 => exact nil
  | case2 text ih => exact lexeme _ _ _ (.opening text) ih
  | case3 text _ ih => exact lexeme _ _ _ (.closing text) ih
  | case4 c text _ _ hc ih => exact space c text hc ih
  | case5 c text ho hc hs ih =>
    have word : ∀ d ∈ c :: text.takeWhile isWordChar, isWordChar d = true := by
      intro d hd
      rcases List.mem_cons.mp hd with rfl | hd
      · exact isWordChar_iff.mpr ⟨by simpa using hs, ho, hc⟩
      · exact List.mem_takeWhile_imp hd
    -- the text is the word and what follows it
    have := Starts.word (List.cons_ne_nil c _) word (endsWord_dropWhile text)
    rw [List.cons_append, List.takeWhile_append_dropWhile] at this
    exact lexeme _ _ _ this ih

/-! ## Lexemes from the start of a text -/

@[simp] theorem lexemesOf_nil : lexemesOf [] = [] := by
  rw [lexemesOf]

theorem ne_bracket_of_isWhiteSpace {c : Char} (h : isWhiteSpace c = true) : c ≠ '(' ∧ c ≠ ')' := by
  constructor
  · rintro rfl
    exact absurd h (by decide)
  · rintro rfl
    exact absurd h (by decide)

theorem lexemesOf_space {c : Char} (h : isWhiteSpace c = true) (rest : List Char) :
    lexemesOf (c :: rest) = lexemesOf rest := by
  obtain ⟨ho, hc⟩ := ne_bracket_of_isWhiteSpace h
  rw [lexemesOf, if_neg ho, if_neg hc, if_pos h]

theorem takeWhile_append_of_endsWord {w rest : List Char} (all : ∀ c ∈ w, isWordChar c = true)
    (ends : EndsWord rest) :
    (w ++ rest).takeWhile isWordChar = w ∧ (w ++ rest).dropWhile isWordChar = rest := by
  rw [List.takeWhile_append_of_pos all, List.dropWhile_append_of_pos all]
  cases rest with
  | nil => simp
  | cons d rest => simp [ends d rfl]

theorem Starts.lexemesOf_eq {text rest : List Char} {l : Lexeme} (h : Starts text l rest) :
    lexemesOf text = l :: lexemesOf rest := by
  cases h with
  | opening => rw [lexemesOf, if_pos rfl]
  | closing => rw [lexemesOf, if_neg (by decide), if_pos rfl]
  | @word w _ nonempty all ends =>
    cases w with
    | nil => contradiction
    | cons c w =>
      obtain ⟨hs, ho, hc⟩ := isWordChar_iff.mp (all c (by simp))
      obtain ⟨take, drop⟩ := takeWhile_append_of_endsWord (fun d hd => all d (List.mem_cons_of_mem c hd)) ends
      rw [List.cons_append, lexemesOf, if_neg ho, if_neg hc, if_neg (by simp [hs]), take, drop]

theorem Starts.blankSpaced_iff {text rest : List Char} {l : Lexeme} (h : Starts text l rest) :
    BlankSpaced text ↔ BlankSpaced rest := by
  cases h with
  | opening => simp [BlankSpaced, show isWhiteSpace '(' = false by decide]
  | closing => simp [BlankSpaced, show isWhiteSpace ')' = false by decide]
  | word nonempty all ends =>
    constructor
    · exact fun h c hc => h c (by simp [hc])
    · intro h c hc hs
      rcases List.mem_append.mp hc with hc | hc
      · simp [(isWordChar_iff.mp (all c hc)).1] at hs
      · exact h c hc hs

theorem isBlank_of_isWordChar {c : Char} (h : isWordChar c = true) : isBlank c = false := by
  by_contra hb
  have := isWhiteSpace_of_isBlank (Bool.not_eq_false _ ▸ hb)
  simp [(isWordChar_iff.mp h).1] at this

/-! ## The first lexeme -/

@[simp] theorem skipBlanks_skipBlanks (text : List Char) : skipBlanks (skipBlanks text) = skipBlanks text :=
  List.dropWhile_idempotent isBlank text

theorem skipBlanks_of_isBlank {c : Char} (h : isBlank c = true) (text : List Char) :
    skipBlanks (c :: text) = skipBlanks text :=
  List.dropWhile_cons_of_pos h

theorem skipBlanks_suffix (text : List Char) : skipBlanks text <:+ text := List.dropWhile_suffix _

theorem suffix_of_skipBlanks {text rest : List Char} {c : Char} (h : skipBlanks text = c :: rest) : rest <:+ text :=
  (List.suffix_cons c rest).trans (h ▸ skipBlanks_suffix text)

theorem length_lt_of_skipBlanks {text rest : List Char} {c : Char} (h : skipBlanks text = c :: rest) :
    rest.length < text.length := by
  have := (skipBlanks_suffix text).length_le
  rw [h, List.length_cons] at this
  omega

theorem Starts.skipBlanks_eq {text rest : List Char} {l : Lexeme} (h : Starts text l rest) :
    skipBlanks text = text ∧ text ≠ [] := by
  cases h with
  | opening => simp [skipBlanks, isBlank]
  | closing => simp [skipBlanks, isBlank]
  | @word w _ nonempty all ends =>
    cases w with
    | nil => contradiction
    | cons c w => simp [skipBlanks, isBlank_of_isWordChar (all c (by simp))]

theorem Starts.suffix {text rest : List Char} {l : Lexeme} (h : Starts text l rest) : rest <:+ text := by
  cases h with
  | opening | closing => exact List.suffix_cons _ _
  | @word w => exact List.suffix_append w _

theorem Starts.length_lt {text rest : List Char} {l : Lexeme} (h : Starts text l rest) :
    rest.length < text.length := by
  cases h with
  | opening | closing => simp
  | word nonempty => simpa using List.length_pos_iff.mpr nonempty

theorem starts_opening_iff {text rest : List Char} : Starts text .opening rest ↔ text = '(' :: rest := by
  constructor
  · intro h
    cases h
    rfl
  · rintro rfl
    exact .opening rest

theorem starts_closing_iff {text rest : List Char} : Starts text .closing rest ↔ text = ')' :: rest := by
  constructor
  · intro h
    cases h
    rfl
  · rintro rfl
    exact .closing rest

/-- A text starts with one lexeme. -/
theorem Starts.unique {text rest rest' : List Char} {l l' : Lexeme} (h : Starts text l rest)
    (h' : Starts text l' rest') : l = l' ∧ rest = rest' := by
  have lexemes := h.lexemesOf_eq.symm.trans h'.lexemesOf_eq
  obtain ⟨rfl, -⟩ := List.cons.inj lexemes
  refine ⟨rfl, ?_⟩
  cases h with
  | opening => exact (List.cons.inj (starts_opening_iff.mp h')).2
  | closing => exact (List.cons.inj (starts_closing_iff.mp h')).2
  | @word w =>
    generalize split : w ++ rest = text at h'
    cases h'
    exact List.append_cancel_left split

theorem not_starts_word_of_bracket {text w rest : List Char} {c : Char} (h : c = '(' ∨ c = ')') :
    ¬Starts (c :: text) (.word w) rest := by
  intro starts
  rcases h with rfl | rfl
  · exact nomatch (starts.unique (.opening text)).1
  · exact nomatch (starts.unique (.closing text)).1

/-! ## Lexemes by position -/

/-- The text starts with the lexemes, with optional blanks in front of each and behind them, and the rest follows. -/
inductive Lexes : List Char → List Lexeme → List Char → Prop
  | nil (text : List Char) : Lexes text [] text
  | blank {c : Char} {text rest : List Char} {ls : List Lexeme} (h : isBlank c = true) (more : Lexes text ls rest) :
      Lexes (c :: text) ls rest
  | lexeme {text middle rest : List Char} {l : Lexeme} {ls : List Lexeme} (first : Starts text l middle)
      (more : Lexes middle ls rest) : Lexes text (l :: ls) rest

namespace Lexes

variable {text middle rest : List Char} {l : Lexeme} {ls ms : List Lexeme}

theorem starts (h : Starts text l rest) : Lexes text [l] rest := .lexeme h (.nil rest)

theorem trans (h : Lexes text ls middle) (h' : Lexes middle ms rest) : Lexes text (ls ++ ms) rest := by
  induction h with
  | nil => exact h'
  | blank hc _ ih => exact .blank hc (ih h')
  | lexeme first _ ih => exact .lexeme first (ih h')

theorem gap : {gap : List Char} → (∀ c ∈ gap, isBlank c = true) → (rest : List Char) → Lexes (gap ++ rest) [] rest
  | [], _, rest => .nil rest
  | _ :: _, h, rest =>
    have ⟨hc, blanks⟩ := List.forall_mem_cons.mp h
    .blank hc (Lexes.gap blanks rest)

theorem blanks (text : List Char) : Lexes text [] (skipBlanks text) := by
  have front : ∀ c ∈ text.takeWhile isBlank, isBlank c = true := fun _ => List.mem_takeWhile_imp
  have := Lexes.gap front (skipBlanks text)
  rwa [skipBlanks, List.takeWhile_append_dropWhile] at this

/-- Nothing but blanks is gone over without a lexeme. -/
theorem skipBlanks_eq (h : Lexes text [] rest) : skipBlanks text = skipBlanks rest := by
  generalize none : ([] : List Lexeme) = ls at h
  induction h with
  | nil => rfl
  | blank hc _ ih => rw [skipBlanks_of_isBlank hc, ih none]
  | lexeme => nomatch none

/-- The first lexeme stands behind the blanks at the start. -/
theorem exists_starts (h : Lexes text (l :: ls) rest) :
    ∃ middle, Starts (skipBlanks text) l middle ∧ Lexes middle ls rest := by
  generalize some : l :: ls = all at h
  induction h with
  | nil => nomatch some
  | blank hc _ ih =>
    rw [skipBlanks_of_isBlank hc]
    exact ih some
  | lexeme first more =>
    obtain ⟨rfl, rfl⟩ := List.cons.inj some
    rw [first.skipBlanks_eq.1]
    exact ⟨_, first, more⟩

/-- Lexemes can be taken in two steps. -/
theorem exists_append (h : Lexes text (ls ++ ms) rest) : ∃ middle, Lexes text ls middle ∧ Lexes middle ms rest := by
  induction ls generalizing text with
  | nil => exact ⟨text, .nil text, h⟩
  | cons l ls ih =>
    obtain ⟨next, first, more⟩ := h.exists_starts
    obtain ⟨middle, front, back⟩ := ih more
    exact ⟨middle, (Lexes.blanks text).trans (.lexeme first front), back⟩

/-- No lexeme stands at the end of a text. -/
theorem eq_nil (h : Lexes [] ls rest) : ls = [] := by
  cases h with
  | nil => rfl
  | lexeme first => exact absurd rfl first.skipBlanks_eq.2

theorem lexemesOf_eq (h : Lexes text ls rest) : lexemesOf text = ls ++ lexemesOf rest := by
  induction h with
  | nil => rfl
  | blank hc _ ih => rw [lexemesOf_space (isWhiteSpace_of_isBlank hc), ih]
  | lexeme first _ ih => rw [first.lexemesOf_eq, ih, List.cons_append]

theorem blankSpaced_iff (h : Lexes text ls rest) : BlankSpaced text ↔ BlankSpaced rest := by
  induction h with
  | nil => rfl
  | blank hc _ ih => simpa [BlankSpaced, hc] using ih
  | lexeme first _ ih => rw [first.blankSpaced_iff, ih]

end Lexes

theorem lexes_lexemesOf {text : List Char} (blank : BlankSpaced text) : Lexes text (lexemesOf text) [] := by
  induction text using induction_on_lexemes with
  | nil =>
    rw [lexemesOf_nil]
    exact .nil []
  | space c rest space ih =>
    obtain ⟨hc, blank⟩ := List.forall_mem_cons.mp blank
    rw [lexemesOf_space space]
    exact .blank (hc space) (ih blank)
  | lexeme text l rest first ih =>
    rw [first.lexemesOf_eq]
    exact .lexeme first (ih (first.blankSpaced_iff.mp blank))

/-- The lexemes of a text lead to its end just when its white space is blanks only. -/
theorem lexes_nil_iff {text : List Char} {ls : List Lexeme} :
    Lexes text ls [] ↔ BlankSpaced text ∧ lexemesOf text = ls := by
  constructor
  · intro h
    exact ⟨h.blankSpaced_iff.mpr (by simp [BlankSpaced]), by simp [h.lexemesOf_eq]⟩
  · rintro ⟨blank, rfl⟩
    exact lexes_lexemesOf blank

end Constituency.Treebank
