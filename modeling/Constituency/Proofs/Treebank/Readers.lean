/-
What the readers do, one by one. Each fact says what a reader reads at the start of a text and what it leaves, by means
of the lexemes there and of the other readers. Items are read one after another up to where neither a word nor a
complete bracket stands (`readItems_word`, `readItems_bracket`, `readItems_stop`), and a bracket is read when its
items end at a closing one; so what holds of items can be shown by going along them (`induction_on_items`).
-/
import Constituency.Proofs.Treebank.Lexemes

namespace Constituency.Treebank

open Text

/-! ## Characters and words -/

@[simp] theorem readChar_cons (c : Char) (rest : List Char) :
    readChar c (c :: rest) = .ok ⟨(), rest, Nat.lt_succ_self _⟩ := if_pos rfl

theorem exists_readChar {c : Char} {text rest : List Char} (h : text = c :: rest) :
    ∃ p, readChar c text = .ok p ∧ p.rest = rest := by
  subst h
  exact ⟨_, readChar_cons c rest, rfl⟩

theorem readChar_missing {c : Char} {text : List Char} (h : ∀ rest, text ≠ c :: rest) :
    readChar c text = .error text := by
  cases text with
  | nil => rfl
  | cons d rest => exact if_neg fun same => h rest (by rw [same])

theorem starts_of_readWord {text : List Char} {p : Parsed String text.length} (h : readWord text = some p) :
    Starts text (.word p.value.toList) p.rest := by
  cases text with
  | nil => nomatch h
  | cons c text =>
    obtain ⟨hc, read⟩ := Option.ite_none_right_eq_some.mp h
    obtain rfl := Option.some.inj read
    have word : ∀ d ∈ c :: text.takeWhile isWordChar, isWordChar d = true :=
      List.forall_mem_cons.mpr ⟨hc, fun _ => List.mem_takeWhile_imp⟩
    have := Starts.word (List.cons_ne_nil c _) word (endsWord_dropWhile text)
    rw [List.cons_append, List.takeWhile_append_dropWhile] at this
    simpa using this

theorem Starts.exists_readWord {text w rest : List Char} (h : Starts text (.word w) rest) :
    ∃ p, readWord text = some p ∧ p.value = String.ofList w ∧ p.rest = rest := by
  cases h with
  | word nonempty all ends =>
    obtain ⟨c, w, rfl⟩ := List.exists_cons_of_ne_nil nonempty
    obtain ⟨hc, all⟩ := List.forall_mem_cons.mp all
    obtain ⟨take, drop⟩ := takeWhile_append_of_endsWord all ends
    exact ⟨_, if_pos hc, congrArg (fun w => String.ofList (c :: w)) take, drop⟩

theorem readWord_eq_none {text : List Char} (h : ∀ w rest, ¬Starts text (.word w) rest) : readWord text = none := by
  cases word : readWord text with
  | none => rfl
  | some p => exact absurd (starts_of_readWord word) (h _ _)

theorem readLabel_word {text w rest : List Char} (h : Starts text (.word w) rest) :
    (readLabel text).value = some (String.ofList w) ∧ (readLabel text).rest = rest := by
  obtain ⟨p, word, value, left⟩ := h.exists_readWord
  unfold readLabel
  rw [word]
  exact ⟨congrArg some value, left⟩

theorem readLabel_none {text : List Char} (h : ∀ w rest, ¬Starts text (.word w) rest) :
    (readLabel text).value = none ∧ (readLabel text).rest = text := by
  unfold readLabel
  rw [readWord_eq_none h]
  exact ⟨rfl, rfl⟩

/-- What follows the label of a bracket that is opened in front of the text; a bracket without a label is followed by
its first item. -/
def behindLabel (text : List Char) : List Char := (skipBlanks text).dropWhile isWordChar

theorem behindLabel_suffix (text : List Char) : behindLabel text <:+ text :=
  (List.dropWhile_suffix _).trans (skipBlanks_suffix text)

theorem readLabel_rest (text : List Char) : (readLabel (skipBlanks text)).rest = behindLabel text := by
  unfold behindLabel readLabel
  cases skipBlanks text with
  | nil => rfl
  | cons c rest =>
    by_cases hc : isWordChar c = true
    · simp [readWord, hc, Parsed.weaken, Parsed.map]
    · simp [readWord, hc]

/-! ## Repetition -/

section

variable {α : Type} {text start : List Char} {item : (start : List Char) → Option (Parsed α start.length)}

theorem readMany_stop (blanks : skipBlanks text = start) (h : item start = none) :
    (readMany text fun start _ => item start).value = [] ∧ (readMany text fun start _ => item start).rest = text := by
  subst blanks
  rw [readMany, h]
  exact ⟨rfl, rfl⟩

theorem readMany_step (blanks : skipBlanks text = start) {p : Parsed α start.length} (h : item start = some p) :
    (readMany text fun start _ => item start).value =
        p.value :: (readMany p.rest fun start _ => item start).value ∧
      (readMany text fun start _ => item start).rest = (readMany p.rest fun start _ => item start).rest := by
  subst blanks
  rw [readMany, h]
  exact ⟨rfl, rfl⟩

/-- The blanks at the start of a text do not matter. -/
theorem readMany_congr {text' : List Char} (h : skipBlanks text = skipBlanks text') :
    (readMany text fun start _ => item start).value = (readMany text' fun start _ => item start).value ∧
      skipBlanks (readMany text fun start _ => item start).rest =
        skipBlanks (readMany text' fun start _ => item start).rest := by
  cases first : item (skipBlanks text') with
  | none =>
    obtain ⟨value, rest⟩ := readMany_stop h first
    obtain ⟨value', rest'⟩ := readMany_stop rfl first
    rw [value, rest, value', rest']
    exact ⟨rfl, h⟩
  | some p =>
    obtain ⟨value, rest⟩ := readMany_step h first
    obtain ⟨value', rest'⟩ := readMany_step rfl first
    rw [value, rest, value', rest']
    exact ⟨rfl, rfl⟩

end

/-! ## Brackets -/

theorem readNode_unopened {text : List Char} (h : ∀ body, text ≠ '(' :: body) : readNode text = .error text := by
  rw [readNode, readChar_missing h]
  rfl

section

variable {text body rest : List Char}

/-- A bracket is read when it is closed behind its items. -/
theorem exists_readNode (opens : text = '(' :: body)
    (closes : skipBlanks (readItems (behindLabel body)).rest = ')' :: rest) :
    ∃ p, readNode text = .ok p ∧ p.rest = rest ∧
      p.value = .bracket (readLabel (skipBlanks body)).value (readItems (behindLabel body)).value := by
  subst opens
  rw [← readLabel_rest] at closes ⊢
  obtain ⟨closing, read, left⟩ := exists_readChar closes
  rw [readNode, readChar_cons]
  simp only [bind, Except.bind, read]
  exact ⟨_, rfl, left, rfl⟩

theorem readNode_unclosed (opens : text = '(' :: body)
    (h : ∀ rest, skipBlanks (readItems (behindLabel body)).rest ≠ ')' :: rest) :
    readNode text = .error (skipBlanks (readItems (behindLabel body)).rest) := by
  subst opens
  rw [← readLabel_rest] at h ⊢
  rw [readNode, readChar_cons]
  simp only [bind, Except.bind, readChar_missing h]

end

theorem exists_of_readNode {text : List Char} {p : Parsed Bracketing text.length} (h : readNode text = .ok p) :
    ∃ body, text = '(' :: body ∧ skipBlanks (readItems (behindLabel body)).rest = ')' :: p.rest ∧
      p.value = .bracket (readLabel (skipBlanks body)).value (readItems (behindLabel body)).value := by
  by_cases opened : ∃ body, text = '(' :: body
  · obtain ⟨body, opens⟩ := opened
    by_cases closed : ∃ rest, skipBlanks (readItems (behindLabel body)).rest = ')' :: rest
    · obtain ⟨rest, closes⟩ := closed
      obtain ⟨q, read, rfl, value⟩ := exists_readNode opens closes
      obtain rfl : q = p := Except.ok.inj (read.symm.trans h)
      exact ⟨body, opens, closes, value⟩
    · exact nomatch (readNode_unclosed opens (not_exists.mp closed)).symm.trans h
  · exact nomatch (readNode_unopened (not_exists.mp opened)).symm.trans h

/-! ## Items -/

theorem not_opening_of_starts_word {text w rest : List Char} (h : Starts text (.word w) rest) (body : List Char) :
    text ≠ '(' :: body := by
  rintro rfl
  exact not_starts_word_of_bracket (.inl rfl) h

theorem exists_readItem {text w rest : List Char} (h : Starts text (.word w) rest) :
    ∃ p, readItem text = some p ∧ p.value = .word (String.ofList w) ∧ p.rest = rest := by
  obtain ⟨p, word, value, left⟩ := h.exists_readWord
  rw [readItem, readNode_unopened (not_opening_of_starts_word h)]
  exact ⟨p.map .word, by rw [readLeaf, word]; rfl, congrArg _ value, left⟩

theorem readItem_node {text : List Char} {p : Parsed Bracketing text.length} (h : readNode text = .ok p) :
    readItem text = some p := by
  rw [readItem, h]

theorem readItem_eq_none {text shown : List Char} (node : readNode text = .error shown)
    (word : ∀ w rest, ¬Starts text (.word w) rest) : readItem text = none := by
  rw [readItem, node]
  exact congrArg (Option.map _) (readWord_eq_none word)

section

variable {text text' body rest : List Char}

theorem readItems_congr (h : skipBlanks text = skipBlanks text') :
    (readItems text).value = (readItems text').value ∧
      skipBlanks (readItems text).rest = skipBlanks (readItems text').rest := by
  rw [readItems, readItems]
  exact readMany_congr h

theorem readItems_word {w : List Char} (first : Starts (skipBlanks text) (.word w) rest) :
    (readItems text).value = .word (String.ofList w) :: (readItems rest).value ∧
      (readItems text).rest = (readItems rest).rest := by
  obtain ⟨p, item, value, rfl⟩ := exists_readItem first
  rw [readItems, readItems, ← value]
  exact readMany_step rfl item

theorem readItems_bracket (opens : skipBlanks text = '(' :: body)
    (closes : skipBlanks (readItems (behindLabel body)).rest = ')' :: rest) :
    (readItems text).value =
        .bracket (readLabel (skipBlanks body)).value (readItems (behindLabel body)).value :: (readItems rest).value ∧
      (readItems text).rest = (readItems rest).rest := by
  obtain ⟨p, node, rfl, value⟩ := exists_readNode opens closes
  rw [← value, readItems.eq_1 text, readItems.eq_1 p.rest]
  exact readMany_step rfl (readItem_node node)

theorem readItems_stop (word : ∀ w rest, ¬Starts (skipBlanks text) (.word w) rest)
    (bracket : ∀ body rest, skipBlanks text = '(' :: body →
      skipBlanks (readItems (behindLabel body)).rest ≠ ')' :: rest) :
    (readItems text).value = [] ∧ (readItems text).rest = text := by
  cases node : readNode (skipBlanks text) with
  | ok p =>
    obtain ⟨body, opens, closes, -⟩ := exists_of_readNode node
    exact absurd closes (bracket body p.rest opens)
  | error shown =>
    rw [readItems]
    exact readMany_stop rfl (readItem_eq_none node word)

/-- No item starts with a closing bracket. -/
theorem readItems_closing (closes : skipBlanks text = ')' :: rest) :
    (readItems text).value = [] ∧ (readItems text).rest = text := by
  apply readItems_stop
  · rw [closes]
    exact fun _ _ => not_starts_word_of_bracket (.inr rfl)
  · rw [closes]
    exact fun _ _ opens => absurd (List.cons.inj opens).1 (by decide)

end

/-- What holds where no item follows, and passes to a text from the rest behind its first item, holds of all texts; for
a bracket it may be taken to hold inside. -/
theorem induction_on_items {P : List Char → Prop}
    (stop : ∀ text, (readItems text).value = [] → (readItems text).rest = text → P text)
    (word : ∀ text w rest, Starts (skipBlanks text) (.word w) rest → P rest → P text)
    (bracket : ∀ text body rest, skipBlanks text = '(' :: body →
      skipBlanks (readItems (behindLabel body)).rest = ')' :: rest → P (behindLabel body) → P rest → P text)
    (text : List Char) : P text := by
  by_cases first : ∃ w rest, Starts (skipBlanks text) (.word w) rest
  · obtain ⟨w, rest, first⟩ := first
    have : rest.length < text.length := first.length_lt.trans_le (length_skipBlanks_le text)
    exact word text w rest first (induction_on_items stop word bracket rest)
  · by_cases complete : ∃ body rest, skipBlanks text = '(' :: body ∧
        skipBlanks (readItems (behindLabel body)).rest = ')' :: rest
    · obtain ⟨body, rest, opens, closes⟩ := complete
      have body_lt : body.length < text.length := length_lt_of_skipBlanks opens
      have inside_le : (behindLabel body).length ≤ body.length := (behindLabel_suffix body).length_le
      have items_lt := (readItems (behindLabel body)).lt
      have rest_lt : rest.length < (readItems (behindLabel body)).rest.length := length_lt_of_skipBlanks closes
      have inside : (behindLabel body).length < text.length := by omega
      have behind : rest.length < text.length := by omega
      exact bracket text body rest opens closes (induction_on_items stop word bracket (behindLabel body))
        (induction_on_items stop word bracket rest)
    · obtain ⟨value, rest⟩ := readItems_stop (fun w rest h => first ⟨w, rest, h⟩)
        (fun body rest opens closes => complete ⟨body, rest, opens, closes⟩)
      exact stop text value rest
termination_by text.length

/-! ## Outermost brackets -/

section

variable {text text' body rest : List Char}

theorem readNodes_congr (h : skipBlanks text = skipBlanks text') :
    (readNodes text).value = (readNodes text').value ∧
      skipBlanks (readNodes text).rest = skipBlanks (readNodes text').rest :=
  readMany_congr h

theorem readNodes_step {p : Parsed Bracketing (skipBlanks text).length} (h : readNode (skipBlanks text) = .ok p) :
    (readNodes text).value = p.value :: (readNodes p.rest).value ∧ (readNodes text).rest = (readNodes p.rest).rest :=
  readMany_step rfl (congrArg Except.toOption h)

theorem readNodes_stop {shown : List Char} (h : readNode (skipBlanks text) = .error shown) :
    (readNodes text).value = [] ∧ (readNodes text).rest = text :=
  readMany_stop rfl (congrArg Except.toOption h)

theorem readNodes_bracket (opens : skipBlanks text = '(' :: body)
    (closes : skipBlanks (readItems (behindLabel body)).rest = ')' :: rest) :
    (readNodes text).value =
        .bracket (readLabel (skipBlanks body)).value (readItems (behindLabel body)).value :: (readNodes rest).value ∧
      (readNodes text).rest = (readNodes rest).rest := by
  obtain ⟨p, node, rfl, value⟩ := exists_readNode opens closes
  rw [← value]
  exact readNodes_step node

/-- Blanks alone are no bracket. -/
theorem readNodes_blank (h : skipBlanks text = []) : (readNodes text).value = [] ∧ (readNodes text).rest = text :=
  readNodes_stop (readNode_unopened (by simp [h]))

end

/-! ## Whole texts -/

section

variable {text : String}

theorem readTree_missing {shown : List Char} (h : readNode (skipBlanks text.toList) = .error shown) :
    readTree text = .error (unread .bracket shown) := by
  rw [readTree, h]

theorem readTree_bracket {p : Parsed Bracketing (skipBlanks text.toList).length}
    (h : readNode (skipBlanks text.toList) = .ok p) :
    readTree text =
      if skipBlanks p.rest = [] then checkLabels p.value else .error (unread .endOfText (skipBlanks p.rest)) := by
  rw [readTree, h]
  simp

theorem readTrees_eq (text : String) :
    readTrees text =
      if skipBlanks (readNodes text.toList).rest = [] then (readNodes text.toList).value.mapM checkLabels
      else .error (unread .endOfText (skipBlanks (readNodes text.toList).rest)) := by
  simp [readTrees]

end

end Constituency.Treebank
