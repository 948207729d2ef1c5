/-
Where reading stops. Behind an opening bracket stand a label, if there is one, and items, which are words and complete
brackets with blanks in front of them; how far they go is settled by the text alone. The reader goes over complete items
(`items_readItems`) and over no fewer than any other reading of the text (`Items.readItems_rest`), so that a bracket
that is never closed is given up behind the longest of them. The other errors show the text where no bracket is opened,
and the text behind a complete one (`readTree_stopsAt`).
-/
import Constituency.Proofs.Treebank.Reading

namespace Constituency.Treebank

open Text

/-! ## Items of a text -/

/-- The text consists of some items, each with optional blanks in front, and the rest. An item is a word or a bracket
that is closed behind its own items. -/
inductive Items : List Char → List Char → Prop
  | nil (text : List Char) : Items text text
  | word {text w middle rest : List Char} (first : Starts (skipBlanks text) (.word w) middle)
      (more : Items middle rest) : Items text rest
  | bracket {text body inner middle rest : List Char} (opens : skipBlanks text = '(' :: body)
      (items : Items (behindLabel body) inner) (closes : skipBlanks inner = ')' :: middle)
      (more : Items middle rest) : Items text rest

/-- A bracket that is opened in front of the body is closed behind its items, and the rest follows. -/
def Closes (body rest : List Char) : Prop := ∃ inner, Items (behindLabel body) inner ∧ skipBlanks inner = ')' :: rest

theorem Items.suffix {text rest : List Char} (h : Items text rest) : rest <:+ text := by
  induction h with
  | nil => exact List.suffix_rfl
  | word first _ ih => exact ih.trans (first.suffix.trans (skipBlanks_suffix _))
  | @bracket text body inner middle rest opens _ closes _ ihi ihm =>
    have inner_suffix : inner <:+ body := ihi.trans (behindLabel_suffix body)
    exact ihm.trans ((suffix_of_skipBlanks closes).trans (inner_suffix.trans (suffix_of_skipBlanks opens)))

theorem Closes.suffix {body rest : List Char} (h : Closes body rest) : rest <:+ body := by
  obtain ⟨inner, items, closes⟩ := h
  exact (suffix_of_skipBlanks closes).trans (items.suffix.trans (behindLabel_suffix body))

/-! ## The reader over items -/

theorem items_readItems (text : List Char) : Items text (readItems text).rest := by
  induction text using induction_on_items with
  | stop text _ left =>
    rw [left]
    exact .nil text
  | word text w rest first more =>
    rw [(readItems_word first).2]
    exact .word first more
  | bracket text body rest opens closes inside more =>
    rw [(readItems_bracket opens closes).2]
    exact .bracket opens inside closes more

/-- Wherever items of the text end, the reader goes on from there. -/
theorem Items.readItems_rest {text rest : List Char} (h : Items text rest) :
    (readItems text).rest = (readItems rest).rest := by
  induction h with
  | nil => rfl
  | word first _ ih => rw [(readItems_word first).2, ih]
  | bracket opens _ closes _ ihi ihm =>
    rw [(readItems_closing closes).2] at ihi
    rw [(readItems_bracket opens (ihi ▸ closes)).2, ihm]

/-- The items that the reader goes over are the longest. -/
theorem Items.readItems_suffix {text rest : List Char} (h : Items text rest) : (readItems text).rest <:+ rest := by
  rw [h.readItems_rest]
  exact (items_readItems rest).suffix

theorem closes_iff {body rest : List Char} :
    Closes body rest ↔ skipBlanks (readItems (behindLabel body)).rest = ')' :: rest := by
  constructor
  · rintro ⟨inner, items, closes⟩
    rw [items.readItems_rest, (readItems_closing closes).2, closes]
  · exact fun closes => ⟨_, items_readItems _, closes⟩

/-! ## Whole texts -/

/-- Where the reading of a text stops that is not a bracketing with optional blanks around it: the code of the error
and the part of the text that it shows. -/
inductive StopsAt (text : List Char) : String → List Char → Prop
  | unopened (h : ∀ body, skipBlanks text ≠ '(' :: body) : StopsAt text "Char" (skipBlanks text)
  | surplus {body after : List Char} (opens : skipBlanks text = '(' :: body) (closed : Closes body after)
      (more : skipBlanks after ≠ []) : StopsAt text "Eof" (skipBlanks after)
  | unclosed {body rest : List Char} (opens : skipBlanks text = '(' :: body) (never : ∀ after, ¬Closes body after)
      (items : Items (behindLabel body) rest)
      (longest : ∀ other, Items (behindLabel body) other → rest <:+ other) : StopsAt text "Char" (skipBlanks rest)

theorem StopsAt.suffix {text rest : List Char} {code : String} (h : StopsAt text code rest) : rest <:+ text := by
  cases h with
  | unopened => exact skipBlanks_suffix text
  | @surplus body after opens closed =>
    exact (skipBlanks_suffix after).trans (closed.suffix.trans (suffix_of_skipBlanks opens))
  | @unclosed body rest opens _ items =>
    have rest_suffix : rest <:+ body := items.suffix.trans (behindLabel_suffix body)
    exact (skipBlanks_suffix rest).trans (rest_suffix.trans (suffix_of_skipBlanks opens))

theorem StopsAt.readTree_eq {text : String} {code : String} {rest : List Char} (h : StopsAt text.toList code rest) :
    ∃ expected : Expectation, expected.code = code ∧ readTree text = .error (unread expected rest) := by
  cases h with
  | unopened unopened => exact ⟨.bracket, rfl, readTree_missing (readNode_unopened unopened)⟩
  | surplus opens closed more =>
    obtain ⟨p, node, rfl, -⟩ := exists_readNode opens (closes_iff.mp closed)
    exact ⟨.endOfText, rfl, (readTree_bracket node).trans (if_neg more)⟩
  | @unclosed body rest opens never items longest =>
    have last : (readItems (behindLabel body)).rest = rest :=
      items.readItems_suffix.eq_of_length_le (longest _ (items_readItems _)).length_le
    have node := readNode_unclosed opens fun rest closes => never rest (closes_iff.mpr closes)
    rw [last] at node
    exact ⟨.bracket, rfl, readTree_missing node⟩

/-- A text is a bracketing whose labels are to be checked, or its reading stops somewhere. -/
theorem readTree_eq_checkLabels_or_stopsAt (text : String) :
    (∃ b, readTree text = checkLabels b) ∨ ∃ code rest, StopsAt text.toList code rest := by
  by_cases opened : ∃ body, skipBlanks text.toList = '(' :: body
  · obtain ⟨body, opens⟩ := opened
    by_cases closed : ∃ after, Closes body after
    · obtain ⟨after, closed⟩ := closed
      by_cases more : skipBlanks after = []
      · obtain ⟨p, node, rfl, -⟩ := exists_readNode opens (closes_iff.mp closed)
        exact .inl ⟨p.value, (readTree_bracket node).trans (if_pos more)⟩
      · exact .inr ⟨_, _, .surplus opens closed more⟩
    · exact .inr ⟨_, _, .unclosed opens (not_exists.mp closed) (items_readItems _) fun _ => Items.readItems_suffix⟩
  · exact .inr ⟨_, _, .unopened (not_exists.mp opened)⟩

theorem checkLabels_ne_unread (b : Bracketing) (expected : Expectation) (rest : String) :
    checkLabels b ≠ .error (.unread expected rest) := by
  unfold checkLabels
  cases b.tree? <;> simp

theorem Expectation.code_injective {e e' : Expectation} (h : e.code = e'.code) : e = e' := by
  cases e <;> cases e' <;> simp_all [Expectation.code]

/-- Reading errors point at the right place: a text is rejected while it is read just where its reading stops, which is
a part at its end. -/
theorem readTree_stopsAt (text : String) (expected : Expectation) (rest : String) :
    readTree text = .error (.unread expected rest) ↔
      StopsAt text.toList expected.code rest.toList ∧ rest.toList <:+ text.toList := by
  constructor
  · intro rejected
    rcases readTree_eq_checkLabels_or_stopsAt text with ⟨b, reading⟩ | ⟨code, shown, stops⟩
    · exact absurd (reading.symm.trans rejected) (checkLabels_ne_unread b expected rest)
    · obtain ⟨e, rfl, reading⟩ := stops.readTree_eq
      obtain ⟨rfl, rfl⟩ : e = expected ∧ String.ofList shown = rest := by
        simpa [unread] using reading.symm.trans rejected
      rw [String.toList_ofList]
      exact ⟨stops, stops.suffix⟩
  · rintro ⟨stops, -⟩
    obtain ⟨e, same, reading⟩ := stops.readTree_eq
    rw [reading, unread, String.ofList_toList, Expectation.code_injective same]

example : readTree " ( S a (B b) (C (D" = .error (.unread .bracket "(C (D") := by decide +kernel

end Constituency.Treebank
