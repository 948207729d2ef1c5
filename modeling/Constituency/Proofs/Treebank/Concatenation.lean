/-
Treebank texts one behind the other. A text that reads as trees ends behind a bracket or in blanks, so that no word runs
over its end and its lexemes stay what they are in front of another text (`Lexes.append`). Its brackets are all closed,
hence reading goes on with the text behind, and what is left over behind both is what the second one leaves over by
itself. So trees add up, and an error of the second text stays what it is (`readTrees_append`).
-/
import Constituency.Proofs.Treebank.Reading

namespace Constituency.Treebank

open Text

/-! ## Scanning on -/

/-- What is read as trees does not end in a word. -/
theorem SpellsTrees.getLast?_ne_word {ls : List Lexeme} {ts : Forest} (h : SpellsTrees ls ts) (w : List Char) :
    ls.getLast? ≠ some (.word w) := by
  have behind {ls : List Lexeme} (front : List Lexeme) (ih : ls.getLast? ≠ some (.word w)) :
      (front ++ .closing :: ls).getLast? ≠ some (.word w) := by
    rw [List.getLast?_append_cons, List.getLast?_cons]
    cases last : ls.getLast? with
    | none => simp
    | some l => simpa [last] using ih
  induction h with
  | nil => simp
  | @labelled l inner _ _ _ _ _ ih => exact behind (.opening :: .word l :: inner) ih
  | @unlabelled inner _ _ _ _ _ _ _ ih => exact behind (.opening :: inner) ih

/-- A text starts with the same lexeme when another one is put behind it, unless that lexeme is a word that goes up to
its end. -/
theorem Starts.append {text rest : List Char} {l : Lexeme} (h : Starts text l rest)
    (outside : ∀ w, l = .word w → rest ≠ []) (more : List Char) : Starts (text ++ more) l (rest ++ more) := by
  cases h with
  | opening => exact .opening (rest ++ more)
  | closing => exact .closing (rest ++ more)
  | @word w _ nonempty all ends =>
    have ends : EndsWord (rest ++ more) := by
      cases rest with
      | nil => exact absurd rfl (outside w rfl)
      | cons c rest => exact ends
    rw [List.append_assoc]
    exact .word nonempty all ends

/-- Lexemes at the start of a text stand there too when another text is put behind it, unless the last one is a word. -/
theorem Lexes.append {text rest : List Char} {ls : List Lexeme} (h : Lexes text ls rest)
    (outside : ∀ w, ls.getLast? ≠ some (.word w)) (more : List Char) : Lexes (text ++ more) ls (rest ++ more) := by
  induction h with
  | nil => exact .nil _
  | blank hc _ ih => exact .blank hc (ih outside)
  | @lexeme text middle rest l ls first behind ih =>
    have inside : ∀ w, ls.getLast? ≠ some (.word w) := by
      intro w last
      exact outside w (by rw [List.getLast?_cons, last]; rfl)
    refine .lexeme (first.append ?_ more) (ih inside)
    -- a word that goes up to the end of the text would be its last lexeme
    rintro w rfl rfl
    exact outside w (by simp [behind.eq_nil])

/-! ## Reading on -/

theorem checkAll_append {bs : List Bracketing} {ts : Forest} (h : checkAll bs = .ok ts) (more : List Bracketing) :
    checkAll (bs ++ more) = (checkAll more).map (ts ++ ·) := by
  rw [checkAll, List.mapM_append]
  show ((checkAll bs).bind fun ts => (checkAll more).bind fun us => .ok (ts ++ us)) = _
  rw [h]
  cases checkAll more <;> rfl

/-- Behind a text that reads as trees, reading goes on as if nothing had been in front. -/
theorem readTrees_append {a : String} {ts : Forest} (h : readTrees a = .ok ts) (b : String) :
    readTrees (a ++ b) = (readTrees b).map (ts ++ ·) := by
  obtain ⟨spaced, spelt⟩ := readTrees_eq_ok_iff_spellsTrees.mp h
  have lexes := (lexes_lexemesOf spaced).append spelt.getLast?_ne_word b.toList
  obtain ⟨bs, ok, value, left⟩ := exists_readNodes_append spelt lexes
  rw [List.nil_append] at value left
  rw [readTrees_eq, readTrees_eq, String.toList_append, value, left]
  split
  · exact checkAll_append ok _
  · rfl

/-! ## Errors -/

theorem eq_emptyLabel_of_checkLabels {b : Bracketing} {e : SyntaxError} (h : checkLabels b = .error e) :
    e = .emptyLabel := by
  unfold checkLabels at h
  split at h
  · cases h
  · cases h
    rfl

theorem eq_emptyLabel_of_checkAll {bs : List Bracketing} {e : SyntaxError} (h : checkAll bs = .error e) :
    e = .emptyLabel := by
  induction bs with
  | nil => cases h
  | cons b bs ih =>
    rw [checkAll, List.mapM_cons] at h
    change ((checkLabels b).bind fun t => (checkAll bs).bind fun ts => .ok (t :: ts)) = .error e at h
    cases first : checkLabels b with
    | error e' =>
      rw [first] at h
      cases h
      exact eq_emptyLabel_of_checkLabels first
    | ok t =>
      rw [first] at h
      cases rest : checkAll bs with
      | error e' =>
        rw [rest] at h
        cases h
        exact ih rest
      | ok ts =>
        rw [rest] at h
        cases h

/-- Reading a list of trees fails because of a label, or because something is left over that is no further tree. -/
theorem eq_of_readTrees_error {text : String} {e : SyntaxError} (h : readTrees text = .error e) :
    e = .emptyLabel ∨ ∃ rest, e = .unread .endOfText rest := by
  rw [readTrees_eq] at h
  split at h
  · exact .inl (eq_emptyLabel_of_checkAll h)
  · cases h
    exact .inr ⟨_, rfl⟩

/-- Treebank texts compose: behind a text that reads as trees, the trees of another text are added, and an error of the
other text is the error of both, with the same rest. No error of a list of trees asks for a bracket. -/
theorem readTrees_composes :
    (∀ a b ts, readTrees a = .ok ts →
      (∀ us, readTrees b = .ok us → readTrees (a ++ b) = .ok (ts ++ us)) ∧
      ∀ e, readTrees b = .error e → readTrees (a ++ b) = .error e ∧
        (e = .emptyLabel ∨ ∃ expected rest, e = .unread expected rest ∧ expected.code = "Eof")) ∧
    ∀ text expected rest, readTrees text = .error (.unread expected rest) → expected.code ≠ "Char" := by
  refine ⟨fun a b ts ha => ⟨fun us hb => ?_, fun e hb => ⟨?_, ?_⟩⟩, fun text expected rest rejected => ?_⟩
  · rw [readTrees_append ha, hb]
    rfl
  · rw [readTrees_append ha, hb]
    rfl
  · exact (eq_of_readTrees_error hb).imp_right fun ⟨rest, shown⟩ => ⟨.endOfText, rest, shown, rfl⟩
  · rcases eq_of_readTrees_error rejected with label | ⟨shown, unread⟩
    · cases label
    · cases unread
      decide

/-- Behind a sentence and a line end stand another sentence, an unfinished one, and one without a label inside. -/
theorem readTrees_composes_sentence :
    readTrees "( (S dogs (VP run)) )\r\n" = .ok [.node "ROOT" [.node "S" [.leaf "dogs", .node "VP" [.leaf "run"]]]] ∧
      readTrees ("( (S dogs (VP run)) )\r\n" ++ "\t(X x)") =
        .ok [.node "ROOT" [.node "S" [.leaf "dogs", .node "VP" [.leaf "run"]]], .node "X" [.leaf "x"]] ∧
      readTrees ("( (S dogs (VP run)) )\r\n" ++ " (S (NP x) (VP") = .error (.unread .endOfText "(S (NP x) (VP") ∧
      readTrees ("( (S dogs (VP run)) )\r\n" ++ "x (S") = .error (.unread .endOfText "x (S") ∧
      readTrees ("( (S dogs (VP run)) )\r\n" ++ "(S (() x))") = .error .emptyLabel ∧
      Expectation.endOfText.code ≠ "Char" := by
  have first : readTrees "( (S dogs (VP run)) )\r\n" =
      .ok [.node "ROOT" [.node "S" [.leaf "dogs", .node "VP" [.leaf "run"]]]] := by decide +kernel
  have unfinished : readTrees " (S (NP x) (VP" = .error (.unread .endOfText "(S (NP x) (VP") := by decide +kernel
  obtain ⟨-, errors⟩ := readTrees_composes.1 _ " (S (NP x) (VP" _ first
  refine ⟨first, (readTrees_composes.1 _ _ _ first).1 _ (by decide +kernel), (errors _ unfinished).1,
    ((readTrees_composes.1 _ _ _ first).2 _ (by decide +kernel)).1,
    ((readTrees_composes.1 _ _ _ first).2 _ (by decide +kernel)).1, readTrees_composes.2 _ _ _ unfinished⟩

end Constituency.Treebank
