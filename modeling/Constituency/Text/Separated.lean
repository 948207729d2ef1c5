/-
Lists cut at a separator: the lines of a text, the names of a path. Joining the pieces with the separator
gives the list back, and no piece holds it, so the pieces are the only ones.
-/

namespace Constituency.Text

variable {α : Type} [DecidableEq α]

/-- One step of `separated`: a mark starts a piece, any other item extends the piece behind it. -/
def extendPieces (mark a : α) (pieces : List α × List (List α)) : List α × List (List α) :=
  if a = mark then ([], pieces.1 :: pieces.2) else (a :: pieces.1, pieces.2)

/-- The first piece between marks, and the others. -/
def firstAndRest (mark : α) (items : List α) : List α × List (List α) :=
  items.foldr (extendPieces mark) ([], [])

/-- The pieces between marks, one more than there are marks. -/
def separated (mark : α) (items : List α) : List (List α) :=
  (firstAndRest mark items).1 :: (firstAndRest mark items).2

@[simp] theorem separated_nil (mark : α) : separated mark [] = [[]] := rfl

theorem separated_cons_mark (mark : α) (items : List α) :
    separated mark (mark :: items) = [] :: separated mark items := by
  simp [separated, firstAndRest, extendPieces]

theorem separated_cons_of_ne {mark a : α} (h : a ≠ mark) (items : List α) :
    separated mark (a :: items) = (a :: (firstAndRest mark items).1) :: (firstAndRest mark items).2 := by
  simp [separated, firstAndRest, extendPieces, h]

/-- No piece holds the mark. -/
theorem not_mem_of_mem_separated {mark : α} {items piece : List α} (h : piece ∈ separated mark items) :
    mark ∉ piece := by
  induction items generalizing piece with
  | nil => simp_all
  | cons a items ih =>
    by_cases ha : a = mark
    · subst ha
      rw [separated_cons_mark] at h
      rcases List.mem_cons.1 h with rfl | h
      · simp
      · exact ih h
    · rw [separated_cons_of_ne ha] at h
      rcases List.mem_cons.1 h with rfl | h
      · have hfirst : mark ∉ (firstAndRest mark items).1 := ih (by simp [separated])
        simp [hfirst, Ne.symm ha]
      · exact ih (by simp [separated, h])

/-- Nothing but the marks is lost. -/
theorem intercalate_separated (mark : α) (items : List α) :
    [mark].intercalate (separated mark items) = items := by
  induction items with
  | nil => rfl
  | cons a items ih =>
    by_cases ha : a = mark
    · subst ha
      rw [separated_cons_mark]
      simp only [separated] at ih ⊢
      rw [List.intercalate_cons_cons, ih]
      rfl
    · rw [separated_cons_of_ne ha]
      simp only [separated] at ih
      cases hrest : (firstAndRest mark items).2 with
      | nil => simp_all
      | cons next rest => simp_all [List.intercalate_cons_cons]

end Constituency.Text
