/-
The language of treebank texts as a grammar over lexemes. Inside a bracket stand words and labelled brackets; a text is
a list of outermost brackets, and these may go without a label when they hold something. A word directly behind an
opening bracket is always the label, so that a list of lexemes has one list of trees at most (`SpellsTrees.unique`). The
bracketings that are read spell what the grammar says they do.
-/
import Constituency.Treebank.Bracketing
import Constituency.Proofs.Treebank.Lexemes

namespace Constituency.Treebank

/-! ## The grammar -/

/-- What stands inside a bracket behind its label: words, and brackets with a label of their own. -/
inductive SpellsItems : List Lexeme → Forest → Prop
  | nil : SpellsItems [] []
  | word (w : List Char) {ls : List Lexeme} {ts : Forest} (more : SpellsItems ls ts) :
      SpellsItems (.word w :: ls) (.leaf (String.ofList w) :: ts)
  | bracket (l : List Char) {inner ls : List Lexeme} {us ts : Forest} (items : SpellsItems inner us)
      (more : SpellsItems ls ts) :
      SpellsItems (.opening :: .word l :: (inner ++ .closing :: ls)) (.node (String.ofList l) us :: ts)

/-- A list of outermost brackets. One without a label is a node over the whole sentence; it holds
something, and it does not start with a word, since that word would be its label. -/
inductive SpellsTrees : List Lexeme → Forest → Prop
  | nil : SpellsTrees [] []
  | labelled (l : List Char) {inner ls : List Lexeme} {us ts : Forest} (items : SpellsItems inner us)
      (more : SpellsTrees ls ts) :
      SpellsTrees (.opening :: .word l :: (inner ++ .closing :: ls)) (.node (String.ofList l) us :: ts)
  | unlabelled {inner ls : List Lexeme} {us ts : Forest} (items : SpellsItems inner us) (nonempty : us ≠ [])
      (first : ∀ w, inner.head? ≠ some (.word w)) (more : SpellsTrees ls ts) :
      SpellsTrees (.opening :: (inner ++ .closing :: ls)) (.node rootLabel us :: ts)

/-! ## The lexemes of a bracketing -/

def labelLexemes : Option String → List Lexeme
  | none => []
  | some l => [.word l.toList]

mutual

def Bracketing.lexemes : Bracketing → List Lexeme
  | .word text => [.word text.toList]
  | .bracket label items => .opening :: (labelLexemes label ++ (Bracketing.itemLexemes items ++ [.closing]))

def Bracketing.itemLexemes : List Bracketing → List Lexeme
  | [] => []
  | item :: items => item.lexemes ++ Bracketing.itemLexemes items

end

@[simp] theorem Bracketing.itemLexemes_eq (items : List Bracketing) :
    Bracketing.itemLexemes items = items.flatMap Bracketing.lexemes := by
  induction items with
  | nil => rfl
  | cons item items ih => rw [Bracketing.itemLexemes, ih, List.flatMap_cons]

@[simp] theorem Bracketing.lexemes_word (text : String) : (word text).lexemes = [.word text.toList] := rfl

@[simp] theorem Bracketing.lexemes_bracket (label : Option String) (items : List Bracketing) :
    (bracket label items).lexemes =
      .opening :: (labelLexemes label ++ (items.flatMap Bracketing.lexemes ++ [.closing])) := by
  rw [Bracketing.lexemes, Bracketing.itemLexemes_eq]

/-! ## The trees of bracketings -/

@[simp] theorem Bracketing.innerForest?_nil : innerForest? [] = some [] := rfl

theorem Bracketing.innerForest?_cons {item : Bracketing} {items : List Bracketing} {ts : Forest} :
    innerForest? (item :: items) = some ts ↔
      ∃ u us, item.innerTree? = some u ∧ innerForest? items = some us ∧ ts = u :: us := by
  simp only [innerForest?, Option.bind_eq_bind, Option.bind_eq_some_iff, Option.pure_def, Option.some.injEq]
  constructor
  · rintro ⟨u, hu, us, hus, rfl⟩
    exact ⟨u, us, hu, hus, rfl⟩
  · rintro ⟨u, us, hu, hus, rfl⟩
    exact ⟨u, hu, us, hus, rfl⟩

mutual

theorem Bracketing.spells : (b : Bracketing) → {t : Tree} → b.innerTree? = some t →
    {ls : List Lexeme} → {ts : Forest} → SpellsItems ls ts → SpellsItems (b.lexemes ++ ls) (t :: ts)
  | .word text, t, h, ls, ts, more => by
    obtain rfl := Option.some.inj h
    simpa using SpellsItems.word text.toList more
  | .bracket none _, _, h, _, _, _ => nomatch h
  | .bracket (some l) items, t, h, ls, ts, more => by
    obtain ⟨us, hus, rfl⟩ := Option.map_eq_some_iff.mp h
    simpa [labelLexemes] using SpellsItems.bracket l.toList (Bracketing.spells_items items hus) more

theorem Bracketing.spells_items : (items : List Bracketing) → {ts : Forest} → innerForest? items = some ts →
    SpellsItems (items.flatMap Bracketing.lexemes) ts
  | [], ts, h => by
    obtain rfl := Option.some.inj h
    exact .nil
  | item :: items, ts, h => by
    obtain ⟨u, us, hu, hus, rfl⟩ := Bracketing.innerForest?_cons.mp h
    exact Bracketing.spells item hu (Bracketing.spells_items items hus)

end

/-- The items do not start with a word. -/
def NoWordFirst (items : List Bracketing) : Prop := ∀ text, items.head? ≠ some (.word text)

theorem NoWordFirst.head?_lexemes {items : List Bracketing} (h : NoWordFirst items) (w : List Char) :
    (items.flatMap Bracketing.lexemes).head? ≠ some (.word w) := by
  match items with
  | [] => simp
  | .word text :: _ => exact absurd rfl (h text)
  | .bracket _ _ :: _ => simp

/-- A bracket that has no label because there was no word to be one. -/
def Bracketing.Outermost : Bracketing → Prop
  | .word _ => False
  | .bracket label items => label = none → NoWordFirst items

/-- An outermost bracket with labels in order spells its tree. -/
theorem Bracketing.Outermost.spells {b : Bracketing} (outermost : b.Outermost) {t : Tree} (h : b.tree? = some t)
    {ls : List Lexeme} {ts : Forest} (more : SpellsTrees ls ts) : SpellsTrees (b.lexemes ++ ls) (t :: ts) := by
  match b, outermost with
  | .bracket (some l) items, _ =>
    obtain ⟨us, hus, rfl⟩ := Option.map_eq_some_iff.mp h
    simpa [labelLexemes] using SpellsTrees.labelled l.toList (Bracketing.spells_items items hus) more
  | .bracket none (item :: items), first =>
    obtain ⟨us, hus, rfl⟩ := Option.map_eq_some_iff.mp h
    have nonempty : us ≠ [] := by
      obtain ⟨u, us, -, -, rfl⟩ := Bracketing.innerForest?_cons.mp hus
      exact List.cons_ne_nil u us
    have spelt := SpellsTrees.unlabelled (Bracketing.spells_items (item :: items) hus) nonempty
      (first rfl).head?_lexemes more
    simpa [labelLexemes] using spelt

/-! ## The grammar is unambiguous -/

/-- The items of a bracket and their trees are known from any lexemes in which the bracket is closed behind them. -/
theorem SpellsItems.unique {ls ls' ms ms' : List Lexeme} {ts ts' : Forest} (h : SpellsItems ls ts)
    (h' : SpellsItems ls' ts') (all : ls ++ .closing :: ms = ls' ++ .closing :: ms') :
    ls = ls' ∧ ts = ts' ∧ ms = ms' := by
  induction h generalizing ls' ts' ms ms' with
  | nil =>
    cases h' with
    | nil => exact ⟨rfl, rfl, (List.cons.inj all).2⟩
    | word | bracket => simp at all
  | word w _ ih =>
    cases h' with
    | nil | bracket => simp at all
    | word w' more' =>
      obtain ⟨first, same⟩ := List.cons.inj all
      obtain rfl := Lexeme.word.inj first
      obtain ⟨rfl, rfl, rfl⟩ := ih more' same
      exact ⟨rfl, rfl, rfl⟩
  | bracket l _ _ ihi ihm =>
    cases h' with
    | nil | word => simp at all
    | bracket l' items' more' =>
      obtain ⟨rfl, same⟩ : l = l' ∧ _ := by simpa using all
      obtain ⟨rfl, rfl, behind⟩ := ihi items' same
      obtain ⟨rfl, rfl, rfl⟩ := ihm more' behind
      exact ⟨rfl, rfl, rfl⟩

/-- What stands in a bracket without a label cannot be read as a label and items. -/
theorem word_cons_ne_closed {l : List Char} {inner ls ms : List Lexeme} (first : ∀ w, inner.head? ≠ some (.word w)) :
    .word l :: ms ≠ inner ++ .closing :: ls := by
  cases inner with
  | nil => simp
  | cons x inner =>
    intro same
    exact first l (congrArg some (List.cons.inj same).1.symm)

/-- The lexemes determine their trees. -/
theorem SpellsTrees.unique {ls : List Lexeme} {ts us : Forest} (ht : SpellsTrees ls ts) (hu : SpellsTrees ls us) :
    ts = us := by
  induction ht generalizing us with
  | nil =>
    cases hu
    rfl
  | @labelled l inner ls vs ts items more ih =>
    generalize all : Lexeme.opening :: .word l :: (inner ++ .closing :: ls) = text at hu
    cases hu with
    | nil => nomatch all
    | labelled l' items' more' =>
      obtain ⟨rfl, same⟩ : l = l' ∧ _ := by simpa using all
      obtain ⟨rfl, rfl, rfl⟩ := items.unique items' same
      rw [ih more']
    | unlabelled _ _ first => exact absurd (List.cons.inj all).2 (word_cons_ne_closed first)
  | @unlabelled inner ls vs ts items nonempty first more ih =>
    generalize all : Lexeme.opening :: (inner ++ .closing :: ls) = text at hu
    cases hu with
    | nil => nomatch all
    | labelled => exact absurd (List.cons.inj all).2.symm (word_cons_ne_closed first)
    | unlabelled items' _ _ more' =>
      obtain ⟨rfl, rfl, rfl⟩ := items.unique items' (List.cons.inj all).2
      rw [ih more']

end Constituency.Treebank
