/-
Both written forms of a tree read back. What they have in common is a relation: a node is written as its
label and its children between brackets, with some blanks in front of each child. Whatever is written so
reads back, because the blanks end the word in front of them and brackets need none; the forms differ only
in the blanks they choose.
-/
import Constituency.Tree.Layout
import Constituency.Proofs.Treebank.Reading

namespace Constituency

open Text Treebank

/-! ## Written trees -/

/-- Blanks, or nothing. -/
def IsGap (text : List Char) : Prop := ∀ c ∈ text, isBlank c = true

mutual

/-- The text writes the tree in some layout. -/
inductive Tree.WrittenAs : Tree → List Char → Prop
  | leaf (w : String) : Tree.WrittenAs (.node w []) w.toList
  | node (l : String) {ts : Forest} {text : List Char} (nonempty : ts ≠ []) (children : Forest.WrittenAs ts text) :
      Tree.WrittenAs (.node l ts) ('(' :: (l.toList ++ (text ++ [')'])))

/-- The text writes the trees one after another, each behind at least one blank. -/
inductive Forest.WrittenAs : Forest → List Char → Prop
  | nil : Forest.WrittenAs [] []
  | cons {gap text rest : List Char} {t : Tree} {ts : Forest} (nonempty : gap ≠ []) (blank : IsGap gap)
      (first : Tree.WrittenAs t text) (more : Forest.WrittenAs ts rest) :
      Forest.WrittenAs (t :: ts) (gap ++ (text ++ rest))

end

mutual

theorem Tree.writtenAs_bracketed : (t : Tree) → t.WrittenAs t.bracketed.toList
  | .node w [] => .leaf w
  | .node l (t :: ts) => by
    rw [Tree.bracketed_node l (List.cons_ne_nil t ts)]
    simpa using Tree.WrittenAs.node l (List.cons_ne_nil t ts) (Forest.writtenAs_bracketed (t :: ts))

theorem Forest.writtenAs_bracketed : (ts : Forest) → Forest.WrittenAs ts (Forest.bracketed ts).toList
  | [] => .nil
  | t :: ts => by
    rw [Forest.bracketed]
    have space : IsGap [' '] := by simp [IsGap, isBlank]
    simpa using Forest.WrittenAs.cons (List.cons_ne_nil _ _) space t.writtenAs_bracketed
      (Forest.writtenAs_bracketed ts)

end

/-- A line end or a space, whatever the siblings are. -/
theorem Tree.isGap_separator (depth : Nat) (before : Option Tree) (t : Tree) :
    (t.separator depth before).toList ≠ [] ∧ IsGap (t.separator depth before).toList := by
  unfold Tree.separator
  split
  · simp [IsGap, isBlank]
  · simp only [Tree.newLine, String.toList_append, String.toList_ofList]
    simp [IsGap, isBlank]

mutual

theorem Tree.writtenAs_indented (depth : Nat) : (t : Tree) → t.WrittenAs (t.indented depth).toList
  | .node w [] => .leaf w
  | .node l (t :: ts) => by
    rw [Tree.indented]
    split
    · exact Tree.writtenAs_bracketed _
    · obtain ⟨nonempty, blank⟩ := t.isGap_separator (depth + 1) none
      have children := Forest.WrittenAs.cons nonempty blank (t.writtenAs_indented (depth + 1))
        (Forest.writtenAs_indented (depth + 1) t ts)
      simpa using Tree.WrittenAs.node l (List.cons_ne_nil t ts) children

theorem Forest.writtenAs_indented (depth : Nat) (before : Tree) :
    (ts : Forest) → Forest.WrittenAs ts (Forest.indented depth before ts).toList
  | [] => .nil
  | t :: ts => by
    rw [Forest.indented]
    obtain ⟨nonempty, blank⟩ := t.isGap_separator depth (some before)
    simpa using Forest.WrittenAs.cons nonempty blank (t.writtenAs_indented depth)
      (Forest.writtenAs_indented depth t ts)

end

/-! ## Lexemes of written trees -/

mutual

/-- The lexemes of a tree, which are the same in every layout. -/
def Tree.lexemes : Tree → List Lexeme
  | .node w [] => [.word w.toList]
  | .node l (t :: ts) => .opening :: .word l.toList :: (t.lexemes ++ Forest.lexemes ts ++ [.closing])

def Forest.lexemes : Forest → List Lexeme
  | [] => []
  | t :: ts => t.lexemes ++ Forest.lexemes ts

end

theorem Tree.lexemes_node (l : String) {ts : Forest} (h : ts ≠ []) :
    (Tree.node l ts).lexemes = .opening :: .word l.toList :: (Forest.lexemes ts ++ [.closing]) := by
  cases ts with
  | nil => contradiction
  | cons t ts => rw [Tree.lexemes, Forest.lexemes]

mutual

theorem Tree.spells_lexemes : (t : Tree) → {ls : List Lexeme} → {ts : Forest} → SpellsItems ls ts →
    SpellsItems (t.lexemes ++ ls) (t :: ts)
  | .node w [], ls, ts, more => by simpa [Tree.lexemes, Tree.leaf] using SpellsItems.word w.toList more
  | .node l (t :: ts), ls, us, more => by
    rw [Tree.lexemes_node l (List.cons_ne_nil t ts)]
    simpa using SpellsItems.bracket l.toList (Forest.spells_lexemes (t :: ts)) more

theorem Forest.spells_lexemes : (ts : Forest) → SpellsItems (Forest.lexemes ts) ts
  | [] => .nil
  | t :: ts => t.spells_lexemes (Forest.spells_lexemes ts)

end

/-- A label that reads as one word. -/
def IsLabel (l : String) : Prop := l ≠ "" ∧ ∀ c ∈ l.toList, isWordChar c = true

theorem IsLabel.lexes {l : String} (h : IsLabel l) {rest : List Char} (ends : EndsWord rest) :
    Lexes (l.toList ++ rest) [.word l.toList] rest :=
  .starts (.word (by simpa using h.1) h.2 ends)

theorem Forest.WrittenAs.endsWord {ts : Forest} {text rest : List Char} (h : Forest.WrittenAs ts text)
    (ends : EndsWord rest) : EndsWord (text ++ rest) := by
  cases h with
  | nil => exact ends
  | @cons gap _ _ _ _ nonempty blank =>
    match gap, nonempty with
    | c :: gap, _ =>
      rintro _ ⟨rfl⟩
      have := isWhiteSpace_of_isBlank (blank c (by simp))
      simp [isWordChar, this]

mutual

/-- A written tree reads as its lexemes. A leaf does so only when its word ends there; a bracket needs nothing. -/
theorem Tree.WrittenAs.lexes {t : Tree} {text : List Char} : t.WrittenAs text →
    (∀ s ∈ t.subtrees, IsLabel s.label) → {rest : List Char} → (t.children = [] → EndsWord rest) →
    Lexes (text ++ rest) t.lexemes rest
  | .leaf w, labels, rest, ends => (labels _ (Tree.self_mem_subtrees _)).lexes (ends rfl)
  | .node l nonempty children, labels, rest, _ => by
    obtain ⟨label, below⟩ := Tree.forall_mem_subtrees_node.mp labels
    have close : EndsWord (')' :: rest) := by rintro _ ⟨rfl⟩; decide
    -- the label ends in front of the blank before the first child, the last child in front of the bracket
    have word := label.lexes (children.endsWord close)
    have all := (Lexes.starts (.opening _)).trans
      (word.trans ((children.lexes below close).trans (.starts (.closing rest))))
    rw [Tree.lexemes_node l nonempty]
    simpa using all

theorem Forest.WrittenAs.lexes {ts : Forest} {text : List Char} : Forest.WrittenAs ts text →
    (∀ t ∈ ts, ∀ s ∈ t.subtrees, IsLabel s.label) → {rest : List Char} → EndsWord rest →
    Lexes (text ++ rest) (Forest.lexemes ts) rest
  | .nil, _, rest, _ => .nil rest
  | .cons _ blank first more, labels, rest, ends => by
    obtain ⟨label, labels⟩ := List.forall_mem_cons.mp labels
    have := (Lexes.gap blank _).trans
      ((first.lexes label (fun _ => more.endsWord ends)).trans (more.lexes labels ends))
    rw [Forest.lexemes]
    simpa using this

end

/-! ## Reading back -/

/-- A tree with children whose labels all read as one word. -/
structure Tree.Writable (t : Tree) : Prop where
  children : t.children ≠ []
  labels : ∀ s ∈ t.subtrees, IsLabel s.label

/-- A list of bracketed trees spells these trees. -/
theorem Forest.spellsTrees_lexemes : (ts : Forest) → (∀ t ∈ ts, t.children ≠ []) →
    SpellsTrees (Forest.lexemes ts) ts
  | [], _ => .nil
  | .node l us :: ts, h => by
    obtain ⟨nonempty, h⟩ := List.forall_mem_cons.mp h
    rw [Tree.children_node] at nonempty
    rw [Forest.lexemes, Tree.lexemes_node l nonempty]
    simpa using SpellsTrees.labelled l.toList (Forest.spells_lexemes us) (Forest.spellsTrees_lexemes ts h)

/-- The written forms of a tree. -/
inductive Form where
  | bracketed
  | penn

def Form.write : Form → Tree → String
  | bracketed, t => t.bracketed
  | penn, t => t.penn

/-- A tree with the blanks in front of it, to be written in one of the forms. -/
structure Passage where
  gap : String
  form : Form
  tree : Tree

def Passage.text (p : Passage) : String := p.gap ++ p.form.write p.tree

theorem Form.lexes_write (f : Form) {t : Tree} (h : t.Writable) (rest : List Char) :
    Lexes ((f.write t).toList ++ rest) t.lexemes rest := by
  have bracket : ∀ rest, t.children = [] → EndsWord rest := fun _ leaf => absurd leaf h.children
  cases f with
  | bracketed => exact t.writtenAs_bracketed.lexes h.labels (bracket rest)
  | penn =>
    have lineEnd : IsGap ['\n'] := by simp [IsGap, isBlank]
    have := ((t.writtenAs_indented 0).lexes h.labels (bracket _)).trans (Lexes.gap lineEnd rest)
    simpa [Form.write, Tree.penn] using this

theorem lexes_passages : (passages : List Passage) →
    (∀ p ∈ passages, IsGap p.gap.toList ∧ p.tree.Writable) → (rest : List Char) →
    Lexes ((String.join (passages.map Passage.text)).toList ++ rest) (Forest.lexemes (passages.map Passage.tree)) rest
  | [], _, rest => .nil rest
  | p :: passages, h, rest => by
    obtain ⟨⟨blank, writable⟩, h⟩ := List.forall_mem_cons.mp h
    have := (Lexes.gap blank _).trans ((p.form.lexes_write writable _).trans (lexes_passages passages h rest))
    simpa [Passage.text, Forest.lexemes, String.join_cons] using this

theorem readTrees_passages (passages : List Passage) (trail : String)
    (h : ∀ p ∈ passages, IsGap p.gap.toList ∧ p.tree.Writable) (blank : IsGap trail.toList) :
    readTrees (String.join (passages.map Passage.text) ++ trail) = .ok (passages.map Passage.tree) := by
  have gap : Lexes trail.toList [] [] := by simpa using Lexes.gap blank []
  obtain ⟨spaced, lexemes⟩ := lexes_nil_iff.mp ((lexes_passages passages h _).trans gap)
  have children : ∀ t ∈ passages.map Passage.tree, t.children ≠ [] := by
    simpa using fun p hp => (h p hp).2.children
  rw [readTrees_eq_ok_iff_spellsTrees, String.toList_append, lexemes, List.append_nil]
  exact ⟨spaced, Forest.spellsTrees_lexemes _ children⟩

theorem readTree_write (f : Form) {t : Tree} (h : t.Writable) : readTree (f.write t) = .ok t := by
  have := readTrees_passages [⟨"", f, t⟩] "" (by simpa [IsGap] using h) (by simp [IsGap])
  refine readTree_eq_ok_iff_readTrees.mpr ?_
  simpa [Passage.text, String.join] using this

/-- Both written forms of a tree read back, alone and in any mixture with blanks between them. -/
theorem read_written :
    (∀ t : Tree, t.Writable → readTree t.bracketed = .ok t ∧ readTree t.penn = .ok t) ∧
      ∀ (passages : List Passage) (trail : String), (∀ p ∈ passages, IsGap p.gap.toList ∧ p.tree.Writable) →
        IsGap trail.toList →
        readTrees (String.join (passages.map Passage.text) ++ trail) = .ok (passages.map Passage.tree) :=
  ⟨fun _ h => ⟨readTree_write .bracketed h, readTree_write .penn h⟩, readTrees_passages⟩

/-- A node with a preterminal, a coordinator and a bare leaf below it. -/
def mixedNode : Tree :=
  .node "S" [.node "NP" [.preterminal "NN" "dogs", .preterminal "CC" "and", .preterminal "NN" "cats"],
    .leaf "loudly", .node "VP" [.preterminal "VBP" "run"]]

theorem mixedNode_writable : mixedNode.Writable := by
  constructor
  · simp [mixedNode]
  · simp [mixedNode, Tree.subtrees_node, IsLabel, Tree.preterminal, Tree.leaf]
    decide

theorem read_written_mixedNode :
    readTree mixedNode.bracketed = .ok mixedNode ∧ readTree mixedNode.penn = .ok mixedNode ∧
      readTrees ("(S\n  (NP (NN dogs)\n    (CC and)\n    (NN cats))\n  loudly\n  (VP (VBP run)))\n" ++
        "\t(S (NP (NN dogs) (CC and) (NN cats)) loudly (VP (VBP run)))\r\n") = .ok [mixedNode, mixedNode] := by
  obtain ⟨bracketed, penn⟩ := read_written.1 mixedNode mixedNode_writable
  have both := read_written.2 [⟨"", .penn, mixedNode⟩, ⟨"\t", .bracketed, mixedNode⟩] "\r\n"
    (by simpa [IsGap, isBlank] using mixedNode_writable) (by simp [IsGap, isBlank])
  refine ⟨bracketed, penn, ?_⟩
  have text : String.join ([⟨"", .penn, mixedNode⟩, ⟨"\t", .bracketed, mixedNode⟩].map Passage.text) ++ "\r\n" =
      "(S\n  (NP (NN dogs)\n    (CC and)\n    (NN cats))\n  loudly\n  (VP (VBP run)))\n" ++
        "\t(S (NP (NN dogs) (CC and) (NN cats)) loudly (VP (VBP run)))\r\n" := by decide +kernel
  exact text ▸ both

end Constituency
