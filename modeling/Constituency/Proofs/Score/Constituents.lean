/-
Which brackets a tree has. Every node stands at a path from the root, and one node is left of another when their paths
part and its own takes the earlier child. The brackets of a tree are those of its phrases whose labels are not ignored:
a bracket starts behind the units left of its node and ends behind the units under it, where units labelled as
punctuation do not count (`mem_constituents_iff`). The recursion carries the position along; what it adds to the
position at each node is the number of units that count there (`Tree.stop_brackets`).
-/
import Constituency.Proofs.Tree.Words
import Constituency.Score.Bracket

namespace Constituency

/-! ## Nodes where they stand -/

/-- A node of a tree with its parent and with the path that leads to it from the root, the numbers of the children
taken. -/
structure Tree.Place where
  path : List Nat
  parent : Option Tree
  node : Tree

namespace Tree.Place

def below (i : Nat) (x : Tree.Place) : Tree.Place := { x with path := i :: x.path }

@[simp] theorem path_below (i : Nat) (x : Tree.Place) : (x.below i).path = i :: x.path := rfl

@[simp] theorem node_below (i : Nat) (x : Tree.Place) : (x.below i).node = x.node := rfl

/-- The units of a tree are its preterminals and the leaves that are not the only child of their parent. -/
def isUnit (x : Tree.Place) : Bool :=
  x.node.isPreterminal || x.node.isLeaf && !x.parent.any fun parent => parent.children.length == 1

end Tree.Place

/-- The paths part, and the first one takes the earlier child there. -/
def isLeftOf : List Nat → List Nat → Bool
  | i :: p, j :: q => i < j || i == j && isLeftOf p q
  | _, _ => false

@[simp] theorem isLeftOf_nil (p : List Nat) : isLeftOf p [] = false := by
  cases p <;> rfl

mutual

/-- The nodes of a tree in preorder, each with its place, when the tree hangs under the given parent. -/
def Tree.places (parent : Option Tree) : Tree → List Tree.Place
  | .node l ts => ⟨[], parent, .node l ts⟩ :: Forest.places (.node l ts) 0 ts

/-- The places in the children of a node from the given number on. -/
def Forest.places (parent : Tree) (i : Nat) : Forest → List Tree.Place
  | [] => []
  | t :: ts => (t.places (some parent)).map (Tree.Place.below i) ++ Forest.places parent (i + 1) ts

end

theorem Forest.exists_path {parent : Tree} {x : Tree.Place} : ∀ {i : Nat} {ts : Forest},
    x ∈ Forest.places parent i ts → ∃ j p, x.path = j :: p ∧ i ≤ j
  | _, [], h => nomatch h
  | i, t :: ts, h => by
    rw [Forest.places, List.mem_append, List.mem_map] at h
    rcases h with ⟨y, -, rfl⟩ | h
    · exact ⟨i, y.path, rfl, le_rfl⟩
    · obtain ⟨j, p, hpath, hij⟩ := Forest.exists_path h
      exact ⟨j, p, hpath, by omega⟩

/-! ## Units that count -/

namespace Scoring

variable (s : Scoring)

/-- The unit at a place, if there is one, is not labelled as punctuation. -/
def counts (x : Tree.Place) : Bool := x.isUnit && x.node.label ∉ s.punctuation

/-- The number of units left of a path that count. -/
def left (xs : List Tree.Place) (path : List Nat) : Nat := xs.countP fun x => s.counts x && isLeftOf x.path path

/-- The number of units under a path that count. -/
def under (xs : List Tree.Place) (path : List Nat) : Nat := xs.countP fun x => s.counts x && path.isPrefixOf x.path

/-- The place of a bracket. -/
def isBracket (x : Tree.Place) : Bool := !x.node.isLexical && x.node.label ∉ s.ignored

/-- The bracket at a place among others that begin at the given position. -/
def bracketAt (start : Nat) (xs : List Tree.Place) (x : Tree.Place) : Bracket :=
  ⟨x.node.label, start + s.left xs x.path, start + s.left xs x.path + s.under xs x.path⟩

@[simp] theorem counts_below (i : Nat) (x : Tree.Place) : s.counts (x.below i) = s.counts x := rfl

theorem left_append (xs ys : List Tree.Place) (path : List Nat) :
    s.left (xs ++ ys) path = s.left xs path + s.left ys path := List.countP_append

theorem under_append (xs ys : List Tree.Place) (path : List Nat) :
    s.under (xs ++ ys) path = s.under xs path + s.under ys path := List.countP_append

theorem left_map_below (i : Nat) (xs : List Tree.Place) (path : List Nat) :
    s.left (xs.map (Tree.Place.below i)) (i :: path) = s.left xs path := by
  unfold left
  rw [List.countP_map]
  simp [Function.comp_def, isLeftOf]

theorem under_map_below (i : Nat) (xs : List Tree.Place) (path : List Nat) :
    s.under (xs.map (Tree.Place.below i)) (i :: path) = s.under xs path := by
  unfold under
  rw [List.countP_map]
  simp [Function.comp_def]

/-- All units in a child are left of what lies in a later one. -/
theorem left_map_below_of_lt {i j : Nat} (h : i < j) (xs : List Tree.Place) (path : List Nat) :
    s.left (xs.map (Tree.Place.below i)) (j :: path) = xs.countP s.counts := by
  unfold left
  rw [List.countP_map]
  simp [Function.comp_def, isLeftOf, h]

theorem under_map_below_of_ne {i j : Nat} (h : i ≠ j) (xs : List Tree.Place) (path : List Nat) :
    s.under (xs.map (Tree.Place.below i)) (j :: path) = 0 := by
  unfold under
  rw [List.countP_map, List.countP_eq_zero]
  simp [h.symm]

/-- Nothing in later children is left of what lies in a child, or under it. -/
theorem left_later {parent : Tree} {i j : Nat} (h : i < j) (ts : Forest) (path : List Nat) :
    s.left (Forest.places parent j ts) (i :: path) = 0 := by
  refine List.countP_eq_zero.2 fun x hx => ?_
  obtain ⟨k, p, hpath, hjk⟩ := Forest.exists_path hx
  simp [hpath, isLeftOf, show ¬k < i by omega, show k ≠ i by omega]

theorem under_later {parent : Tree} {i j : Nat} (h : i < j) (ts : Forest) (path : List Nat) :
    s.under (Forest.places parent j ts) (i :: path) = 0 := by
  refine List.countP_eq_zero.2 fun x hx => ?_
  obtain ⟨k, p, hpath, hjk⟩ := Forest.exists_path hx
  simp [hpath, show i ≠ k by omega]

/-- The bracket of a place in the first child is the one that it has in that child alone. -/
theorem bracketAt_first (start i : Nat) (xs : List Tree.Place) (parent : Tree) (ts : Forest) (x : Tree.Place) :
    s.bracketAt start (xs.map (Tree.Place.below i) ++ Forest.places parent (i + 1) ts) (x.below i) =
      s.bracketAt start xs x := by
  simp only [bracketAt, Tree.Place.path_below, Tree.Place.node_below, left_append, under_append, left_map_below,
    under_map_below, s.left_later (Nat.lt_succ_self i), s.under_later (Nat.lt_succ_self i), Nat.add_zero]

/-- The bracket of a place in a later child begins behind all units of the first one. -/
theorem bracketAt_later (start i : Nat) (xs : List Tree.Place) {parent : Tree} {ts : Forest} {x : Tree.Place}
    (h : x ∈ Forest.places parent (i + 1) ts) :
    s.bracketAt start (xs.map (Tree.Place.below i) ++ Forest.places parent (i + 1) ts) x =
      s.bracketAt (start + xs.countP s.counts) (Forest.places parent (i + 1) ts) x := by
  obtain ⟨j, p, hpath, hij⟩ := Forest.exists_path h
  simp only [bracketAt, hpath, left_append, under_append, s.left_map_below_of_lt (show i < j by omega),
    s.under_map_below_of_ne (show i ≠ j by omega), Nat.zero_add, Nat.add_assoc]

/-- A root that is no unit can be left out when the brackets below it are placed. -/
theorem bracketAt_cons (start : Nat) {root : Tree.Place} (h : s.counts root = false) (xs : List Tree.Place)
    (x : Tree.Place) : s.bracketAt start (root :: xs) x = s.bracketAt start xs x := by
  simp [bracketAt, left, under, h]

/-- Nothing is left of the root, and everything is under it. -/
theorem bracketAt_root (start : Nat) (xs : List Tree.Place) {root : Tree.Place} (h : root.path = []) :
    s.bracketAt start xs root = ⟨root.node.label, start, start + xs.countP s.counts⟩ := by
  simp [bracketAt, left, under, h]

end Scoring

/-! ## The recursion -/

namespace Tree

/-- If the tree is a leaf, then it is not the only child of its parent. -/
def Apart (parent : Option Tree) (t : Tree) : Prop := t.isLeaf = true → (Tree.Place.mk [] parent t).isUnit = true

theorem apart_root (t : Tree) : t.Apart none := fun hleaf => by simp [Tree.Place.isUnit, hleaf]

/-- Leaves below a phrase have siblings. -/
theorem apart_of_mem {l : String} {ts : Forest} (h : (node l ts).isLexical = false) :
    ∀ t ∈ ts, t.Apart (some (node l ts)) := by
  intro t ht hleaf
  have hone : ts.length ≠ 1 := by
    intro hone
    obtain ⟨u, rfl⟩ := List.length_eq_one_iff.1 hone
    obtain rfl := List.mem_singleton.1 ht
    simp [isLexical, hleaf] at h
  simp [Tree.Place.isUnit, hleaf, hone]

theorem counts_phrase (s : Scoring) (path : List Nat) (parent : Option Tree) {t : Tree} (h : t.isLexical = false) :
    s.counts ⟨path, parent, t⟩ = false := by
  obtain ⟨hleaf, hpre⟩ := isLexical_eq_false_iff.1 h
  simp [Scoring.counts, Tree.Place.isUnit, hleaf, hpre]

/-- There are no phrases in a unit, and no other unit. -/
theorem places_of_isLexical (s : Scoring) {parent : Option Tree} {t : Tree} (h : t.isLexical = true)
    (hapart : t.Apart parent) : (∀ x ∈ t.places parent, x.node.isLexical = true) ∧
      (t.places parent).countP s.counts = s.unitWidth t.label := by
  match t with
  | node w [] =>
    by_cases hw : w ∈ s.punctuation <;>
      simp [places, Forest.places, isLexical, Scoring.counts, hapart rfl, Scoring.unitWidth, hw]
  | node tag [node w []] =>
    by_cases htag : tag ∈ s.punctuation <;>
      simp [places, Forest.places, isLexical, Scoring.counts, Place.isUnit, Place.below, Scoring.unitWidth, htag]
  | node _ [node _ (_ :: _)] | node _ (_ :: _ :: _) => simp [isLexical] at h

end Tree

mutual

/-- The position behind a tree is the position in front of it and the number of units in it that count. -/
theorem Tree.stop_brackets (s : Scoring) : ∀ (start : Nat) {parent : Option Tree} (t : Tree), t.Apart parent →
    (t.brackets s start).stop = start + (t.places parent).countP s.counts
  | start, parent, .node l ts, h => by
    cases hlex : (Tree.node l ts).isLexical with
    | true =>
      obtain ⟨-, hcount⟩ := Tree.places_of_isLexical s hlex h
      rw [Tree.brackets, if_pos hlex, hcount, Tree.label_node]
    | false =>
      have hroot := Tree.counts_phrase s [] parent hlex
      rw [Tree.brackets, if_neg (by simp [hlex]), Tree.places, List.countP_cons_of_neg (by simp [hroot])]
      exact Forest.stop_brackets s start 0 ts (Tree.apart_of_mem hlex)

theorem Forest.stop_brackets (s : Scoring) : ∀ (start : Nat) {parent : Tree} (i : Nat) (ts : Forest),
    (∀ t ∈ ts, t.Apart (some parent)) →
    (Forest.brackets s start ts).stop = start + (Forest.places parent i ts).countP s.counts
  | _, _, _, [], _ => rfl
  | start, parent, i, t :: ts, h => by
    obtain ⟨hfirst, hmore⟩ := List.forall_mem_cons.1 h
    rw [Forest.brackets, Forest.places, List.countP_append, List.countP_map, ← Nat.add_assoc]
    dsimp only
    rw [Forest.stop_brackets s _ (i + 1) ts hmore, Tree.stop_brackets s start t hfirst]
    rfl

end

mutual

/-- The brackets of a tree are those at the places of its phrases. -/
theorem Tree.mem_brackets (s : Scoring) : ∀ (start : Nat) {parent : Option Tree} (t : Tree) (b : Bracket),
    t.Apart parent → (b ∈ (t.brackets s start).brackets ↔
      ∃ x ∈ t.places parent, s.isBracket x = true ∧ b = s.bracketAt start (t.places parent) x)
  | start, parent, .node l ts, b, h => by
    cases hlex : (Tree.node l ts).isLexical with
    | true =>
      obtain ⟨hlexical, -⟩ := Tree.places_of_isLexical s hlex h
      rw [Tree.brackets, if_pos hlex]
      refine iff_of_false List.not_mem_nil ?_
      rintro ⟨x, hx, hbracket, -⟩
      simp [Scoring.isBracket, hlexical x hx] at hbracket
    | false =>
      have hapart := Tree.apart_of_mem hlex
      have hroot := Tree.counts_phrase s [] parent hlex
      have hwhole : s.bracketAt start (Forest.places (.node l ts) 0 ts) ⟨[], parent, .node l ts⟩ =
          ⟨l, start, (Forest.brackets s start ts).stop⟩ := by
        rw [s.bracketAt_root start _ rfl, Forest.stop_brackets s start 0 ts hapart, Tree.label_node]
      rw [Tree.brackets, if_neg (by simp [hlex]), Tree.places]
      simp only [List.mem_cons, or_and_right, exists_or, exists_eq_left, s.bracketAt_cons start hroot, hwhole,
        ← Forest.mem_brackets s start 0 ts b hapart]
      by_cases hl : l ∈ s.ignored
      · simp [hl, Scoring.isBracket]
      · simp [hl, Scoring.isBracket, hlex]

theorem Forest.mem_brackets (s : Scoring) : ∀ (start : Nat) {parent : Tree} (i : Nat) (ts : Forest) (b : Bracket),
    (∀ t ∈ ts, t.Apart (some parent)) → (b ∈ (Forest.brackets s start ts).brackets ↔
      ∃ x ∈ Forest.places parent i ts, s.isBracket x = true ∧ b = s.bracketAt start (Forest.places parent i ts) x)
  | _, _, _, [], _, _ => by simp [Forest.brackets, Forest.places]
  | start, parent, i, t :: ts, b, h => by
    obtain ⟨hfirst, hmore⟩ := List.forall_mem_cons.1 h
    rw [Forest.brackets, Forest.places]
    dsimp only
    rw [List.mem_append, Tree.mem_brackets s start t b hfirst, Forest.mem_brackets s _ (i + 1) ts b hmore,
      Tree.stop_brackets s start t hfirst]
    -- a bracket stands where it stood in its own child, or behind the units of the first one
    constructor
    · rintro (⟨x, hx, hbracket, rfl⟩ | ⟨x, hx, hbracket, rfl⟩)
      · exact ⟨x.below i, List.mem_append_left _ (List.mem_map_of_mem hx), hbracket, (s.bracketAt_first ..).symm⟩
      · exact ⟨x, List.mem_append_right _ hx, hbracket, (s.bracketAt_later start i _ hx).symm⟩
    · rintro ⟨x, hx, hbracket, rfl⟩
      rcases List.mem_append.1 hx with hx | hx
      · obtain ⟨y, hy, rfl⟩ := List.mem_map.1 hx
        exact .inl ⟨y, hy, hbracket, s.bracketAt_first ..⟩
      · exact .inr ⟨x, hx, hbracket, s.bracketAt_later start i _ hx⟩

end

/-! ## Constituents -/

namespace Scoring

theorem mem_constituents (s : Scoring) (t : Tree) (b : Bracket) :
    b ∈ s.constituents t ↔ b ∈ (t.brackets s 0).brackets := by
  unfold constituents
  induction (t.brackets s 0).brackets with
  | nil => rfl
  | cons c bs ih => rw [List.foldr_cons, List.mem_insert_iff, ih, List.mem_cons]

/-- The constituents of a tree are the brackets of its phrases whose labels are not ignored. Each begins behind the
units left of its node that are not labelled as punctuation and is as wide as the number of such units under it. A tree
that is a leaf or a preterminal has none. -/
theorem mem_constituents_iff (s : Scoring) (t : Tree) :
    (∀ b, b ∈ s.constituents t ↔ ∃ x ∈ t.places none, x.node.isLeaf = false ∧ x.node.isPreterminal = false ∧
      x.node.label ∉ s.ignored ∧ b.label = x.node.label ∧
      b.start = ((t.places none).countP fun y =>
        y.isUnit && y.node.label ∉ s.punctuation && isLeftOf y.path x.path) ∧
      b.stop = b.start + (t.places none).countP fun y =>
        y.isUnit && y.node.label ∉ s.punctuation && x.path.isPrefixOf y.path) ∧
    (t.isLeaf = true ∨ t.isPreterminal = true → s.constituents t = []) := by
  have hplaces (b : Bracket) : b ∈ s.constituents t ↔
      ∃ x ∈ t.places none, s.isBracket x = true ∧ b = s.bracketAt 0 (t.places none) x := by
    rw [mem_constituents, Tree.mem_brackets s 0 t b t.apart_root]
  refine ⟨fun b => (hplaces b).trans ?_, fun hlex => ?_⟩
  · refine exists_congr fun x => and_congr_right fun _ => ?_
    have hbracket : s.isBracket x = true ↔
        x.node.isLeaf = false ∧ x.node.isPreterminal = false ∧ x.node.label ∉ s.ignored := by
      simp [isBracket, Tree.isLexical_eq_false_iff, and_assoc]
    obtain ⟨l, start, stop⟩ := b
    rw [hbracket, bracketAt, Bracket.mk.injEq, Nat.zero_add]
    dsimp only
    constructor
    · rintro ⟨⟨hleaf, hpre, hl⟩, rfl, rfl, rfl⟩
      exact ⟨hleaf, hpre, hl, rfl, rfl, rfl⟩
    · rintro ⟨hleaf, hpre, hl, rfl, rfl, rfl⟩
      exact ⟨⟨hleaf, hpre, hl⟩, rfl, rfl, rfl⟩
  · unfold constituents
    obtain ⟨l, ts⟩ := t
    rw [Tree.brackets, if_pos (by simpa [Tree.isLexical] using hlex)]
    rfl

/-- Punctuation between phrases, and a leaf next to a preterminal. -/
def punctuatedTree : Tree :=
  .node "ROOT" [.node "S" [.node "NP" [.preterminal "DT" "the", .leaf "dog"], .preterminal "," ",",
    .node "VP" [.preterminal "VBD" "barked", .node "NP" [.preterminal "PRP" "itself", .preterminal "RB" "hoarse"]]]]

theorem mem_constituents_iff_punctuated :
    ⟨"VP", 2, 5⟩ ∈ standard.constituents punctuatedTree ∧ (Tree.preterminal "NN" "dog").isPreterminal = true ∧
      standard.constituents (.preterminal "NN" "dog") = [] :=
  ⟨((mem_constituents_iff standard punctuatedTree).1 _).2 (by decide +kernel), rfl,
    (mem_constituents_iff standard (.preterminal "NN" "dog")).2 (.inr rfl)⟩

end Scoring

end Constituency
