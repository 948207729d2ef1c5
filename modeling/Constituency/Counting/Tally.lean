/-
Counting values. A `Tally` counts the values of an ordered type and lists them in their order; a `Census`
counts values in the order of their first appearance. Both are read through `count`, and adding a value
raises its count by one and leaves the others alone (`count_add`). Counts are natural numbers, so that the
overflow of a 64-bit counter is left out: a value would have to be counted 2^64 times for the difference to show.
-/
import Constituency.Counting.Choice
import Std.Data.TreeMap

namespace Constituency

/-! ## In the order of the values -/

/-- How often each value was seen, as a number without a bound. -/
structure Tally (α : Type) [Ord α] where
  counts : Std.TreeMap α Nat

namespace Tally

variable {α : Type} [Ord α]

def empty : Tally α := ⟨∅⟩

def count (t : Tally α) (a : α) : Nat := t.counts.getD a 0

def add (t : Tally α) (a : α) : Tally α := ⟨t.counts.insert a (t.count a + 1)⟩

def addAll (t : Tally α) (xs : List α) : Tally α := xs.foldl add t

/-- The values seen, in their order, each with its count. -/
def toList (t : Tally α) : List (α × Nat) := t.counts.toList

def keys (t : Tally α) : List α := t.counts.keys

/-- The value seen most often; of several, the smallest. -/
def mode? (t : Tally α) : Option α := (heaviest Prod.snd t.toList).map Prod.fst

@[simp] theorem count_empty [Std.TransOrd α] (a : α) : (empty : Tally α).count a = 0 := by
  simp [empty, count]

theorem count_add [Std.TransOrd α] [Std.LawfulEqOrd α] [DecidableEq α] (t : Tally α) (a b : α) :
    (t.add a).count b = t.count b + if a = b then 1 else 0 := by
  unfold count add
  rw [Std.TreeMap.getD_insert]
  by_cases h : a = b
  · subst h; simp [count]
  · simp [h]

theorem count_addAll [Std.TransOrd α] [Std.LawfulEqOrd α] [DecidableEq α] (t : Tally α) (xs : List α) (a : α) :
    (t.addAll xs).count a = t.count a + xs.count a := by
  unfold addAll
  induction xs generalizing t with
  | nil => simp
  | cons x xs ih =>
    rw [List.foldl_cons, ih, count_add, List.count_cons]
    by_cases h : x = a
    · simp only [h, if_true, beq_self_eq_true]; omega
    · simp [h]

@[simp] theorem keys_empty : (empty : Tally α).keys = [] := rfl

theorem mem_keys_add [Std.TransOrd α] [Std.LawfulEqOrd α] (t : Tally α) (a b : α) :
    b ∈ (t.add a).keys ↔ a = b ∨ b ∈ t.keys := by
  unfold keys add
  rw [Std.TreeMap.mem_keys, Std.TreeMap.mem_keys, Std.TreeMap.mem_insert, Std.compare_eq_iff_eq]

theorem mem_keys_addAll [Std.TransOrd α] [Std.LawfulEqOrd α] (t : Tally α) (xs : List α) (a : α) :
    a ∈ (t.addAll xs).keys ↔ a ∈ t.keys ∨ a ∈ xs := by
  unfold addAll
  induction xs generalizing t with
  | nil => simp
  | cons x xs ih =>
    rw [List.foldl_cons, ih, mem_keys_add, List.mem_cons, eq_comm (a := x), or_comm (a := a = x), or_assoc]

theorem nodup_keys [Std.TransOrd α] [Std.LawfulEqOrd α] (t : Tally α) : t.keys.Nodup :=
  t.counts.distinct_keys.imp fun h e => h (Std.compare_eq_iff_eq.2 e)

end Tally

/-! ## In the order of appearance -/

/-- How often each value was seen, as a number without a bound, the value seen first in front. -/
structure Census (α : Type) where
  entries : List (α × Nat)

namespace Census

variable {α : Type}

def empty : Census α := ⟨[]⟩

variable [DecidableEq α]

/-- The count of a value in a list of entries. -/
def countIn (a : α) : List (α × Nat) → Nat
  | [] => 0
  | (b, n) :: es => if a = b then n else countIn a es

def count (c : Census α) (a : α) : Nat := countIn a c.entries

/-- Raises the count of a value that is listed, or lists it at the end. -/
def addIn (a : α) : List (α × Nat) → List (α × Nat)
  | [] => [(a, 1)]
  | (b, n) :: es => if a = b then (b, n + 1) :: es else (b, n) :: addIn a es

def add (c : Census α) (a : α) : Census α := ⟨addIn a c.entries⟩

omit [DecidableEq α] in
/-- The value seen most often; of several, the one seen first. -/
def mode? (c : Census α) : Option α := (heaviest Prod.snd c.entries).map Prod.fst

theorem count_add (c : Census α) (a b : α) : (c.add a).count b = c.count b + if a = b then 1 else 0 := by
  obtain ⟨es⟩ := c
  unfold count add
  induction es with
  | nil => by_cases h : a = b <;> simp [addIn, countIn, h, eq_comm (a := b)]
  | cons e es ih =>
    obtain ⟨x, n⟩ := e
    simp only [addIn]
    by_cases h : a = x
    · subst h
      by_cases hb : b = a
      · simp [countIn, hb]
      · simp [countIn, hb, Ne.symm hb]
    · rw [if_neg h]
      simp only [countIn]
      by_cases hb : b = x
      · subst hb; simp [h]
      · simpa [hb] using ih

end Census

end Constituency
