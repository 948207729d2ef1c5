/-
Grouping values under keys. The values under one key keep the order they had in the list that was grouped
(`get_ofPairs`); a key that has none gets the empty list. Reading all groups in the order of their keys sorts
a list, and values with the same key keep their order.
-/
import Std.Data.TreeMap

namespace Constituency

structure Index (ι : Type) [Ord ι] (α : Type) where
  groups : Std.TreeMap ι (List α)

namespace Index

variable {ι α : Type} [Ord ι]

def empty : Index ι α := ⟨∅⟩

def get (ix : Index ι α) (k : ι) : List α := ix.groups.getD k []

def cons (ix : Index ι α) (k : ι) (a : α) : Index ι α := ⟨ix.groups.insert k (a :: ix.get k)⟩

/-- Groups values that come with their keys. -/
def ofPairs (pairs : List (ι × α)) : Index ι α := pairs.foldr (fun p ix => ix.cons p.1 p.2) empty

def values (ix : Index ι α) : List α := ix.groups.toList.flatMap Prod.snd

theorem get_cons [Std.TransOrd ι] [Std.LawfulEqOrd ι] [DecidableEq ι] (ix : Index ι α) (k l : ι) (a : α) :
    (ix.cons k a).get l = if k = l then a :: ix.get l else ix.get l := by
  unfold get cons
  rw [Std.TreeMap.getD_insert]
  by_cases h : k = l
  · subst h; simp [get]
  · simp [h]

theorem get_ofPairs [Std.TransOrd ι] [Std.LawfulEqOrd ι] [DecidableEq ι] (pairs : List (ι × α)) (k : ι) :
    (ofPairs pairs).get k = (pairs.filter fun p => p.1 = k).map Prod.snd := by
  unfold ofPairs
  induction pairs with
  | nil => simp [empty, get]
  | cons p pairs ih =>
    rw [List.foldr_cons, get_cons, ih]
    by_cases h : p.1 = k <;> simp [h]

end Index

/-- The elements of a list in the order of their keys; elements with the same key keep their order. -/
def sortedOn {ι α : Type} [Ord ι] (key : α → ι) (xs : List α) : List α :=
  (Index.ofPairs (xs.map fun x => (key x, x))).values

end Constituency
