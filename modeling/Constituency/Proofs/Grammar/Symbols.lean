/-
The numbering of symbols: numbers and symbols of a table stand for each other (`number?_eq_some_iff`), and
the numbered symbols are those of the list that the table was made from (`exists_number?_iff`).
-/
import Constituency.Grammar.SymbolTable
import Mathlib.Data.List.Nodup

namespace Constituency

theorem mem_sortedDistinct {xs : List String} {x : String} : x ∈ sortedDistinct xs ↔ x ∈ xs := by
  unfold sortedDistinct
  rw [Std.TreeSet.mem_toList, Std.TreeSet.mem_ofList, List.contains_iff_mem]

theorem nodup_sortedDistinct (xs : List String) : (sortedDistinct xs).Nodup :=
  Std.TreeSet.distinct_toList.imp fun h e => h (Std.compare_eq_iff_eq.2 e)

namespace SymbolTable

theorem lt_of_name? (table : SymbolTable) {s : String} {i : Nat} (h : table.name? i = some s) : i < table.size :=
  (Array.getElem?_eq_some_iff.1 h).1

theorem exists_name? {table : SymbolTable} {i : Nat} (h : i < table.size) : ∃ s, table.name? i = some s :=
  ⟨_, Array.getElem?_eq_getElem h⟩

variable {symbols : List String}

theorem name?_ofList (i : Nat) : (ofList symbols).name? i = (sortedDistinct symbols)[i]? := by
  simp [ofList, name?]

/-- A number and a symbol belong to each other in both directions of the table. -/
theorem number?_eq_some_iff {s : String} {i : Nat} :
    (ofList symbols).number? s = some i ↔ (ofList symbols).name? i = some s := by
  have hkeys : (sortedDistinct symbols).zipIdx.Pairwise fun a b => ¬ compare a.1 b.1 = .eq := by
    rw [← List.pairwise_map (f := Prod.fst) (R := fun a b => ¬ compare a b = .eq), List.zipIdx_map_fst]
    exact (nodup_sortedDistinct symbols).imp fun h e => h (Std.compare_eq_iff_eq.1 e)
  have hget {j : Nat} (h : (sortedDistinct symbols)[j]? = some s) : (ofList symbols).number? s = some j :=
    Std.TreeMap.getElem?_ofList_of_mem (Std.ReflCmp.compare_self) hkeys (List.mem_zipIdx_iff_getElem?.2 h)
  rw [name?_ofList]
  constructor
  · intro h
    have hs : s ∈ sortedDistinct symbols := by
      by_contra hs
      have hno : (Std.TreeMap.ofList (sortedDistinct symbols).zipIdx)[s]? = none :=
        Std.TreeMap.getElem?_ofList_of_contains_eq_false (by simpa using hs)
      exact Option.some_ne_none i (h.symm.trans hno)
    obtain ⟨j, hj⟩ := List.mem_iff_getElem?.1 hs
    have hij : i = j := Option.some.inj (h.symm.trans (hget hj))
    exact hij ▸ hj
  · exact hget

theorem eq_of_number? {s t : String} {i : Nat} (hs : (ofList symbols).number? s = some i)
    (ht : (ofList symbols).number? t = some i) : s = t :=
  Option.some.inj ((number?_eq_some_iff.1 hs).symm.trans (number?_eq_some_iff.1 ht))

theorem lt_of_number? {s : String} {i : Nat} (hs : (ofList symbols).number? s = some i) : i < (ofList symbols).size :=
  lt_of_name? _ (number?_eq_some_iff.1 hs)

/-- The symbols that have a number are those of the list. -/
theorem exists_number?_iff {s : String} : (∃ i, (ofList symbols).number? s = some i) ↔ s ∈ symbols := by
  simp only [number?_eq_some_iff, name?_ofList, ← List.mem_iff_getElem?, mem_sortedDistinct]

end SymbolTable

end Constituency
