/-
The value seen most often. A census that leaves some of the values out still has, for those that it counts, the numbers
of their copies in the order of their first copies (`Census.Records`), so that of several values seen most often it
gives the first. A tally gives the smallest (`Tally.isMode_of_mode?`), and it would give the same value if its entries
were looked through in any other order (`modeOf?_eq_of_perm`).
-/
import Constituency.Counting.Tally
import Constituency.Proofs.Counting.Choice
import Constituency.Proofs.Grammar.Balance
import Mathlib.Data.Prod.Lex
import Mathlib.Data.String.Basic

namespace Constituency

/-! ## In the order of appearance -/

namespace Census

variable {α : Type} [DecidableEq α] {a b : α}

theorem keys_addIn (a : α) : ∀ es : List (α × Nat), (addIn a es).map Prod.fst =
    if a ∈ es.map Prod.fst then es.map Prod.fst else es.map Prod.fst ++ [a]
  | [] => rfl
  | (b, n) :: es => by
    rw [addIn]
    by_cases h : a = b
    · simp [h]
    · rw [if_neg h, List.map_cons, keys_addIn a es]
      by_cases hmem : a ∈ es.map Prod.fst <;> simp [h, hmem]

theorem countIn_of_mem {n : Nat} : ∀ {es : List (α × Nat)}, (es.map Prod.fst).Nodup → (a, n) ∈ es → countIn a es = n
  | (b, m) :: es, hkeys, hmem => by
    rw [List.map_cons, List.nodup_cons] at hkeys
    rw [countIn]
    rcases List.mem_cons.1 hmem with heq | hrest
    · cases heq
      rw [if_pos rfl]
    · have hne : a ≠ b := by
        rintro rfl
        exact hkeys.1 (List.mem_map.2 ⟨(a, n), hrest, rfl⟩)
      rw [if_neg hne, countIn_of_mem hkeys.2 hrest]

/-- The census has counted the values with a property among those seen. They are listed in the order of their first
copies. -/
structure Records (p : α → Prop) (seen : List α) (c : Census α) : Prop where
  mem_keys_iff (a : α) : a ∈ c.entries.map Prod.fst ↔ a ∈ seen ∧ p a
  ordered : (c.entries.map Prod.fst).Pairwise fun a b => seen.idxOf a < seen.idxOf b
  count_eq (a : α) : p a → c.count a = seen.count a

variable {p : α → Prop} {seen : List α} {c : Census α}

theorem records_empty (p : α → Prop) : (empty : Census α).Records p [] where
  mem_keys_iff a := by simp [empty]
  ordered := .nil
  count_eq a _ := rfl

theorem Records.nodup_keys (h : c.Records p seen) : (c.entries.map Prod.fst).Nodup :=
  h.ordered.imp fun hlt heq => by simp [heq] at hlt

/-- Further values leave the order of the first copies as it was. -/
theorem Records.ordered_concat (h : c.Records p seen) (x : α) :
    (c.entries.map Prod.fst).Pairwise fun a b => (seen ++ [x]).idxOf a < (seen ++ [x]).idxOf b := by
  refine h.ordered.imp_of_mem fun {a b} ha hb hlt => ?_
  rwa [List.idxOf_append_of_mem ((h.mem_keys_iff a).1 ha).1, List.idxOf_append_of_mem ((h.mem_keys_iff b).1 hb).1]

/-- A value without the property is left out. -/
theorem Records.skip (h : c.Records p seen) {x : α} (hx : ¬p x) : c.Records p (seen ++ [x]) where
  mem_keys_iff a := by
    rw [h.mem_keys_iff, List.mem_append, List.mem_singleton]
    constructor
    · exact fun ⟨ha, hp⟩ => ⟨.inl ha, hp⟩
    · rintro ⟨ha | rfl, hp⟩
      · exact ⟨ha, hp⟩
      · exact absurd hp hx
  ordered := h.ordered_concat x
  count_eq a hp := by
    have hne : x ≠ a := fun heq => hx (heq ▸ hp)
    rw [h.count_eq a hp, List.count_append, List.count_singleton, if_neg (by simpa using hne), Nat.add_zero]

/-- A value with the property is counted, and listed behind the others if it is new. -/
theorem Records.add (h : c.Records p seen) {x : α} (hx : p x) : (c.add x).Records p (seen ++ [x]) where
  mem_keys_iff a := by
    rw [Census.add, keys_addIn, List.mem_append, List.mem_singleton]
    split
    · rename_i hmem
      rw [h.mem_keys_iff]
      constructor
      · exact fun ⟨ha, hp⟩ => ⟨.inl ha, hp⟩
      · rintro ⟨ha | rfl, hp⟩
        · exact ⟨ha, hp⟩
        · exact (h.mem_keys_iff a).1 hmem
    · rw [List.mem_append, List.mem_singleton, h.mem_keys_iff]
      constructor
      · rintro (⟨ha, hp⟩ | rfl)
        · exact ⟨.inl ha, hp⟩
        · exact ⟨.inr rfl, hx⟩
      · rintro ⟨ha | rfl, hp⟩
        · exact .inl ⟨ha, hp⟩
        · exact .inr rfl
  ordered := by
    rw [Census.add, keys_addIn]
    split
    · exact h.ordered_concat x
    · rename_i hnew
      have hx : x ∉ seen := fun hmem => hnew ((h.mem_keys_iff x).2 ⟨hmem, hx⟩)
      refine List.pairwise_append.2 ⟨h.ordered_concat x, List.pairwise_singleton .., fun a ha b hb => ?_⟩
      obtain rfl := List.mem_singleton.1 hb
      have ha := ((h.mem_keys_iff a).1 ha).1
      rw [List.idxOf_append_of_mem ha, List.idxOf_append_of_notMem hx]
      exact Nat.lt_add_right _ (List.idxOf_lt_length_of_mem ha)
  count_eq a hp := by
    rw [count_add, h.count_eq a hp, List.count_append, List.count_singleton]
    simp

/-- Of the values that are counted, the one with the most copies is chosen, and of several the one whose first copy
comes first. -/
theorem Records.of_mode? (h : c.Records p seen) (hmode : c.mode? = some a) : a ∈ seen ∧ p a ∧
    ∀ b ∈ seen, p b → b ≠ a →
      seen.count b < seen.count a ∨ seen.count b = seen.count a ∧ seen.idxOf a < seen.idxOf b := by
  obtain ⟨⟨a', n⟩, he, rfl⟩ := Option.map_eq_some_iff.1 hmode
  have hmem : (a', n) ∈ c.entries := mem_of_heaviest he
  obtain ⟨ha, hp⟩ := (h.mem_keys_iff a').1 (List.mem_map_of_mem hmem)
  have hcount {b : α} {m : Nat} (hb : (b, m) ∈ c.entries) (hpb : p b) : seen.count b = m :=
    (h.count_eq b hpb).symm.trans (countIn_of_mem h.nodup_keys hb)
  refine ⟨ha, hp, fun b hb hpb hne => ?_⟩
  obtain ⟨⟨b', m⟩, hb', rfl⟩ := List.mem_map.1 ((h.mem_keys_iff b).2 ⟨hb, hpb⟩)
  rw [hcount hmem hp, hcount hb' hpb]
  have hordered : c.entries.Pairwise fun e f => seen.idxOf e.1 < seen.idxOf f.1 :=
    (List.pairwise_map (f := Prod.fst) (R := fun a b => seen.idxOf a < seen.idxOf b)).1 h.ordered
  exact lighter_or_behind hordered he _ hb' fun heq => hne (congrArg Prod.fst heq)

theorem Records.exists_mode? (h : c.Records p seen) (ha : a ∈ seen) (hp : p a) : ∃ b, c.mode? = some b := by
  have hmem := (h.mem_keys_iff a).2 ⟨ha, hp⟩
  have hentries : c.entries ≠ [] := by
    intro hnil
    simp [hnil] at hmem
  have hsome : heaviest Prod.snd c.entries ≠ none := mt heaviest_eq_none_iff.1 hentries
  obtain ⟨e, he⟩ := Option.ne_none_iff_exists'.1 hsome
  exact ⟨e.1, by rw [mode?, he, Option.map_some]⟩

end Census

/-! ## In the order of the values -/

/-- The value is in the list, and any other one has fewer copies there or as many and is greater. -/
def IsMode {α : Type} [DecidableEq α] [LT α] (xs : List α) (a : α) : Prop :=
  a ∈ xs ∧ ∀ b ∈ xs, b ≠ a → xs.count b < xs.count a ∨ xs.count b = xs.count a ∧ a < b

theorem IsMode.unique {xs : List String} {a b : String} (ha : IsMode xs a) (hb : IsMode xs b) : a = b :=
  eq_of_lighter_or_behind (xs.count ·) (· < ·) (fun _ _ => String.lt_asymm) (ha.2 b hb.1) (hb.2 a ha.1)

namespace Tally

theorem keys_sorted (t : Tally String) : t.keys.Pairwise (· < ·) := by
  have hsorted : t.keys.Pairwise fun a b => compare a b = .lt := Std.TreeMap.ordered_keys
  exact hsorted.imp fun h => compareOfLessAndEq_eq_lt.1 h

theorem toList_sorted (t : Tally String) : t.toList.Pairwise fun e f => e.1 < f.1 := by
  rw [toList_eq, List.pairwise_map]
  exact t.keys_sorted

variable {xs : List String} {l : String}

theorem mem_toList_addAll_iff {n : Nat} : (l, n) ∈ (empty.addAll xs).toList ↔ l ∈ xs ∧ xs.count l = n := by
  rw [mem_toList_iff, mem_keys_addAll, count_addAll]
  simp

/-- The value seen most often is the mode of the values that were counted. -/
theorem isMode_of_mode? (h : (empty.addAll xs).mode? = some l) : IsMode xs l := by
  obtain ⟨⟨l', n⟩, he, rfl⟩ := Option.map_eq_some_iff.1 h
  obtain ⟨hl, rfl⟩ := mem_toList_addAll_iff.1 (mem_of_heaviest he)
  refine ⟨hl, fun m hm hne => ?_⟩
  exact lighter_or_behind (toList_sorted _) he (m, xs.count m) (mem_toList_addAll_iff.2 ⟨hm, rfl⟩)
    fun heq => hne (congrArg Prod.fst heq)

theorem mode?_eq_none_iff : (empty.addAll xs).mode? = none ↔ xs = [] := by
  rw [mode?, Option.map_eq_none_iff, heaviest_eq_none_iff]
  constructor
  · intro hnil
    refine List.eq_nil_iff_forall_not_mem.2 fun l hl => ?_
    have hmem : (l, xs.count l) ∈ (empty.addAll xs).toList := mem_toList_addAll_iff.2 ⟨hl, rfl⟩
    simp [hnil] at hmem
  · rintro rfl
    rfl

end Tally

/-- The value of greatest count among entries that stand in any order; of several, the smallest. -/
def modeOf? (entries : List (String × Nat)) : Option String :=
  (heaviest (fun e => toLex (e.2, OrderDual.toDual e.1)) entries).map Prod.fst

/-- The order in which the entries of a tally are looked through makes no difference. -/
theorem modeOf?_eq_of_perm {t : Tally String} {entries : List (String × Nat)} (h : entries.Perm t.toList) :
    modeOf? entries = t.mode? := by
  unfold modeOf? Tally.mode?
  cases hsorted : heaviest Prod.snd t.toList with
  | none =>
    rw [heaviest_eq_none_iff.1 hsorted, List.perm_nil] at h
    rw [h]
    rfl
  | some e =>
    have he : e ∈ entries := h.mem_iff.2 (mem_of_heaviest hsorted)
    cases hany : heaviest (fun e => toLex (e.2, OrderDual.toDual e.1)) entries with
    | none =>
      rw [heaviest_eq_none_iff.1 hany] at he
      cases he
    | some f =>
      have hf : f ∈ t.toList := h.mem_iff.1 (mem_of_heaviest hany)
      have hfe : f = e := by
        -- otherwise each of the two would outrank the other
        by_contra hne
        have hge := Prod.Lex.toLex_le_toLex.1 (le_of_heaviest hany e he)
        rcases lighter_or_behind t.toList_sorted hsorted f hf hne with hlt | ⟨heq, hlt⟩
        · rcases hge with hgt | ⟨heq, -⟩
          · exact lt_asymm hlt hgt
          · exact hlt.ne' heq
        · rcases hge with hgt | ⟨-, hle⟩
          · exact hgt.ne' heq
          · exact not_le.2 hlt (OrderDual.toDual_le_toDual.1 hle)
      rw [hfe]

end Constituency
