/-
Productions and rules. A production replaces a parent symbol by one or two children; it is ordered by its
symbols, the parent first. A rule is a production with a probability. Two rules are the same rule when their
productions agree, whatever the probabilities (`Rule.beq_iff`).
-/
import Constituency.Tree.Basic
import Std.Data.TreeMap

namespace Constituency

/-! ## Productions -/

inductive Production where
  | unary (parent child : String)
  | binary (parent left right : String)
deriving Repr, DecidableEq, Hashable, Inhabited

namespace Production

def parent : Production → String
  | unary parent _ => parent
  | binary parent _ _ => parent

def children : Production → List String
  | unary _ child => [child]
  | binary _ left right => [left, right]

def symbols (p : Production) : List String := p.parent :: p.children

theorem eq_of_symbols_eq {p q : Production} (h : p.symbols = q.symbols) : p = q := by
  cases p <;> cases q <;> simp_all [symbols, parent, children]

instance : Ord Production := ⟨compareOn symbols⟩

instance : Std.TransOrd Production := inferInstanceAs (Std.TransCmp (compareOn symbols))

instance : Std.LawfulEqOrd Production where
  eq_of_compare h := eq_of_symbols_eq (Std.LawfulEqOrd.eq_of_compare (α := List String) h)

/-- The production at a node with one or two children. -/
def ofNode? : Tree → Option Production
  | .node l [t] => some (unary l t.label)
  | .node l [s, t] => some (binary l s.label t.label)
  | .node _ _ => none

end Production

/-! ## Rules -/

structure Rule (ρ : Type) where
  production : Production
  probability : ρ
deriving Repr, Inhabited

namespace Rule

variable {ρ : Type}

instance : BEq (Rule ρ) := ⟨fun a b => a.production == b.production⟩

instance : Hashable (Rule ρ) := ⟨fun a => hash a.production⟩

theorem beq_iff {a b : Rule ρ} : (a == b) = true ↔ a.production = b.production := by
  show (a.production == b.production) = true ↔ _
  simp

instance : LawfulHashable (Rule ρ) where
  hash_eq a b h := by
    show hash a.production = hash b.production
    rw [beq_iff.1 h]

/-- The written form of a rule, its probability written by `numeral`. -/
def write (numeral : ρ → String) (r : Rule ρ) : String :=
  r.production.parent ++ " -> " ++ " ".intercalate r.production.children ++ " " ++ numeral r.probability

end Rule

end Constituency
