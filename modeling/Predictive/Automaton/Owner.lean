import Predictive.SortedSet

/-!
# Owners

The token pattern on whose behalf a state accepts. Owners are ordered by the place of their
definition, so the first of several is the one that wins a tie.
-/

namespace Predictive

/-- Whom a state accepts for: a token pattern by its place and name. -/
structure Owner where
  /-- The place of the pattern among the definitions. -/
  position : Nat
  /-- The name of the pattern. -/
  name : String
deriving DecidableEq

namespace Owner

/-- By position, and by name among equal positions. -/
def order : Owner → Owner → Ordering :=
  compareLex (compareOn position) (compareOn name)

instance : Ord Owner := ⟨order⟩

instance : Std.TransOrd Owner :=
  inferInstanceAs (Std.TransCmp (compareLex (compareOn position) (compareOn name)))

instance : Std.LawfulEqOrd Owner where
  compare_self {_} := compareLex_eq_eq.2 ⟨by simp [compareOn], by simp [compareOn]⟩
  eq_of_compare {a b} h := by
    obtain ⟨h₁, h₂⟩ := compareLex_eq_eq.1 h
    cases a
    cases b
    simp_all [compareOn]

end Owner

end Predictive
