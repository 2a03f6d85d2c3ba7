/-!
# Edge labels

An edge of an automaton is taken without reading, on any character, or on one character. Labels are
ordered in that way, the characters among themselves by code point.
-/

namespace Predictive

/-- What an edge of an automaton reads. -/
inductive Label
  /-- Reads nothing. -/
  | epsilon
  /-- Reads any one character. -/
  | any
  /-- Reads the given character. -/
  | char (c : Char)
deriving DecidableEq

namespace Label

/-- The place of a label in the order of labels. -/
def rank : Label → Nat
  | epsilon => 0
  | any => 1
  | char c => c.toNat + 2

theorem rank_injective {a b : Label} (h : a.rank = b.rank) : a = b := by
  cases a <;> cases b <;> simp only [rank, reduceCtorEq] at h ⊢
  all_goals grind [Char.toNat_inj]

instance : Ord Label := ⟨compareOn rank⟩

instance : Std.TransOrd Label := inferInstanceAs (Std.TransCmp (compareOn rank))

instance : Std.LawfulEqOrd Label where
  compare_self {_} := Nat.compare_eq_eq.2 rfl
  eq_of_compare h := rank_injective (Std.LawfulEqOrd.eq_of_compare (α := Nat) h)

end Label

/-- A character as it is written in a definition: blanks by their escapes, all others as they are.
-/
def escape : Char → String
  | ' ' => "\\s"
  | '\t' => "\\t"
  | '\r' => "\\r"
  | '\n' => "\\n"
  | c => String.singleton c

/-- The label as it appears in a listing of an automaton. -/
def Label.text : Label → String
  | .epsilon => "ε"
  | .any => "."
  | .char c => escape c

end Predictive
