/-!
# Runs

An ordered run of states: the states of an automaton with the entry first and the exit last, or the
symbols of one alternative of a rule.
-/

namespace Predictive

/-- An ordered run of states. -/
abbrev Run (α : Type) := List α

namespace Run

variable {α : Type}

/-- The states from position `start` up to but not including `stop`, if the run reaches that far. -/
def slice? (r : Run α) (start stop : Nat) : Option (Run α) :=
  if start ≤ stop ∧ stop ≤ r.length then some ((r.take stop).drop start) else none

/-- The states in order, separated by spaces. -/
def render (text : α → String) (r : Run α) : String := " ".intercalate (r.map text)

end Run

end Predictive
