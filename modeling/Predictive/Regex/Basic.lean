import Predictive.Automaton.Thompson

/-!
# Regular expressions

The syntax tree of a regular expression, and its automaton. Other automata are embedded by name.
-/

namespace Predictive

/-- A regular expression. -/
inductive Regex
  /-- One character, read by one of the labels. -/
  | oneOf (labels : List Label)
  /-- Whatever the automaton of that name matches. -/
  | embed (name : String)
  /-- One after the other. -/
  | concat (a b : Regex)
  /-- Either of two. -/
  | alt (a b : Regex)
  /-- Zero times or more. -/
  | star (a : Regex)
  /-- Once or more. -/
  | plus (a : Regex)
  /-- Once or not at all. -/
  | optional (a : Regex)
deriving DecidableEq

namespace Regex

/-- The automaton of an expression. A name that is not found stands for the automaton without
states. -/
def automaton (lookup : String → Option Nfa) : Regex → Nfa
  | oneOf labels => .oneOf labels
  | embed name => ((lookup name).getD .empty).bare
  | concat a b => (a.automaton lookup).concat (b.automaton lookup)
  | alt a b => (a.automaton lookup).union (b.automaton lookup)
  | star a => (a.automaton lookup).iterate true true
  | plus a => (a.automaton lookup).iterate false true
  | optional a => (a.automaton lookup).iterate true false

end Regex

end Predictive
