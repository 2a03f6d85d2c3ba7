import Predictive.Automaton.Dfa
import Predictive.Regex.Reading

/-!
# Token patterns

A named regular expression with its automata. Patterns can be merged: the result matches what either
of them matched.
-/

namespace Predictive

/-- The name of the token at the end of the input. -/
def eofName : String := "eof"

/-- A named regular expression. -/
structure Definition where
  name : String
  regex : String
  /-- An internal pattern can be embedded in others but gives no tokens. -/
  internal : Bool := false
  /-- The place among the definitions; the lower of two wins a tie. -/
  position : Nat := 0
deriving DecidableEq

/-- The pattern as the owner of a state. -/
def Definition.owner (d : Definition) : Owner := { position := d.position, name := d.name }

/-- A compiled token pattern. -/
structure Pattern where
  definition : Definition
  nfa : Nfa
  dfa : Dfa
deriving DecidableEq

namespace Pattern

/-- Compiles a pattern, in which the automata that `lookup` finds may be embedded. -/
def compile (lookup : String → Option Nfa) (d : Definition) : Except PatternError Pattern := do
  let plain ← Regex.compile lookup d.regex
  if plain.graph.isEmpty then throw .emptyRegex
  let nfa := plain.acceptExit d.owner
  return { definition := d, nfa, dfa := .ofNfa nfa }

/-- The pattern matches the whole of a text. -/
def accepts (p : Pattern) (text : String) : Bool := p.dfa.accepts text.toList

/-- Merges `other` into `p`, which keeps its name, place and flag. -/
def merge (p other : Pattern) : Pattern :=
  if p.nfa.graph.isEmpty ∨ other.nfa.graph.isEmpty then p
  else
    let nfa := (p.nfa.releaseExit.union other.nfa.bare).acceptExit p.definition.owner
    let regex := s!"{p.definition.regex} | {other.definition.regex}"
    { definition := { p.definition with regex }, nfa, dfa := .ofNfa nfa }

/-- The listing of the automaton under the name of the pattern. -/
def text (p : Pattern) : String := Text.unlines [s!"[{p.definition.name}] (DFA)"] ++ p.dfa.text

end Pattern

end Predictive
