import Predictive.Pattern.Basic

/-!
# Sets of patterns

Patterns are defined one after another, and each may embed those before it. A name that is defined
again gets another alternative. The master automaton joins all patterns that give tokens; where
several match, the one defined first wins.
-/

namespace Predictive

/-- Patterns in order of definition, and the automaton that joins those that give tokens. -/
structure PatternSet where
  patterns : List Pattern
  nfa : Nfa
  dfa : Dfa
deriving DecidableEq

namespace Patterns

/-- The pattern of that name. -/
def find? (patterns : List Pattern) (name : String) : Option Pattern :=
  patterns.find? fun p => p.definition.name = name

/-- The automaton of the pattern of that name. -/
def nfa? (patterns : List Pattern) (name : String) : Option Nfa := (find? patterns name).map (·.nfa)

/-- The place of the pattern of that name, or else the place of the next new pattern. -/
def position (patterns : List Pattern) (name : String) : Nat :=
  patterns.findIdx fun p => p.definition.name = name

/-- Adds a compiled pattern: as an alternative of the one of the same name, or at the end. -/
def add (patterns : List Pattern) (new : Pattern) : List Pattern :=
  if (find? patterns new.definition.name).isSome then
    patterns.map fun p => if p.definition.name = new.definition.name then p.merge new else p
  else patterns ++ [new]

/-- Compiles a pattern against those defined before it. -/
def compileNext (patterns : List Pattern) (d : Definition) : Except PatternError Pattern :=
  if d.name = eofName then throw (.reservedName d.name)
  else Pattern.compile (nfa? patterns) { d with position := position patterns d.name }

/-- Defines a pattern after those defined before it. -/
def define (patterns : List Pattern) (d : Definition) : Except PatternError (List Pattern) :=
  (compileNext patterns d).map (add patterns)

/-- Adds a copy of a pattern's automaton behind the common entry, state 0. -/
def joinOne (n : Nfa) (p : Pattern) : Nfa :=
  let both := n.beside p.nfa.bare
  match p.nfa.bare.entry? with
  | some first => (both.addEdge 0 .epsilon (first + n.size)).acceptExit p.definition.owner
  | none => both

/-- The automaton that joins all patterns that are not internal. -/
def joined (patterns : List Pattern) : Nfa :=
  (patterns.filter fun p => !p.definition.internal).foldl joinOne { states := #[{}], graph := [0] }

end Patterns

namespace PatternSet

/-- The set of patterns already compiled. -/
def ofPatterns (patterns : List Pattern) : PatternSet :=
  let nfa := Patterns.joined patterns
  { patterns, nfa, dfa := .ofNfa nfa }

/-- Compiles patterns in the order given. -/
def ofDefinitions (definitions : List Definition) : Except PatternError PatternSet :=
  (definitions.foldlM Patterns.define []).map ofPatterns

/-- The pattern of that name. -/
def pattern? (s : PatternSet) (name : String) : Option Pattern := Patterns.find? s.patterns name

/-- The line that defines a pattern. -/
def definitionLine (s : Definition) : String :=
  let mark := if s.internal then ":" else ""
  s!"{mark}{s.name}: {s.regex}"

/-- The definitions, then the listing of the master automaton. -/
def text (s : PatternSet) : String :=
  let definitions := s.patterns.map fun p => definitionLine p.definition
  Text.unlines (definitions ++ ["[master] (DFA)"]) ++ s.dfa.text

end PatternSet

end Predictive
