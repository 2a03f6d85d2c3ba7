import Predictive.Pattern.Definitions
import Predictive.Record
import Predictive.Text.Quoted

/-!
# Records of compiling patterns

What is logged while patterns are compiled, merged and joined, up to the first error.
-/

namespace Predictive

/-- The record of a pattern just compiled. -/
def Pattern.compiledRecord (p : Pattern) : Record where
  level := .debug
  message :=
    let name := Text.quoted p.definition.name
    s!"compiled pattern {name}: {p.nfa.size} NFA states, {p.dfa.size} DFA states"

/-- The record of a pattern to which an alternative was just added. -/
def Pattern.mergedRecord (p : Pattern) : Record where
  level := .debug
  message :=
    let name := Text.quoted p.definition.name
    s!"merged alternative into {name}: {p.dfa.size} DFA states"

/-- The record of a pattern set just joined. -/
def PatternSet.record (s : PatternSet) : Record where
  level := .debug
  message :=
    let states := s!"{s.nfa.size} NFA states, {s.dfa.size} DFA states"
    s!"master automaton for {s.patterns.length} patterns: {states}"

namespace Patterns

/-- The records of defining a pattern after those defined before it. -/
def defineRecords (patterns : List Pattern) (d : Definition) : List Record :=
  match compileNext patterns d with
  | .error _ => []
  | .ok new =>
    let merged := (find? patterns new.definition.name).map fun p => (p.merge new).mergedRecord
    new.compiledRecord :: merged.toList

/-- The records of defining patterns one after another. -/
def defineAllRecords (patterns : List Pattern) : List Definition → List Record
  | [] => [(PatternSet.ofPatterns patterns).record]
  | d :: definitions =>
    defineRecords patterns d ++
      match define patterns d with
      | .ok patterns => defineAllRecords patterns definitions
      | .error _ => []

end Patterns

/-- The records of compiling the lines of a definition text. -/
def Definitions.lineRecords (patterns : List Pattern) : List (List Char) → List Record
  | [] => [(PatternSet.ofPatterns patterns).record]
  | line :: lines =>
    match parseLine line with
    | .error _ => []
    | .ok none => lineRecords patterns lines
    | .ok (some d) =>
      Patterns.defineRecords patterns d ++
        match Patterns.define patterns d with
        | .ok patterns => lineRecords patterns lines
        | .error _ => []

/-- The records of `PatternSet.ofDefinitions`. -/
def PatternSet.definitionsRecords (definitions : List Definition) : List Record :=
  Patterns.defineAllRecords [] definitions

/-- The records of `PatternSet.parse`. -/
def PatternSet.parseRecords (text : String) : List Record :=
  Definitions.lineRecords [] (Text.lines text.toList)

end Predictive
