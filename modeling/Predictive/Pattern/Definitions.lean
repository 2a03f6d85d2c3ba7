import Predictive.Pattern.Set
import Predictive.Text.Blank
import Predictive.Text.Lines

/-!
# Definition texts

A definition text holds one pattern per line, `name: regex`, or `:name: regex` for an internal one.
A `#` that is not escaped starts a comment. The first line at fault is reported with its number.
-/

namespace Predictive.Definitions

/-- The text before the first `#` that is not escaped, where `escaped` tells whether the first
character is. -/
def cutComment (escaped : Bool) : List Char → List Char
  | [] => []
  | c :: cs =>
    if c = '#' ∧ !escaped then []
    else if c = '\\' then c :: cutComment (!escaped) cs
    else c :: cutComment false cs

/-- What is left of a line without its comment and the blanks around it. -/
def content (line : List Char) : List Char := Text.trim (cutComment false (Text.trim line))

/-- A letter followed by letters, digits and underscores. -/
def isName : List Char → Bool
  | [] => false
  | c :: cs => c.isAlpha && cs.all fun c => c.isAlphanum || c == '_'

/-- The flag, name and regular expression of a line that is not empty. -/
def parse (line : List Char) : Except DefinitionFault Definition := do
  let (internal, line) := match line with
    | ':' :: rest => (true, rest)
    | _ => (false, line)
  let (before, after) := line.span (· ≠ ':')
  match after with
  | [] => throw .missingSeparator
  | _ :: after =>
    let nameChars := Text.trim before
    let name := String.ofList nameChars
    let regex := Text.trim after
    if nameChars.isEmpty then throw .missingName
    else if !isName nameChars then throw (.invalidName name)
    else if name = eofName then throw (.reservedName name)
    else if regex.isEmpty then throw (.missingRegex name)
    else return { name, regex := String.ofList regex, internal }

/-- Reads a line of a definition text: the definition it holds, if it holds one. -/
def parseLine (line : List Char) : Except DefinitionFault (Option Definition) :=
  match content line with
  | [] => .ok none
  | c :: cs => (parse (c :: cs)).map some

/-- Adds the pattern that a line defines, if any, to those defined before it. -/
def defineLine (patterns : List Pattern) (line : List Char) :
    Except DefinitionFault (List Pattern) := do
  match ← parseLine line with
  | none => return patterns
  | some d => (Patterns.define patterns d).mapError (.pattern d.name)

/-- Adds the patterns of the lines that follow line `number`. -/
def defineLines (patterns : List Pattern) (number : Nat) :
    List (List Char) → Except DefinitionError (List Pattern)
  | [] => .ok patterns
  | line :: lines => do
    let patterns ← (defineLine patterns line).mapError fun fault => { line := number + 1, fault }
    defineLines patterns (number + 1) lines

end Definitions

/-- Compiles a definition text. -/
def PatternSet.parse (text : String) : Except DefinitionError PatternSet :=
  (Definitions.defineLines [] 0 (Text.lines text.toList)).map .ofPatterns

end Predictive
