/-!
# Faults in patterns and definitions

Why a regular expression, or a line of a definition text, could not be compiled.
-/

namespace Predictive

/-- Why a pattern could not be compiled. -/
inductive PatternError
  /-- There is nothing to match. -/
  | emptyRegex
  /-- A `)` without a `(` before it. -/
  | unopenedGroup
  /-- A `(` without a `)` after it. -/
  | unterminatedGroup
  /-- A group with nothing in it. -/
  | emptyGroup
  /-- A `]` without a `[` before it. -/
  | unopenedClass
  /-- A `[` without a `]` after it. -/
  | unterminatedClass
  /-- A character class that matches no character. -/
  | emptyClass
  /-- An operator with too few operands. -/
  | missingOperand (operator : Char)
  /-- A character that must be escaped within a class. -/
  | unescapedInClass (operator : Char)
  /-- A character that has a meaning only within a class. -/
  | outsideClass (operator : Char)
  /-- A `^` within a class that is not its first character. -/
  | misplacedNegation
  /-- A `\` at the end. -/
  | danglingEscape
  /-- A `\` before a character that has no escape. -/
  | invalidEscape (c : Char)
  /-- A `:` that opens the name of an embedded pattern without one to close it. -/
  | unterminatedEmbed
  /-- An embedded pattern that is not defined. -/
  | undefinedEmbed (name : String)
  /-- The name of the end of the input is given to a pattern. -/
  | reservedName (name : String)
deriving DecidableEq

/-- The text of an error. -/
def PatternError.message : PatternError → String
  | emptyRegex => "regular expression cannot be empty"
  | unopenedGroup => "could not find beginning subpattern '('"
  | unterminatedGroup => "could not find end subpattern ')'"
  | emptyGroup => "empty subpattern"
  | unopenedClass => "character class has not been opened with '['"
  | unterminatedClass => "character class has not been ended with a ']'"
  | emptyClass => "character classes cannot be empty"
  | missingOperand c => s!"missing operand for operator '{c}'"
  | unescapedInClass c => s!"operator '{c}' needs escaping in a character class"
  | outsideClass c => s!"operator '{c}' must be in a character class"
  | misplacedNegation =>
    "character class negation '^' must come first after '[', or be escaped if literal"
  | danglingEscape => "nothing following the escape character"
  | invalidEscape c => s!"invalid escaping of character '{c}'"
  | unterminatedEmbed => "could not find end ':' of embedded token name"
  | undefinedEmbed name => s!"cannot find token \"{name}\" for embedding"
  | reservedName name => s!"token name \"{name}\" is reserved"

/-- What is wrong with a line of a definition text. -/
inductive DefinitionFault
  /-- There is no `:` after the name. -/
  | missingSeparator
  /-- There is nothing before the `:`. -/
  | missingName
  /-- The name is not a letter followed by letters, digits and underscores. -/
  | invalidName (name : String)
  /-- The name is that of the end of the input. -/
  | reservedName (name : String)
  /-- There is nothing after the `:`. -/
  | missingRegex (name : String)
  /-- The pattern could not be compiled. -/
  | pattern (name : String) (error : PatternError)
deriving DecidableEq

/-- The text of a fault. -/
def DefinitionFault.message : DefinitionFault → String
  | missingSeparator => "missing separator ':' after token name"
  | missingName => "token name not defined"
  | invalidName name => s!"invalid token name \"{name}\""
  | reservedName name => s!"token name \"{name}\" is reserved"
  | missingRegex name => s!"regular expression not defined for token \"{name}\""
  | pattern name error => s!"[{name}] {error.message}"

/-- A definition text could not be compiled. -/
structure DefinitionError where
  /-- The line at fault, counted from 1. -/
  line : Nat
  fault : DefinitionFault
deriving DecidableEq

/-- The text of an error: the line and the fault. -/
def DefinitionError.message (e : DefinitionError) : String := s!"({e.line}) {e.fault.message}"

end Predictive
