import Predictive.Pattern.Error
import Predictive.Token.Basic

/-!
# Faults in grammars
-/

namespace Predictive.Grammar

/-- What is wrong with a grammar text. -/
inductive Fault
  /-- There are no rules. -/
  | noRules
  /-- A rule block starts with something other than a name. -/
  | missingRuleName
  /-- There is no `->` after the name of a rule. -/
  | missingSeparator
  /-- There is nothing after the `->`. -/
  | emptyRule (name : String)
  /-- An operator with too few operands. -/
  | missingOperand (operator : Char)
  /-- A `)` without a `(` before it. -/
  | unopenedGroup
  /-- A `(` without a `)` after it. -/
  | unterminatedGroup
  /-- The marker `[>1]` does not end its block. -/
  | misplacedMultiChild
  /-- A token that no right-hand side may hold. -/
  | unexpectedToken (lexeme : String)
  /-- The rule derives a string that begins with the rule itself. -/
  | leftRecursion (rule : String)
  /-- Two alternatives of the rule can begin with the token, or be empty before it. -/
  | ambiguous (rule token : String)
  /-- The text holds something that is not a token. -/
  | tokenize (error : TokenizeError)
  /-- The token definitions of grammar texts could not be compiled. -/
  | vocabulary (error : DefinitionError)
deriving DecidableEq

/-- The text of a fault. -/
def Fault.message : Fault → String
  | noRules => "grammar defines no rules"
  | missingRuleName => "rule does not begin with a valid ID"
  | missingSeparator => "rule separator -> not found after rule name"
  | emptyRule name => s!"rule \"{name}\" has no definition"
  | missingOperand c => s!"not enough operands for operator '{c}'"
  | unopenedGroup => "could not find beginning '('"
  | unterminatedGroup => "could not find end ')'"
  | misplacedMultiChild => "multi-child marker [>1] must end the rule"
  | unexpectedToken lexeme => s!"unexpected \"{lexeme}\" in rule definition"
  | leftRecursion rule => s!"left recursion detected for rule \"{rule}\""
  | ambiguous rule token => s!"ambiguous grammar detected at rule \"{rule}\" with token \"{token}\""
  | tokenize error => error.message
  | vocabulary error => s!"grammar lexicon failed to compile: {error.message}"

/-- A grammar text could not be compiled. -/
structure Error where
  /-- The line at fault, counted from 1; 0 if the text has no rules. -/
  line : Nat
  fault : Fault
deriving DecidableEq

/-- The text of an error: the line and the fault. -/
def Error.message (e : Error) : String := s!"({e.line}) {e.fault.message}"

/-- A text that could not be cut into tokens. -/
def Error.ofTokenize (e : TokenizeError) : Error := { line := e.line?.getD 0, fault := .tokenize e }

end Predictive.Grammar
