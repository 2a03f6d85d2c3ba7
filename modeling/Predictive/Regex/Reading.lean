import Predictive.Precedence
import Predictive.Regex.Basic
import Predictive.Regex.Token

/-!
# Reading regular expressions

Postfix operators bind tightest, then juxtaposition, then `|`. Two operands side by side are joined
as soon as the second begins, so that a fault in the first is found before a fault in the second.
Spaces and tabs are ignored.
-/

namespace Predictive.Regex

/-- An operator of regular expressions. -/
inductive Operator
  | concat
  | alt
  | star
  | plus
  | optional
deriving DecidableEq

namespace Operator

/-- Postfix operators bind tightest, then juxtaposition. -/
def precedence : Operator → Nat
  | star | plus | optional => 3
  | concat => 2
  | alt => 1

/-- The operator as it is named in an error. -/
def symbol : Operator → Char
  | concat => '.'
  | alt => '|'
  | star => '*'
  | plus => '+'
  | optional => '?'

/-- Applies an operator to the newest operands. -/
def apply : Operator → List Regex → Except PatternError (List Regex)
  | concat, b :: a :: rest => .ok (.concat a b :: rest)
  | alt, b :: a :: rest => .ok (.alt a b :: rest)
  | star, a :: rest => .ok (.star a :: rest)
  | plus, a :: rest => .ok (.plus a :: rest)
  | optional, a :: rest => .ok (.optional a :: rest)
  | op, _ => .error (.missingOperand op.symbol)

end Operator

/-- How the operators of regular expressions are applied. -/
def algebra : Precedence.Algebra Regex Operator PatternError where
  precedence := Operator.precedence
  apply := Operator.apply
  unopened := .unopenedGroup
  unterminated := .unterminatedGroup

/-- An expression read in part. -/
structure Partial where
  /-- The operands and operators so far. -/
  stack : Precedence.Stack Regex Operator := {}
  /-- An operand has just ended. -/
  afterOperand : Bool := false

namespace Partial

/-- Places a token on the stack. -/
def place (known : String → Bool) (stack : Precedence.Stack Regex Operator) :
    Token → Except PatternError (Precedence.Stack Regex Operator)
  | .label l => return stack.addOperand (.oneOf [l])
  | .members labels => return stack.addOperand (.oneOf labels)
  | .embed name =>
    if known name then return stack.addOperand (.embed name) else throw (.undefinedEmbed name)
  | .star => stack.addOperator algebra .star
  | .plus => stack.addOperator algebra .plus
  | .question => stack.addOperator algebra .optional
  | .bar => stack.addOperator algebra .alt
  | .openGroup => return stack.enter
  | .closeGroup => do
    let (inner, stack) ← stack.leave algebra
    if inner.isEmpty then throw .emptyGroup
    return stack.addOperands inner
  | .openClass => return stack

/-- Reads a token, which is joined to the operand before it if it starts one of its own. -/
def feed (known : String → Bool) (p : Partial) (t : Token) : Except PatternError Partial := do
  let stack ←
    if p.afterOperand && t.beginsOperand then p.stack.addOperator algebra .concat
    else pure p.stack
  return { stack := ← place known stack t, afterOperand := t.completesOperand }

/-- The expression, once all tokens are read. -/
def finish (p : Partial) : Except PatternError Regex := do
  match ← p.stack.complete algebra with
  | [] => throw .emptyRegex
  | [regex] => return regex
  | _ => throw (.missingOperand Operator.concat.symbol)

end Partial

/-- Reads the tokens of an expression. -/
def ofTokens (known : String → Bool) (tokens : List Token) (fault : Option PatternError) :
    Except PatternError Regex := do
  let p ← tokens.foldlM (Partial.feed known) {}
  match fault with
  | some e => throw e
  | none => p.finish

/-- Reads an expression, in which the names that satisfy `known` may be embedded. -/
def read (known : String → Bool) (text : List Char) : Except PatternError Regex :=
  let cs := text.filter fun c => c ≠ ' ' ∧ c ≠ '\t'
  if cs.isEmpty then throw .emptyRegex
  else
    let (tokens, fault) := Reader.outside.tokens cs
    ofTokens known tokens fault

/-- The automaton of an expression as it is written. -/
def compile (lookup : String → Option Nfa) (text : String) : Except PatternError Nfa :=
  (read (fun name => (lookup name).isSome) text.toList).map (automaton lookup)

end Predictive.Regex
