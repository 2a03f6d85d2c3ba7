import Predictive.Grammar.Error
import Predictive.Grammar.Vocabulary
import Predictive.Precedence

/-!
# Rule blocks

A grammar text holds one rule block per line: a name, `->`, and a right-hand side in extended BNF
that may end in the marker `[>1]`. The reader takes the tokens of the text one at a time and
collects the blocks.
-/

namespace Predictive.Grammar

/-- A right-hand side. -/
inductive Expr
  /-- A rule or terminal. -/
  | name (name : String)
  /-- The empty group `()`. -/
  | empty
  /-- A group. -/
  | group (a : Expr)
  /-- One after the other. -/
  | concat (a b : Expr)
  /-- Either of two. -/
  | alt (a b : Expr)
  /-- Zero times or more. -/
  | star (a : Expr)
  /-- Once or not at all. -/
  | optional (a : Expr)
deriving DecidableEq

/-- A rule block. -/
structure Block where
  /-- The name of the rule. -/
  name : String
  /-- The right-hand side. -/
  body : Expr
  /-- The block ends in the marker `[>1]`. -/
  multiChild : Bool
  /-- The line on which the block starts. -/
  line : Nat
deriving DecidableEq

/-! ## Operators -/

/-- An operator of right-hand sides. -/
inductive Operator
  | concat
  | alt
  | star
  | optional
deriving DecidableEq

namespace Operator

/-- Postfix operators bind tightest, then juxtaposition. -/
def precedence : Operator → Nat
  | star | optional => 3
  | concat => 2
  | alt => 1

/-- The operator as it is named in an error. -/
def symbol : Operator → Char
  | concat => '.'
  | alt => '|'
  | star => '*'
  | optional => '?'

/-- The operator that a token of kind `op` stands for. -/
def ofLexeme (lexeme : String) : Operator :=
  if lexeme = "*" then star else if lexeme = "?" then optional else alt

/-- Applies an operator to the newest operands; an error is reported on the given line. -/
def apply (line : Nat) : Operator → List Expr → Except Error (List Expr)
  | concat, b :: a :: rest => .ok (.concat a b :: rest)
  | alt, b :: a :: rest => .ok (.alt a b :: rest)
  | star, a :: rest => .ok (.star a :: rest)
  | optional, a :: rest => .ok (.optional a :: rest)
  | op, _ => .error { line, fault := .missingOperand op.symbol }

end Operator

/-- How the operators of right-hand sides are applied, with errors reported on the given line. -/
def algebra (line : Nat) : Precedence.Algebra Expr Operator Error where
  precedence := Operator.precedence
  apply := Operator.apply line
  unopened := { line, fault := .unopenedGroup }
  unterminated := { line, fault := .unterminatedGroup }

/-! ## A block read in part -/

/-- A block whose end is not yet read. -/
structure OpenBlock where
  name : String
  line : Nat
  /-- The operands and operators so far. -/
  stack : Precedence.Stack Expr Operator := {}
  /-- The line of the token read last. -/
  lastLine : Nat := line
  /-- An operand has just ended. -/
  afterOperand : Bool := false

/-- Tokens of this kind begin an operand. -/
def Vocabulary.Kind.beginsOperand : Vocabulary.Kind → Bool
  | id | lparen => true
  | sep | op | rparen | multiChild | eol => false

/-- The token completes an operand. -/
def completesOperand (kind : Vocabulary.Kind) (lexeme : String) : Bool :=
  match kind with
  | .id | .rparen => true
  | .op => Operator.ofLexeme lexeme ≠ .alt
  | .sep | .lparen | .multiChild | .eol => false

namespace OpenBlock

/-- Joins the operand that starts with a token of this kind to the one before it. An error is one of
the operand before, and is reported where that ends. -/
def join (b : OpenBlock) (kind : Option Vocabulary.Kind) : Except Error OpenBlock :=
  if b.afterOperand ∧ kind.any (·.beginsOperand) then do
    return { b with stack := ← b.stack.addOperator (algebra b.lastLine) .concat }
  else return b

/-- Puts a closed group on the stack, the operands of which come newest first. -/
def pushGroup (stack : Precedence.Stack Expr Operator) :
    List Expr → Precedence.Stack Expr Operator
  | [] => stack.addOperand .empty
  | a :: rest => stack.addOperands (.group a :: rest)

/-- Puts a token of the right-hand side on the stack. -/
def place (b : OpenBlock) (kind : Option Vocabulary.Kind) (t : Token) :
    Except Error (Precedence.Stack Expr Operator) :=
  match kind with
  | some .id => return b.stack.addOperand (.name t.lexeme)
  | some .op => b.stack.addOperator (algebra t.line) (.ofLexeme t.lexeme)
  | some .lparen => return b.stack.enter
  | some .rparen => do
    let (inner, stack) ← b.stack.leave (algebra t.line)
    return pushGroup stack inner
  | _ => throw { line := t.line, fault := .unexpectedToken t.lexeme }

/-- Reads a token of the right-hand side. -/
def feed (b : OpenBlock) (kind : Option Vocabulary.Kind) (t : Token) : Except Error OpenBlock := do
  let stack ← b.place kind t
  let afterOperand := kind.any (completesOperand · t.lexeme)
  return { b with stack, lastLine := t.line, afterOperand }

/-- The block, once its end is read. -/
def close (b : OpenBlock) (multiChild : Bool) : Except Error Block := do
  match ← b.stack.complete (algebra b.line) with
  | [] => throw { line := b.line, fault := .emptyRule b.name }
  | body :: _ => return { name := b.name, body, multiChild, line := b.line }

end OpenBlock

/-! ## Reading a grammar text -/

/-- Where in a grammar text the reader stands. -/
inductive Position
  /-- Between blocks. -/
  | between
  /-- After the name of a rule. -/
  | named (name : String) (line : Nat)
  /-- In a right-hand side. -/
  | within (block : OpenBlock)
  /-- After the marker `[>1]`. -/
  | marked (block : OpenBlock)

/-- A grammar text read in part. -/
structure BlockReader where
  /-- The blocks read, newest first. -/
  blocks : List Block := []
  position : Position := .between

namespace BlockReader

/-- Ends a block. -/
def close (r : BlockReader) (b : OpenBlock) (multiChild : Bool) : Except Error BlockReader := do
  return { blocks := (← b.close multiChild) :: r.blocks }

/-- Reads a token. -/
def feed (r : BlockReader) (t : Token) : Except Error BlockReader :=
  let kind := Vocabulary.Kind.ofName? t.name
  match r.position with
  | .between =>
    if kind = some .eol then return r
    else if kind = some .id then return { r with position := .named t.lexeme t.line }
    else throw { line := t.line, fault := .missingRuleName }
  | .named name line =>
    if kind = some .sep then return { r with position := .within { name, line } }
    else throw { line := t.line, fault := .missingSeparator }
  | .within b => do
    let b ← b.join kind
    if kind = some .eol then r.close b false
    else if kind = some .multiChild then return { r with position := .marked b }
    else return { r with position := .within (← b.feed kind t) }
  | .marked b =>
    if kind = some .eol then r.close b true
    else throw { line := t.line, fault := .misplacedMultiChild }

/-- The blocks of the text, once its end is read, on the given line. -/
def finish (r : BlockReader) (line : Nat) : Except Error (List Block) :=
  match r.position with
  | .between => return r.blocks.reverse
  | .named _ _ => throw { line, fault := .missingSeparator }
  | .within b => return (← r.close b false).blocks.reverse
  | .marked b => return (← r.close b true).blocks.reverse

/-- Reads the blocks of the tokens, up to the end of the input or the error that follows them. -/
def read (tokens : List Token) (ending : Except TokenizeError Token) :
    Except Error (List Block) := do
  let r ← tokens.foldlM feed {}
  match ending with
  | .ok eof => r.finish eof.line
  | .error e => throw (Error.ofTokenize e)

end BlockReader

end Predictive.Grammar
