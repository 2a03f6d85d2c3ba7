import Predictive.Grammar.Basic
import Predictive.Parse.Tree

/-!
# The parsing machine

The machine keeps a stack of what it still expects and the nodes it has open. With a lookahead token
it expands rules by the table until it matches the token, accepts, or fails. A rule made for a group
or a repetition gets no node; its children go to the node around it.
-/

namespace Predictive

/-- Why an input could not be parsed. -/
inductive ParseError
  /-- Another token was expected. -/
  | tokenMismatch (expected found lexeme : String) (line : Nat)
  /-- No alternative of the rule is chosen on the token. -/
  | unexpectedToken (rule found lexeme : String) (line : Nat)
  /-- The input ended before there was a node. -/
  | noTree
  /-- There is no next token. -/
  | tokenize (error : TokenizeError)
deriving DecidableEq

namespace ParseError

/-- The line of the error, if it has one. -/
def line? : ParseError → Option Nat
  | tokenMismatch _ _ _ line | unexpectedToken _ _ _ line => some line
  | noTree => none
  | tokenize error => error.line?

/-- The text of an error. -/
def message : ParseError → String
  | tokenMismatch expected found lexeme line =>
    let lexeme := Text.quoted lexeme
    s!"({line}) tokens do not match: read \"{found}\" ({lexeme}), expected \"{expected}\""
  | unexpectedToken rule found lexeme line =>
    let lexeme := Text.quoted lexeme
    s!"({line}) unexpected token \"{found}\" ({lexeme}) for rule \"{rule}\""
  | noTree => "input ended before a parse tree was started"
  | tokenize error => error.message

end ParseError

namespace Parse

/-- What the machine has yet to do. -/
inductive Task
  /-- Find a symbol. -/
  | expect (s : Grammar.Symbol)
  /-- Close the innermost open node. -/
  | close
deriving DecidableEq

/-- A rule node whose children are not yet all known. -/
structure OpenNode where
  name : String
  multiChild : Bool
  /-- The children so far, newest first. -/
  children : List Node := []

/-- The node with the children it has. -/
def OpenNode.close (n : OpenNode) : Node := .rule n.name n.multiChild n.children.reverse

/-- Adds a child. -/
def OpenNode.add (n : OpenNode) (child : Node) : OpenNode :=
  { n with children := child :: n.children }

/-- The state of the machine. -/
structure Machine where
  /-- The tasks, the next one first. -/
  stack : List Task
  /-- The open nodes, the innermost first. -/
  nodes : List OpenNode := []
  /-- The root, once it is closed. -/
  root : Option Node := none

/-- Where the machine stops for a lookahead token. -/
inductive Halt
  /-- The token was matched, and the next one is to be read. -/
  | read (m : Machine)
  /-- The end of the input was matched. -/
  | accept (m : Machine)
  /-- The token does not fit. -/
  | fail (e : ParseError)

namespace Machine

/-- Closes the innermost node. Inside another, a node without children is dropped, and one that is
marked and has a single child is replaced by it. -/
def closeNode (m : Machine) : Machine :=
  match m.nodes with
  | [] => m
  | [node] => { m with nodes := [], root := some node.close }
  | node :: parent :: outer =>
    match node.children with
    | [] => { m with nodes := parent :: outer }
    | [child] =>
      let kept := if node.multiChild then child else node.close
      { m with nodes := parent.add kept :: outer }
    | _ => { m with nodes := parent.add node.close :: outer }

/-- Adds a leaf to the innermost node. -/
def addLeaf (m : Machine) (t : Token) : Machine :=
  match m.nodes with
  | [] => m
  | node :: outer => { m with nodes := node.add (.leaf t.name t.lexeme) :: outer }

/-- Replaces a rule by an alternative of it. The rules made for groups and repetitions open no node.
-/
def expand (m : Machine) (a : Grammar.Alternative Grammar.Symbol) : Machine :=
  let symbols := (a.sequence.filter (· ≠ .empty)).map Task.expect
  if a.subrule then { m with stack := symbols ++ m.stack }
  else
    { m with
      stack := symbols ++ .close :: m.stack
      nodes := { name := a.name, multiChild := a.multiChild } :: m.nodes }

/-- One step with a lookahead token: the machine after it, or where it stops. -/
def step (g : Grammar) (t : Token) (m : Machine) : Machine ⊕ Halt :=
  match m.stack with
  | [] => .inr (.accept m)
  | .close :: stack => .inl { m with stack }.closeNode
  | .expect .empty :: stack => .inl { m with stack }
  | .expect (.terminal name id) :: stack =>
    let m := { m with stack }
    if t.name ≠ name then .inr (.fail (.tokenMismatch name t.name t.lexeme t.line))
    else if id = 0 then .inr (.accept m)
    else .inr (.read (m.addLeaf t))
  | .expect (.rule name id) :: stack =>
    match (g.terminalNumber? t.name).bind (g.choice? id) with
    | some a => .inl ({ m with stack }.expand a)
    | none => .inr (.fail (.unexpectedToken name t.name t.lexeme t.line))

/-- The steps with a lookahead token, up to where the machine stops, or `none` if that takes more
than the given number. -/
def settle (g : Grammar) (t : Token) : Nat → Machine → Option Halt
  | 0, _ => none
  | steps + 1, m =>
    match m.step g t with
    | .inl next => settle g t steps next
    | .inr halt => some halt

/-- Closes the given number of nodes. -/
def closeNodes (m : Machine) : Nat → Machine
  | 0 => m
  | n + 1 => m.closeNode.closeNodes n

/-- The tree, once the end of the input is matched. Nodes that are still open are closed. -/
def result (m : Machine) : Except ParseError Node :=
  match (m.closeNodes m.nodes.length).root with
  | some root => .ok root
  | none => .error .noTree

/-- The machine at the start: it expects the start rule and then the end of the input. -/
def start (g : Grammar) : Machine := { stack := [.expect g.start, .expect g.eof] }

/-- A bound on the steps that one task takes with the same lookahead token. An expanded rule does
not meet itself before the token is matched, so nodes nest no deeper than there are rules. -/
def taskBound (g : Grammar) : Nat :=
  let width := (g.alternatives.map fun a => a.2.sequence.length).foldl max 0
  Nat.pow (width + 2) (g.rules.length + 1)

/-- A bound on the steps that the machine takes with the same lookahead token. -/
def bound (taskBound : Nat) (m : Machine) : Nat := (m.stack.length + 1) * taskBound

end Machine

/-- How far a run has come. -/
inductive Progress (σ : Type)
  /-- The run has ended, and the stream is left in the given state. -/
  | done (result : Except ParseError Node) (stream : σ)
  /-- All rounds are used up. -/
  | more (m : Machine) (lookahead : Token) (stream : σ)
  /-- The machine takes steps without end. -/
  | endless

/-- Runs the machine for a number of rounds, each of which ends with reading a token. -/
def run {σ : Type} [TokenStream σ] (g : Grammar) (taskBound : Nat) :
    Nat → Machine → Token → σ → Progress σ
  | 0, m, t, stream => .more m t stream
  | rounds + 1, m, t, stream =>
    match m.settle g t (m.bound taskBound) with
    | none => .endless
    | some (.accept m) => .done m.result stream
    | some (.fail e) => .done (.error e) stream
    | some (.read m) =>
      match TokenStream.next stream with
      | (.error e, stream) => .done (.error (.tokenize e)) stream
      | (.ok t, stream) => run g taskBound rounds m t stream

end Parse

/-- Parses the tokens of a stream up to the end of the input: the tree or an error, and the stream
after the last token read. There is no answer if the parse never ends, which takes a stream whose
end-of-input token is an ordinary terminal of the grammar. Once a stream gives only that token,
every rule is expanded in one way only, so the run ends within a bound or not at all. -/
def Grammar.parseTokens {σ : Type} [TokenStream σ] (g : Grammar) (stream : σ) :
    Option (Except ParseError Node × σ) :=
  let taskBound := Parse.Machine.taskBound g
  match TokenStream.next stream with
  | (.error e, stream) => some (.error (.tokenize e), stream)
  | (.ok t, stream) =>
    match Parse.run g taskBound (TokenStream.remaining stream + 1) (.start g) t stream with
    | .done result stream => some (result, stream)
    | .endless => none
    | .more m t stream =>
      match Parse.run g taskBound (m.bound taskBound) m t stream with
      | .done result stream => some (result, stream)
      | _ => none

end Predictive
