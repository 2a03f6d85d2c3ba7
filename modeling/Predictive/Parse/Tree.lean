import Predictive.Text.Lines
import Predictive.Text.Quoted

/-!
# Parse trees

A leaf is a token, an inner node a rule with its children. A tree is listed node by node, each
before its children.
-/

namespace Predictive

/-- A node of a parse tree. -/
inductive Node
  /-- A token by its name and lexeme. -/
  | leaf (name lexeme : String)
  /-- A rule by its name, with the mark of the alternative that was chosen. -/
  | rule (name : String) (multiChild : Bool) (children : List Node)

namespace Node

/-- The name of the token or rule. -/
def name : Node → String
  | leaf name _ | rule name _ _ => name

/-- The children of a rule; a leaf has none. -/
def children : Node → List Node
  | leaf _ _ => []
  | rule _ _ children => children

/-- A node as it stands in the list of the nodes of a tree. -/
structure Entry where
  /-- The number of nodes above it. -/
  depth : Nat
  name : String
  /-- The lexeme of a leaf. -/
  value : Option String
  multiChild : Bool
deriving DecidableEq

mutual

/-- The nodes of a tree in order, where the root stands at the given depth. -/
def entries (depth : Nat) : Node → List Entry
  | leaf name lexeme => [{ depth, name, value := some lexeme, multiChild := false }]
  | rule name multiChild children =>
    { depth, name, value := none, multiChild } :: entriesOf (depth + 1) children

/-- The nodes of several trees in order. -/
def entriesOf (depth : Nat) : List Node → List Entry
  | [] => []
  | n :: ns => n.entries depth ++ entriesOf depth ns

end

/-- A node as it appears in a listing: indented by its depth, a leaf with its quoted lexeme. -/
def Entry.text (e : Entry) : String :=
  let value := match e.value with
    | some lexeme => " " ++ Text.quoted lexeme
    | none => ""
  String.ofList (List.replicate (2 * e.depth) ' ') ++ e.name ++ value

/-- The listing of a tree, one line per node. -/
def text (n : Node) : String := Text.unlines ((n.entries 0).map Entry.text)

end Node

end Predictive
