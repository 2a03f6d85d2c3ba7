import Predictive.Run

/-!
# Alternatives of a rule

An alternative derives a run of symbols from the name of its rule. As it is written, a symbol is a
name or the empty group; once every rule is known, each name is the name of a rule or of a terminal.
-/

namespace Predictive.Grammar

/-- A symbol as it is written. -/
inductive Item
  /-- The name of a rule or of a terminal. -/
  | name (name : String)
  /-- The empty group `()`, which derives the empty string. -/
  | empty
deriving DecidableEq

/-- A symbol whose name is known. -/
inductive Symbol
  /-- A terminal by its name and number. -/
  | terminal (name : String) (id : Nat)
  /-- A rule by its name and number. -/
  | rule (name : String) (id : Nat)
  /-- Derives the empty string. -/
  | empty
deriving DecidableEq

/-- The symbol as it is written. -/
def Symbol.item : Symbol → Item
  | terminal name _ | rule name _ => .name name
  | empty => .empty

namespace Item

/-- The name of the symbol; the empty group has the empty name. -/
def ident : Item → String
  | .name n => n
  | .empty => ""

/-- The symbol as it appears in a listing. -/
def text : Item → String
  | .name n => n
  | .empty => "ε"

end Item

/-- One way to derive a rule, over symbols of type `σ`. -/
structure Alternative (σ : Type) where
  /-- The name of the rule. -/
  name : String
  /-- What is derived. -/
  sequence : Run σ
  /-- The rule was made for a group or a repetition, and has no node of its own in a tree. -/
  subrule : Bool := false
  /-- In a tree, an only child takes the place of its node. -/
  multiChild : Bool := false
  /-- The line of the block in which the alternative is written. -/
  line : Nat := 0
deriving DecidableEq

namespace Alternative

variable {σ τ : Type}

/-- The alternative over other symbols. -/
def map (f : σ → τ) (a : Alternative σ) : Alternative τ :=
  { a with sequence := a.sequence.map f }

/-- The symbols other than the empty group. -/
def symbols (a : Alternative Item) : List Item := a.sequence.filter (· ≠ .empty)

/-- The alternative has no symbols other than the empty group. -/
def isEmpty (a : Alternative Item) : Bool := a.symbols.isEmpty

/-- The alternative as it appears in a listing. -/
def text (a : Alternative Item) : String :=
  let body := if a.isEmpty then " ε" else String.join (a.symbols.map fun s => " " ++ s.text)
  let mark := if a.multiChild then " [>1]" else ""
  s!"{a.name} ->{body}{mark}"

end Alternative

end Predictive.Grammar
