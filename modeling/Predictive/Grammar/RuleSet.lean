import Predictive.Grammar.Desugaring

/-!
# Rules with known names

Rules are numbered in order of appearance, terminals in order of first use after the end-of-input
terminal, which is number 0, and alternatives rule by rule.
-/

namespace Predictive.Grammar

/-- A rule with its alternatives. -/
structure Rule where
  name : String
  /-- The rule was made for a group or a repetition. -/
  subrule : Bool
  /-- The line of the block in which the rule first appears. -/
  line : Nat
  /-- The alternatives with their numbers. -/
  alternatives : List (Nat × Alternative Symbol)
deriving DecidableEq

/-- Rules whose symbols are known. -/
structure RuleSet where
  /-- The rules by number; rule 0 is the start. -/
  rules : List Rule
  /-- The names of the terminals by number; terminal 0 is the end of the input. -/
  terminals : List String
deriving DecidableEq

/-! ## Names -/

/-- The names of the terminals: that of the end of the input, then the names that are not names of
rules, in order of first use. -/
def terminalNames (eof : String) (texts : RuleTexts) : List String :=
  let names := texts.map (·.1)
  let used := texts.flatMap fun text => text.2.flatMap fun a => a.sequence.map (·.ident)
  (eof :: used.filter (· ∉ names)).eraseDups

/-- The symbol that is written as an item, given the names of the rules and of the terminals. -/
def resolve (rules terminals : List String) : Item → Symbol
  | .empty => .empty
  | .name n =>
    match rules.idxOf? n with
    | some id => .rule n id
    | none => .terminal n (terminals.idxOf n)

/-- The rules with their names known, and alternatives numbered from `number`. -/
def numberRules (symbol : Item → Symbol) (number : Nat) : RuleTexts → List Rule
  | [] => []
  | (name, alternatives) :: texts =>
    let rule : Rule :=
      { name
        subrule := (alternatives.head?.map (·.subrule)).getD false
        line := (alternatives.head?.map (·.line)).getD 0
        alternatives := (alternatives.zipIdx number).map fun a => (a.2, a.1.map symbol) }
    rule :: numberRules symbol (number + alternatives.length) texts

namespace RuleSet

/-- The rules of `texts`, where the end of the input is called `eof`. -/
def ofTexts (eof : String) (texts : RuleTexts) : RuleSet :=
  let terminals := terminalNames eof texts
  { rules := numberRules (resolve (texts.map (·.1)) terminals) 0 texts, terminals }

/-- The number of the rule of that name. -/
def ruleNumber? (g : RuleSet) (name : String) : Option Nat := g.rules.findIdx? (·.name = name)

/-- The number of the terminal of that name. -/
def terminalNumber? (g : RuleSet) (name : String) : Option Nat := g.terminals.idxOf? name

/-- The name of a terminal. -/
def terminalName (g : RuleSet) (id : Nat) : String := g.terminals[id]?.getD ""

/-- The name of a rule. -/
def ruleName (g : RuleSet) (id : Nat) : String := (g.rules[id]?.map (·.name)).getD ""

/-- The line of a rule. -/
def ruleLine (g : RuleSet) (id : Nat) : Nat := (g.rules[id]?.map (·.line)).getD 0

/-- The alternatives of a rule with their numbers. -/
def alternativesOf (g : RuleSet) (id : Nat) : List (Nat × Alternative Symbol) :=
  (g.rules[id]?.map (·.alternatives)).getD []

/-- All alternatives with their numbers. -/
def alternatives (g : RuleSet) : List (Nat × Alternative Symbol) := g.rules.flatMap (·.alternatives)

/-- The symbol for the start rule. -/
def start (g : RuleSet) : Symbol := .rule (g.ruleName 0) 0

/-- The symbol for the end of the input. -/
def eof (g : RuleSet) : Symbol := .terminal (g.terminalName 0) 0

end RuleSet

end Predictive.Grammar
