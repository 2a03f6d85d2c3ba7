import Predictive.Grammar.Table
import Predictive.Token.Tokenizer

/-!
# LL(1) grammars

A grammar is compiled from its text in steps: the text is cut into tokens, the tokens are read into
rule blocks, the blocks are made into plain rules, names are made known, and the sets and the table
are computed. Left recursion and ambiguity are refused.
-/

namespace Predictive

/-- A grammar with its sets and its table. -/
structure Grammar extends Grammar.RuleSet where
  /-- The FIRST sets of the rules. -/
  firsts : Grammar.Firsts
  /-- The FOLLOW sets of the rules by number. -/
  follows : List (SortedSet Nat)
  /-- The rows of the table by rule. -/
  table : List Grammar.Row
deriving DecidableEq

namespace Grammar

/-! ## Compilation -/

/-- The sets and the table of a rule set, or its left recursion or ambiguity. -/
def ofRuleSet (g : RuleSet) : Except Error Grammar :=
  match g.firsts with
  | .error r => .error { line := g.ruleLine r, fault := .leftRecursion (g.ruleName r) }
  | .ok firsts =>
    let follows := (g.follows firsts).map RuleSet.fillFollow
    let table := g.rows firsts follows
    match RuleSet.firstClash table with
    | some (rule, c) =>
      let fault := .ambiguous (g.ruleName rule) (g.terminalName c.terminal)
      .error { line := g.ruleLine rule, fault }
    | none => .ok { g with firsts, follows, table }

/-- The rule blocks of a grammar text. -/
def readBlocks (text : String) : Except Error (List Block) := do
  let words ← Vocabulary.patterns.mapError fun e => { line := e.line, fault := .vocabulary e }
  let all := (Tokenizer.ofText words text).collect
  BlockReader.read all.tokens all.ending

/-- The rules of a grammar text, where the end of the input is called as `config` says. -/
def readRules (text : String) (config : Config) : Except Error RuleSet := do
  let blocks ← readBlocks text
  if blocks.isEmpty then throw { line := 0, fault := .noRules }
  return .ofTexts config.eof (desugarBlocks blocks)

/-- Compiles a grammar text. -/
def parse (text : String) (config : Config) : Except Error Grammar := do
  ofRuleSet (← readRules text config)

/-! ## Queries -/

/-- The FIRST set of a rule. -/
def first (g : Grammar) (rule : Nat) : FirstSet := g.firsts.get rule

/-- The FOLLOW set of a rule. -/
def follow (g : Grammar) (rule : Nat) : SortedSet Nat := g.follows[rule]?.getD ∅

/-- The entry of the table for a rule and a terminal. -/
def cell? (g : Grammar) (rule terminal : Nat) : Option Cell :=
  (g.table[rule]?.getD []).find? fun c => c.terminal = terminal

/-- The entries of the table with their rules. -/
def cells (g : Grammar) : List (Nat × Cell) :=
  g.table.zipIdx.flatMap fun (row, rule) => row.map fun c => (rule, c)

/-- The alternative chosen for a rule on a terminal. -/
def choice? (g : Grammar) (rule terminal : Nat) : Option (Alternative Symbol) :=
  (g.cell? rule terminal).map (·.alternative)

/-- The alternative chosen for a rule before a token, both given by name. -/
def choiceFor? (g : Grammar) (rule token : String) : Option (Alternative Symbol) := do
  g.choice? (← g.ruleNumber? rule) (← g.terminalNumber? token)

/-- The names of the terminals in the FIRST set of a rule, in the order of names. -/
def firstNames (g : Grammar) (rule : Nat) : SortedSet String :=
  .ofList ((g.first rule).terminals.toList.map g.terminalName)

/-- The names of the terminals in the FOLLOW set of a rule, in the order of names. -/
def followNames (g : Grammar) (rule : Nat) : SortedSet String :=
  .ofList ((g.follow rule).toList.map g.terminalName)

/-! ## Listing -/

/-- The alternative as it appears in a listing. -/
def Alternative.listing (a : Alternative Symbol) : String := (a.map Symbol.item).text

/-- An entry in the row of a rule as it appears in a listing. -/
def cellText (g : RuleSet) (rule : Nat) (c : Cell) : String :=
  s!"({g.ruleName rule}, {g.terminalName c.terminal}) => {c.alternative.listing}"

/-- The alternatives, an empty line, and the entries of the table. -/
def text (g : Grammar) : String :=
  let alternatives := g.alternatives.map fun a => a.2.listing
  let entries := g.cells.map fun (rule, c) => cellText g.toRuleSet rule c
  Text.unlines (alternatives ++ "" :: entries)

end Grammar

end Predictive
