import Predictive.Grammar.Basic
import Predictive.Trace.Patterns
import Predictive.Trace.Tokens

/-!
# Records of compiling grammars

A grammar logs the entries of its table as they are made, and then its sets and its size. Before
that come the records of the token definitions and of the tokens of the text.
-/

namespace Predictive.Grammar

/-- The records of reading rule blocks: those of the tokens up to the end or the first error. -/
def BlockReader.records (r : BlockReader) (t : Tokenizer) : List Record :=
  t.nextRecords ++
    match _h : t.next with
    | (.error _, _) => []
    | (.ok token, next) =>
      if _hn : token.name = t.config.eof then []
      else
        match r.feed token with
        | .ok r => r.records next
        | .error _ => []
termination_by t.remaining
decreasing_by exact Tokenizer.remaining_next (by assumption) (by assumption)

/-- The record of an entry made in the table. -/
def cellRecord (g : RuleSet) (rule : Nat) (c : Cell) : Record where
  level := .trace
  message := s!"table {cellText g rule c}"

/-- Names in braces. -/
def braced (names : List String) : String := "\x7b" ++ ", ".intercalate names ++ "\x7d"

/-- The record of the sets of a rule, with terminals by number. -/
def setsRecord (g : Grammar) (rule : Nat) : Record where
  level := .trace
  message :=
    let name := g.ruleName rule
    let first := g.first rule
    let begins := first.terminals.toList.map g.terminalName ++ if first.nullable then ["ε"] else []
    let after := (g.follow rule).toList.map g.terminalName
    s!"FIRST({name}) = {braced begins}, FOLLOW({name}) = {braced after}"

/-- The record of the size of a grammar. -/
def sizeRecord (g : Grammar) : Record where
  level := .debug
  message :=
    let symbols := s!"{g.alternatives.length} alternatives, {g.terminals.length} terminals"
    s!"compiled grammar: {g.rules.length} rules, {symbols}, {g.cells.length} table cells"

/-- The records of `ofRuleSet`. -/
def ruleSetRecords (g : RuleSet) : List Record :=
  match g.firsts with
  | .error _ => []
  | .ok firsts =>
    let follows := (g.follows firsts).map RuleSet.fillFollow
    let cells := RuleSet.filledCells 0 (g.rows firsts follows)
    let filled := cells.map fun (rule, c) => cellRecord g rule c
    match ofRuleSet g with
    | .error _ => filled
    | .ok grammar =>
      filled ++ (List.range g.rules.length).map grammar.setsRecord ++ [grammar.sizeRecord]

/-- The records of reading a grammar text into rule blocks. -/
def readRecords (text : String) : List Record :=
  match Vocabulary.patterns with
  | .error _ => []
  | .ok words => BlockReader.records {} (.ofText words text)

/-- The records of `parse`. -/
def parseRecords (text : String) (config : Config) : List Record :=
  PatternSet.parseRecords Vocabulary.definitions ++ readRecords text ++
    match readRules text config with
    | .ok rules => ruleSetRecords rules
    | .error _ => []

end Predictive.Grammar
