import Predictive.Grammar.First
import Predictive.Reach

/-!
# FOLLOW sets

The terminals that can come after a rule. Where a rule occurs in an alternative, what the symbols
after it begin with comes after it; if those can be empty, so does whatever comes after the rule of
the alternative. So the FOLLOW set of a rule collects what comes directly after each rule from which
it inherits in zero or more steps.
-/

namespace Predictive.Grammar

/-- A place where a rule occurs in an alternative. -/
structure Occurrence where
  /-- The rule of the alternative. -/
  owner : Nat
  /-- The rule that occurs. -/
  rule : Nat
  /-- The symbols after it. -/
  after : List Symbol
deriving DecidableEq

/-- The rules that occur in a run of symbols, each with the symbols after it. -/
def occurrencesIn (owner : Nat) : List Symbol → List Occurrence
  | [] => []
  | .rule _ rule :: after => { owner, rule, after } :: occurrencesIn owner after
  | _ :: rest => occurrencesIn owner rest

namespace RuleSet

/-- Every place where a rule occurs. -/
def occurrences (g : RuleSet) : List Occurrence :=
  g.rules.zipIdx.flatMap fun (rule, owner) =>
    rule.alternatives.flatMap fun a => occurrencesIn owner a.2.sequence

/-- What comes directly after a rule: the end of the input after the start, and what the symbols
after one of its occurrences begin with. -/
def directFollow (firsts : Firsts) (places : List Occurrence) (rule : Nat) : SortedSet Nat :=
  let here := places.filter (·.rule = rule)
  let begins := here.foldl (fun all o => all ∪ (firsts.sequence o.after).terminals) ∅
  if rule = 0 then begins.insert 0 else begins

/-- The rules from which a rule inherits: those with an alternative in which only what can be empty
comes after it. -/
def inheritsFrom (firsts : Firsts) (places : List Occurrence) (rule : Nat) : List Nat :=
  (places.filter fun o => o.rule = rule ∧ (firsts.sequence o.after).nullable).map (·.owner)

/-- The terminals that can come after a rule. -/
def followOf (g : RuleSet) (firsts : Firsts) (places : List Occurrence) (rule : Nat) :
    SortedSet Nat :=
  let sources := reach (inheritsFrom firsts places) g.rules.length (.singleton rule)
  sources.toList.foldl (fun all source => all ∪ directFollow firsts places source) ∅

/-- The FOLLOW sets of all rules. -/
def follows (g : RuleSet) (firsts : Firsts) : List (SortedSet Nat) :=
  let places := g.occurrences
  (List.range g.rules.length).map (g.followOf firsts places)

/-- FOLLOW sets for the table: a rule that nothing follows stands before the end of the input. -/
def fillFollow (follow : SortedSet Nat) : SortedSet Nat :=
  if follow.isEmpty then .singleton 0 else follow

end RuleSet

end Predictive.Grammar
