import Predictive.Grammar.RuleSet
import Predictive.SortedSet

/-!
# FIRST sets

The terminals with which a derived string can begin, and whether it can be empty. Rules are visited
depth first: a rule that is met again while it is being visited derives a string that begins with
itself.
-/

namespace Predictive.Grammar

/-- The terminals with which the strings derived from a rule or a run of symbols can begin. -/
structure FirstSet where
  terminals : SortedSet Nat := ∅
  /-- The empty string is derived. -/
  nullable : Bool := false
deriving DecidableEq, Inhabited

/-- The FIRST sets of some rules, by number. -/
abbrev Firsts := List (Nat × FirstSet)

namespace Firsts

/-- The FIRST set of a rule; that of a rule which is not there is empty. -/
def get (firsts : Firsts) (rule : Nat) : FirstSet := (firsts.lookup rule).getD {}

/-- The FIRST set of a run of symbols. -/
def sequence (firsts : Firsts) : List Symbol → FirstSet
  | [] => { nullable := true }
  | .terminal _ t :: _ => { terminals := .singleton t }
  | .empty :: rest => firsts.sequence rest
  | .rule _ r :: rest =>
    let first := firsts.get r
    if first.nullable then
      let after := firsts.sequence rest
      { after with terminals := first.terminals ∪ after.terminals }
    else first

/-- The FIRST set of a rule with the given alternatives. -/
def union (firsts : Firsts) (alternatives : List (Nat × Alternative Symbol)) : FirstSet :=
  let parts := alternatives.map fun a => firsts.sequence a.2.sequence
  { terminals := parts.foldl (fun all first => all ∪ first.terminals) ∅
    nullable := parts.any (·.nullable) }

end Firsts

namespace RuleSet

/-- Visits the rules with which a run of symbols can begin, as far as those before them can be
empty. -/
def visitSequence (visit : Firsts → Nat → Except Nat Firsts) (firsts : Firsts) :
    List Symbol → Except Nat Firsts
  | [] => .ok firsts
  | .terminal _ _ :: _ => .ok firsts
  | .empty :: rest => visitSequence visit firsts rest
  | .rule _ r :: rest => do
    let firsts ← visit firsts r
    if (firsts.get r).nullable then visitSequence visit firsts rest else return firsts

/-- Visits a rule, where `path` leads to it: the FIRST sets known then, or the number of a rule that
is met again on its own path. A path without repetition is no longer than the list of rules, which
bounds the depth. -/
def visit (g : RuleSet) : Nat → List Nat → Firsts → Nat → Except Nat Firsts
  | depth, path, firsts, rule =>
    if (firsts.lookup rule).isSome then .ok firsts
    else if rule ∈ path then .error rule
    else
      match depth with
      | 0 => .error rule
      | depth + 1 => do
        let alternatives := g.alternativesOf rule
        let firsts ← alternatives.foldlM
          (fun firsts a => visitSequence (g.visit depth (rule :: path)) firsts a.2.sequence) firsts
        return (rule, firsts.union alternatives) :: firsts

/-- The FIRST sets of all rules, or the number of a rule that derives a string beginning with
itself. -/
def firsts (g : RuleSet) : Except Nat Firsts :=
  (List.range g.rules.length).foldlM (g.visit g.rules.length []) []

end RuleSet

end Predictive.Grammar
