import Predictive.Grammar.Alternative
import Predictive.Grammar.Block

/-!
# Desugaring of blocks

A right-hand side in extended BNF becomes plain alternatives. Each group, `*` and `?` gets a
sub-rule of its own, named after the rule of the block and a number that is used once in a grammar.
The segments between `|` become alternatives of the rule whose right-hand side, or group, they stand
in.
-/

namespace Predictive.Grammar

/-- The alternatives that blocks have given so far. -/
structure Desugaring where
  /-- The number of the next sub-rule. -/
  nextNumber : Nat := 1
  /-- The alternatives in the order in which they were completed. -/
  alternatives : List (Alternative Item) := []
deriving DecidableEq

namespace Desugaring

/-- Takes the next number for a sub-rule of the rule called `name`. -/
def freshName (e : Desugaring) (name : String) : String × Desugaring :=
  (s!"{name}\x7b{e.nextNumber}\x7d", { e with nextNumber := e.nextNumber + 1 })

/-- Completes an alternative of the rule `owner`, which is the block's own or one of its sub-rules.
-/
def complete (e : Desugaring) (b : Block) (owner : String) (sequence : List Item) : Desugaring :=
  let alternative : Alternative Item :=
    { name := owner
      sequence
      subrule := owner ≠ b.name
      multiChild := b.multiChild && owner == b.name
      line := b.line }
  { e with alternatives := e.alternatives ++ [alternative] }

end Desugaring

/-- The symbols that an expression of block `b` stands for, within the right-hand side or group of
the rule `owner`. Alternatives are completed on the way; the last segment is left to the caller. -/
def Expr.desugar (b : Block) (owner : String) (e : Desugaring) : Expr → List Item × Desugaring
  | name n => ([.name n], e)
  | empty =>
    let (_, e) := e.freshName b.name
    ([.empty], e)
  | group a =>
    let (sub, e) := e.freshName b.name
    let (sequence, e) := a.desugar b sub e
    ([.name sub], e.complete b sub sequence)
  | concat l r =>
    let (left, e) := l.desugar b owner e
    let (right, e) := r.desugar b owner e
    (left ++ right, e)
  | alt l r =>
    let (left, e) := l.desugar b owner e
    let (right, e) := r.desugar b owner e
    (right, e.complete b owner left)
  | star a =>
    let (sequence, e) := a.desugar b owner e
    let (sub, e) := e.freshName b.name
    ([.name sub], (e.complete b sub (sequence ++ [.name sub])).complete b sub [])
  | optional a =>
    let (sequence, e) := a.desugar b owner e
    let (sub, e) := e.freshName b.name
    ([.name sub], (e.complete b sub sequence).complete b sub [])

/-- The alternatives of a block, whose sub-rules are numbered from `number`. -/
def Block.desugar (number : Nat) (b : Block) : Desugaring :=
  let (sequence, e) := b.body.desugar b b.name { nextNumber := number }
  e.complete b b.name sequence

/-- The rules of a grammar before names are known: the name of each rule with its alternatives. -/
abbrev RuleTexts := List (String × List (Alternative Item))

/-- The alternatives of each block, with the name of the block. Sub-rules are numbered from `number`
throughout. -/
def desugarEach (number : Nat) : List Block → RuleTexts
  | [] => []
  | b :: blocks =>
    let e := b.desugar number
    (b.name, e.alternatives) :: desugarEach e.nextNumber blocks

/-- The rules that blocks stand for, in order of first appearance, where the name of a block comes
before those of its sub-rules. A rule with several blocks has the alternatives of all. -/
def desugarBlocks (blocks : List Block) : RuleTexts :=
  let parts := desugarEach 1 blocks
  let names := (parts.flatMap fun part => part.1 :: part.2.map (·.name)).eraseDups
  let all := parts.flatMap (·.2)
  names.map fun name => (name, all.filter (·.name = name))

end Predictive.Grammar
