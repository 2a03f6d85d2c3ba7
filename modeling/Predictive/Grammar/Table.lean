import Predictive.Grammar.Follow

/-!
# The parse table

An alternative is chosen on each terminal with which it can begin and, if it can be empty, on each
that can come after its rule. The table has a row for each rule, in which no terminal may be taken
by two alternatives.
-/

namespace Predictive.Grammar

/-- An entry in the row of a rule: the alternative chosen on a terminal. -/
structure Cell where
  terminal : Nat
  /-- The number of the alternative. -/
  id : Nat
  alternative : Alternative Symbol
deriving DecidableEq

/-- The row of a rule. -/
abbrev Row := List Cell

namespace Row

/-- The first cell whose terminal is taken by another alternative before it, if there is one, and
the cells before that; `taken` are the cells before the row. -/
def fill (taken : Row) : Row → Row × Option Cell
  | [] => ([], none)
  | c :: row =>
    if taken.any fun d => d.terminal = c.terminal ∧ d.id ≠ c.id then ([], some c)
    else
      let (cells, clash) := fill (c :: taken) row
      (c :: cells, clash)

/-- The cells before the first clash. -/
def filled (row : Row) : Row := (fill [] row).1

/-- The first cell whose terminal is taken by another alternative. -/
def clash? (row : Row) : Option Cell := (fill [] row).2

end Row

namespace RuleSet

/-- The terminals on which an alternative is chosen. -/
def predict (firsts : Firsts) (follow : SortedSet Nat) (a : Alternative Symbol) : SortedSet Nat :=
  let first := firsts.sequence a.sequence
  if first.nullable then first.terminals ∪ follow else first.terminals

/-- The cells that the alternatives of a rule ask for, by alternative and by terminal. -/
def row (firsts : Firsts) (follow : SortedSet Nat) (r : Rule) : Row :=
  r.alternatives.flatMap fun (id, alternative) =>
    (predict firsts follow alternative).toList.map fun terminal => { terminal, id, alternative }

/-- The rows of all rules. -/
def rows (g : RuleSet) (firsts : Firsts) (follows : List (SortedSet Nat)) : List Row :=
  (g.rules.zip follows).map fun (r, follow) => row firsts follow r

/-- The first rule whose row has a clash, with the cell that clashes. -/
def firstClash (rows : List Row) : Option (Nat × Cell) :=
  rows.zipIdx.findSome? fun (row, rule) => row.clash?.map fun c => (rule, c)

/-- The cells with their rules, as far as they are filled before the first clash. -/
def filledCells (rule : Nat) : List Row → List (Nat × Cell)
  | [] => []
  | row :: rows =>
    row.filled.map (fun c => (rule, c)) ++
      if row.clash?.isSome then [] else filledCells (rule + 1) rows

end RuleSet

end Predictive.Grammar
