import Predictive.Automaton.Nfa

/-!
# Automata built from automata

The constructions that give each regular operation an automaton with one entry and one exit. States
are numbered so that the parts come first and the states a construction adds come last. A part
without states contributes no edges.
-/

namespace Predictive.Nfa

/-- Two states and an edge between them for each label. -/
def oneOf (labels : List Label) : Nfa where
  states := #[{ edges := labels.map fun l => (l, 1) }, {}]
  graph := [0, 1]

/-- First `a`, then `b`: the exit of `a` leads on to the entry of `b`. -/
def concat (a b : Nfa) : Nfa :=
  match a.exit?, b.entry? with
  | some last, some first => (a.beside b).addEdge last .epsilon (first + a.size)
  | _, _ => a.beside b

/-- Encloses an automaton between a new entry and a new exit, without edges to or from them. -/
def enclose (n : Nfa) : Nfa where
  states := n.states ++ #[{}, {}]
  graph := n.size :: n.graph ++ [n.size + 1]

/-- Leads from `start` through the run `branch` to `stop`, unless the run is empty. -/
def through (n : Nfa) (start stop : Nat) (branch : Run Nat) : Nfa :=
  match branch.head?, branch.getLast? with
  | some first, some last => (n.addEdge start .epsilon first).addEdge last .epsilon stop
  | _, _ => n

/-- Either `a` or `b`, between a new entry and a new exit. -/
def union (a b : Nfa) : Nfa :=
  let both := a.beside b
  let start := both.size
  (both.enclose.through start (start + 1) a.graph).through start (start + 1)
    (b.shift a.size).graph

/-- Repeats an automaton between a new entry and a new exit. With `skip` it may be left out, with
`again` it may be taken more than once. -/
def iterate (skip again : Bool) (n : Nfa) : Nfa :=
  let start := n.size
  let skipped := if skip then n.enclose.addEdge start .epsilon (start + 1) else n.enclose
  let passed := skipped.through start (start + 1) n.graph
  match again, n.exit?, n.entry? with
  | true, some last, some first => passed.addEdge last .epsilon first
  | _, _, _ => passed

end Predictive.Nfa
