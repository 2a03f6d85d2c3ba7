import Predictive.Automaton.Label
import Predictive.Automaton.Owner
import Predictive.Reach
import Predictive.Run
import Predictive.Text.Lines

/-!
# Nondeterministic automata

An automaton is an arena of states, numbered in order of creation, and the run of those states that
make up the finished automaton: its entry first, its exit last. `closure` follows edges that read
nothing, `move` follows edges that read a label, and `copyInto` places the run of one automaton in
the arena of another.
-/

namespace Predictive

/-- A state of a nondeterministic automaton. -/
structure Nfa.State where
  /-- The edges in order of creation: what an edge reads and where it leads. -/
  edges : List (Label × Nat) := []
  /-- The patterns for which the state accepts. -/
  owners : SortedSet Owner := ∅
deriving DecidableEq, Inhabited

namespace Nfa.State

/-- The state accepts if it does so for some pattern. -/
def accepting (s : Nfa.State) : Bool := !s.owners.isEmpty

/-- The targets of the edges labelled `l`. -/
def targets (s : Nfa.State) (l : Label) : List Nat :=
  s.edges.filterMap fun e => if e.1 = l then some e.2 else none

/-- The labels of the edges. -/
def labels (s : Nfa.State) : SortedSet Label := .ofList (s.edges.map Prod.fst)

/-- The targets of the edges that can be taken on `l`: on a character also those that read any. -/
def destinations (s : Nfa.State) : Label → List Nat
  | .char c => s.targets (.char c) ++ s.targets .any
  | l => s.targets l

/-- Adds an edge, unless the state has it already. -/
def addEdge (s : Nfa.State) (l : Label) (target : Nat) : Nfa.State :=
  if (l, target) ∈ s.edges then s else { s with edges := s.edges ++ [(l, target)] }

/-- The state with every target moved up by `k`. -/
def shift (k : Nat) (s : Nfa.State) : Nfa.State :=
  { s with edges := s.edges.map fun e => (e.1, e.2 + k) }

end Nfa.State

/-- A nondeterministic automaton. -/
structure Nfa where
  /-- The arena: every state ever created. -/
  states : Array Nfa.State := #[]
  /-- The run of the finished automaton, from its entry to its exit. -/
  graph : Run Nat := []
deriving DecidableEq, Inhabited

namespace Nfa

/-- The automaton without states. -/
def empty : Nfa := {}

/-- The number of states in the arena. -/
def size (n : Nfa) : Nat := n.states.size

/-- The state numbered `id`; a number that was never given out stands for a state without edges. -/
def state (n : Nfa) (id : Nat) : Nfa.State := n.states[id]?.getD {}

/-- Where the finished automaton is entered. -/
def entry? (n : Nfa) : Option Nat := n.graph.head?

/-- Where the finished automaton is left. -/
def exit? (n : Nfa) : Option Nat := n.graph.getLast?

/-! ## Building -/

/-- Adds a state without edges; its number is the size of the arena before. -/
def addState (n : Nfa) : Nfa := { n with states := n.states.push {} }

/-- Adds an edge, unless it is there already. -/
def addEdge (n : Nfa) (source : Nat) (l : Label) (target : Nat) : Nfa :=
  { n with states := n.states.modify source (·.addEdge l target) }

/-- Lets a state accept for `owner`. -/
def accept (n : Nfa) (id : Nat) (owner : Owner) : Nfa :=
  { n with states := n.states.modify id fun s => { s with owners := s.owners.insert owner } }

/-- Lets a state no longer accept for anyone. -/
def release (n : Nfa) (id : Nat) : Nfa :=
  { n with states := n.states.modify id fun s => { s with owners := ∅ } }

/-- Lets the exit accept for `owner`. -/
def acceptExit (n : Nfa) (owner : Owner) : Nfa :=
  match n.exit? with
  | some last => n.accept last owner
  | none => n

/-- Lets the exit no longer accept. -/
def releaseExit (n : Nfa) : Nfa :=
  match n.exit? with
  | some last => n.release last
  | none => n

/-! ## Following edges -/

/-- The states reachable from `set` by edges that read nothing, `set` included. -/
def closure (n : Nfa) (set : SortedSet Nat) : SortedSet Nat :=
  reach (fun id => (n.state id).targets .epsilon) n.size set

/-- The states that edges taken on `l` lead to from `set`. -/
def move (n : Nfa) (set : SortedSet Nat) (l : Label) : SortedSet Nat :=
  .ofList (set.toList.flatMap fun id => (n.state id).destinations l)

/-! ## Copying -/

/-- The finished automaton on its own: the states of its run, renumbered in order, with the edges
between them, and accepting for no one. -/
def bare (n : Nfa) : Nfa where
  states := n.graph.toArray.map fun id =>
    { edges := (n.state id).edges.filterMap fun e => (n.graph.idxOf? e.2).map fun i => (e.1, i) }
  graph := List.range n.graph.length

/-- The automaton with every state number moved up by `k`. -/
def shift (k : Nat) (n : Nfa) : Nfa where
  states := n.states.map (·.shift k)
  graph := n.graph.map (· + k)

/-- Two automata in one arena, the states and the run of the second after those of the first. -/
def beside (a b : Nfa) : Nfa where
  states := a.states ++ (b.shift a.size).states
  graph := a.graph ++ (b.shift a.size).graph

/-- Places a copy of the finished automaton `source` in the arena of `n`, whose own run stays as it
is, and gives the run of the copy. -/
def copyInto (n source : Nfa) : Nfa × Run Nat :=
  let both := n.beside source.bare
  ({ both with graph := n.graph }, (source.bare.shift n.size).graph)

/-! ## Listing -/

/-- The edges of a state by label, and in order of creation among equal labels. -/
def edgesInOrder (n : Nfa) (id : Nat) : List (Label × List Nat) :=
  (n.state id).labels.toList.map fun l => (l, (n.state id).targets l)

/-- The line of a state: its number, a mark if it accepts, and its edges. -/
def line (n : Nfa) (id : Nat) : String :=
  let mark := if (n.state id).accepting then "!" else ""
  let edges := (n.edgesInOrder id).flatMap fun e =>
    e.2.map fun target => s!" [{e.1.text} >> n{target}]"
  s!"n{id}{mark}" ++ String.join edges

/-- The listing of an automaton: one line per state of the run. -/
def text (n : Nfa) : String := Text.unlines (n.graph.map n.line)

end Nfa

end Predictive
