import Predictive.Automaton.Nfa

/-!
# Deterministic automata

The subset construction. A state of the deterministic automaton stands for a set of states of the
nondeterministic one; the sets are numbered in order of discovery, and a set found last is explored
first. `step` takes the edge of a character, or else the edge for any character.
-/

namespace Predictive

/-- A state of a deterministic automaton. -/
structure Dfa.State where
  /-- The states of the nondeterministic automaton that this state stands for. -/
  members : SortedSet Nat
  /-- The patterns for which one of those states accepts. -/
  owners : SortedSet Owner
  /-- Where each label leads, by ascending label. -/
  edges : List (Label × Nat)
deriving DecidableEq

namespace Dfa.State

/-- The state accepts if it does so for some pattern. -/
def accepting (s : Dfa.State) : Bool := !s.owners.isEmpty

/-- The pattern that wins: the first of the owners. -/
def winner? (s : Dfa.State) : Option Owner := s.owners.first?

/-- The edge taken on a character. -/
def next? (s : Dfa.State) (c : Char) : Option Nat :=
  (s.edges.lookup (.char c)).or (s.edges.lookup .any)

end Dfa.State

/-! ## Subset construction -/

namespace Nfa

/-- The labels other than ε on edges from the states of a set. -/
def labels (n : Nfa) (set : SortedSet Nat) : SortedSet Label :=
  (SortedSet.ofList (set.toList.flatMap fun id => (n.state id).edges.map Prod.fst)).filter
    (· ≠ .epsilon)

/-- The set reached from `set` by reading `l`. -/
def advance (n : Nfa) (set : SortedSet Nat) (l : Label) : SortedSet Nat :=
  n.closure (n.move set l)

/-- Each label on edges from a set with the set it leads to, by ascending label. -/
def successors (n : Nfa) (set : SortedSet Nat) : List (Label × SortedSet Nat) :=
  (n.labels set).toList.filterMap fun l =>
    let next := n.advance set l
    if next.isEmpty then none else some (l, next)

/-- The set in which the deterministic automaton starts. -/
def startSet (n : Nfa) : SortedSet Nat := n.closure (.ofList n.entry?.toList)

/-- Appends the sets that are not known yet, in order and each once. -/
def register (known : List (SortedSet Nat)) (found : List (SortedSet Nat)) :
    List (SortedSet Nat) :=
  found.foldl (fun known set => if set ∈ known then known else known ++ [set]) known

/-- Explores the sets of `work` in turn; `known` lists the sets in order of discovery. Each set is
explored once, so as many rounds as there are sets of states suffice. -/
def discover (n : Nfa) :
    Nat → List (SortedSet Nat) → List (SortedSet Nat) → List (SortedSet Nat)
  | 0, _, known => known
  | _ + 1, [], known => known
  | rounds + 1, set :: work, known =>
    let all := register known ((n.successors set).map Prod.snd)
    discover n rounds ((all.drop known.length).reverse ++ work) all

/-- The sets of states that the deterministic automaton needs, in order of discovery. -/
def subsets (n : Nfa) : List (SortedSet Nat) :=
  n.discover (Nat.pow 2 n.size) [n.startSet] [n.startSet]

/-- The patterns for which some state of a set accepts. -/
def ownersOf (n : Nfa) (set : SortedSet Nat) : SortedSet Owner :=
  .ofList (set.toList.flatMap fun id => (n.state id).owners.toList)

end Nfa

/-- A deterministic automaton. State 0 is the start. -/
structure Dfa where
  states : Array Dfa.State
deriving DecidableEq

namespace Dfa

/-- The deterministic automaton for a nondeterministic one, entered at its entry. -/
def ofNfa (n : Nfa) : Dfa :=
  let sets := n.subsets
  { states := sets.toArray.map fun set =>
      { members := set
        owners := n.ownersOf set
        edges := (n.successors set).map fun e => (e.1, sets.idxOf e.2) } }

/-- The number of states. -/
def size (d : Dfa) : Nat := d.states.size

/-- Where the edge on `c` leads from state `id`. -/
def step (d : Dfa) (id : Nat) (c : Char) : Option Nat := d.states[id]?.bind (·.next? c)

/-- The state reached from `id` by reading `cs`, if every character has an edge. -/
def walk (d : Dfa) (id : Nat) (cs : List Char) : Option Nat := cs.foldlM d.step id

/-- The states passed on the way from `id` along `cs`; the last is `none` where an edge is missing.
-/
def trail (d : Dfa) (id : Nat) : List Char → List (Option Nat)
  | [] => [some id]
  | c :: cs =>
    match d.step id c with
    | some next => some id :: d.trail next cs
    | none => [some id, none]

/-- The patterns for which state `id` accepts. -/
def ownersAt (d : Dfa) (id : Nat) : SortedSet Owner := (d.states[id]?.map (·.owners)).getD ∅

/-- The pattern that wins in state `id`. -/
def winnerAt? (d : Dfa) (id : Nat) : Option Owner := d.states[id]?.bind (·.winner?)

/-- Reading `cs` from the start ends in a state that accepts. -/
def accepts (d : Dfa) (cs : List Char) : Bool :=
  match d.walk 0 cs with
  | some id => !(d.ownersAt id).isEmpty
  | none => false

/-- The line of a state: its number, the pattern that wins in it, and its edges. -/
def line (id : Nat) (s : Dfa.State) : String :=
  let mark := match s.winner? with
    | some owner => s!"! <{owner.name}>"
    | none => ""
  let edges := s.edges.map fun e => s!" [{e.1.text} >> d{e.2}]"
  s!"d{id}{mark}" ++ String.join edges

/-- The listing of an automaton: one line per state. -/
def text (d : Dfa) : String :=
  Text.unlines (d.states.toList.zipIdx.map fun (s, id) => line id s)

end Dfa

end Predictive
