import Predictive.SortedSet

/-!
# Reachability

Depth-first search over a graph whose vertices are numbers. The answer is the set of vertices
reachable from the seeds in zero or more steps.
-/

namespace Predictive

/-- Visits the vertices of `work` in turn; `seen` holds every vertex ever put on the list. A vertex
enters the list once, so as many rounds as there are vertices suffice. -/
def Reach.search (next : Nat → List Nat) : Nat → List Nat → SortedSet Nat → SortedSet Nat
  | 0, _, seen => seen
  | _ + 1, [], seen => seen
  | rounds + 1, v :: work, seen =>
    let fresh := (SortedSet.ofList (next v)).toList.filter (· ∉ seen)
    Reach.search next rounds (fresh ++ work) (seen.insertAll fresh)

/-- The vertices reachable from `seeds` along `next`, in a graph whose edges lead to vertices below
`bound`. -/
def reach (next : Nat → List Nat) (bound : Nat) (seeds : SortedSet Nat) : SortedSet Nat :=
  Reach.search next (bound + seeds.size) seeds.toList seeds

end Predictive
