import Predictive.Proofs.SortedSet
import Predictive.Reach
import Mathlib.Logic.Relation

/-!
# The search finds what is reachable

`mem_reach_iff`: in a graph whose edges lead to vertices below the bound, the search answers exactly
the vertices that a path leads to from a seed. A round takes one vertex off the list, and a vertex
enters the list once, so the rounds last until the list is empty (`Reach.search_closed`).
-/

namespace Predictive

open Relation

/-- The vertex `b` is a successor of `a`. -/
def Reach.Edge (next : Nat → List Nat) (a b : Nat) : Prop := b ∈ next a

namespace Reach

/-- The vertices below `bound` that were never on the list. -/
def unseen (bound : Nat) (seen : SortedSet Nat) : Finset Nat :=
  (Finset.range bound).filter (· ∉ seen)

theorem card_unseen_le (bound : Nat) (seen : SortedSet Nat) : (unseen bound seen).card ≤ bound :=
  (Finset.card_filter_le _ _).trans (Finset.card_range bound).le

/-- Vertices that enter the list leave the unseen ones. -/
theorem card_unseen_insertAll {bound : Nat} {seen : SortedSet Nat} {fresh : List Nat}
    (hnodup : fresh.Nodup) (hfresh : ∀ v ∈ fresh, v < bound ∧ v ∉ seen) :
    (unseen bound (seen.insertAll fresh)).card + fresh.length = (unseen bound seen).card := by
  have hdisjoint : Disjoint (unseen bound (seen.insertAll fresh)) fresh.toFinset := by
    rw [Finset.disjoint_left]
    intro v hv hmem
    simp only [unseen, Finset.mem_filter, SortedSet.mem_insertAll, not_or] at hv
    exact hv.2.2 (List.mem_toFinset.1 hmem)
  have hunion : unseen bound (seen.insertAll fresh) ∪ fresh.toFinset = unseen bound seen := by
    ext v
    simp only [unseen, Finset.mem_union, Finset.mem_filter, Finset.mem_range, List.mem_toFinset,
      SortedSet.mem_insertAll]
    constructor
    · rintro (⟨hlt, hv⟩ | hv)
      · exact ⟨hlt, fun h => hv (.inl h)⟩
      · exact hfresh v hv
    · rintro ⟨hlt, hv⟩
      by_cases hf : v ∈ fresh
      · exact .inr hf
      · exact .inl ⟨hlt, fun h => h.elim hv hf⟩
  rw [← hunion, Finset.card_union_of_disjoint hdisjoint, List.toFinset_card_of_nodup hnodup]

/-- The successors of a vertex that enter the list when it is visited. -/
def fresh (next : Nat → List Nat) (v : Nat) (seen : SortedSet Nat) : List Nat :=
  (SortedSet.ofList (next v)).toList.filter (· ∉ seen)

theorem mem_fresh {next : Nat → List Nat} {v w : Nat} {seen : SortedSet Nat} :
    w ∈ fresh next v seen ↔ w ∈ next v ∧ w ∉ seen := by
  simp only [fresh, List.mem_filter, ← SortedSet.mem_def, SortedSet.mem_ofList, decide_eq_true_eq]

theorem search_cons (next : Nat → List Nat) (rounds v : Nat) (work : List Nat)
    (seen : SortedSet Nat) :
    search next (rounds + 1) (v :: work) seen =
      search next rounds (fresh next v seen ++ work) (seen.insertAll (fresh next v seen)) := rfl

/-- Only vertices to which a path leads are ever seen. -/
theorem path_of_mem_search {next : Nat → List Nat} {seeds : Nat → Prop} {rounds : Nat}
    {work : List Nat} {seen : SortedSet Nat}
    (hwork : ∀ v ∈ work, v ∈ seen)
    (hseen : ∀ v ∈ seen, ∃ s, seeds s ∧ ReflTransGen (Edge next) s v) {v : Nat}
    (h : v ∈ search next rounds work seen) : ∃ s, seeds s ∧ ReflTransGen (Edge next) s v := by
  induction rounds generalizing work seen with
  | zero => exact hseen v h
  | succ rounds ih =>
    cases work with
    | nil => exact hseen v h
    | cons u work =>
      rw [search_cons] at h
      refine ih (fun w hw => ?_) (fun w hw => ?_) h
      · rcases List.mem_append.1 hw with hw | hw
        · exact SortedSet.mem_insertAll.2 (.inr hw)
        · exact SortedSet.mem_insertAll.2 (.inl (hwork w (List.mem_cons_of_mem _ hw)))
      · rcases SortedSet.mem_insertAll.1 hw with hw | hw
        · exact hseen w hw
        · obtain ⟨s, hs, hpath⟩ := hseen u (hwork u List.mem_cons_self)
          exact ⟨s, hs, hpath.tail (mem_fresh.1 hw).1⟩

/-- With a round for each vertex on the list or still unseen, the answer holds the seen vertices and
is closed under edges. The vertices off the list have all their successors seen. -/
theorem search_closed {next : Nat → List Nat} {bound : Nat}
    (hbound : ∀ v, ∀ w ∈ next v, w < bound) {rounds : Nat} {work : List Nat}
    {seen : SortedSet Nat} (hwork : ∀ v ∈ work, v ∈ seen)
    (hdone : ∀ v ∈ seen, v ∉ work → ∀ w ∈ next v, w ∈ seen)
    (hrounds : work.length + (unseen bound seen).card ≤ rounds) :
    (∀ v ∈ seen, v ∈ search next rounds work seen) ∧
      ∀ v ∈ search next rounds work seen, ∀ w ∈ next v, w ∈ search next rounds work seen := by
  induction rounds generalizing work seen with
  | zero =>
    obtain rfl : work = [] := List.length_eq_zero_iff.1 (by omega)
    exact ⟨fun v hv => hv, fun v hv => hdone v hv List.not_mem_nil⟩
  | succ rounds ih =>
    cases work with
    | nil => exact ⟨fun v hv => hv, fun v hv => hdone v hv List.not_mem_nil⟩
    | cons u work =>
      rw [search_cons]
      have hcard : (unseen bound (seen.insertAll (fresh next u seen))).card +
          (fresh next u seen).length = (unseen bound seen).card := by
        refine card_unseen_insertAll ((SortedSet.nodup_toList _).filter _) fun w hw => ?_
        exact ⟨hbound u w (mem_fresh.1 hw).1, (mem_fresh.1 hw).2⟩
      have hmem : ∀ v ∈ fresh next u seen ++ work, v ∈ seen.insertAll (fresh next u seen) := by
        intro v hv
        rcases List.mem_append.1 hv with hv | hv
        · exact SortedSet.mem_insertAll.2 (.inr hv)
        · exact SortedSet.mem_insertAll.2 (.inl (hwork v (List.mem_cons_of_mem _ hv)))
      have hnext : ∀ v ∈ seen.insertAll (fresh next u seen), v ∉ fresh next u seen ++ work →
          ∀ w ∈ next v, w ∈ seen.insertAll (fresh next u seen) := by
        intro v hv hnot w hw
        rw [List.mem_append, not_or] at hnot
        rw [SortedSet.mem_insertAll]
        by_cases hvu : v = u
        · subst hvu
          by_cases hws : w ∈ seen
          · exact .inl hws
          · exact .inr (mem_fresh.2 ⟨hw, hws⟩)
        · have hv' : v ∈ seen := (SortedSet.mem_insertAll.1 hv).resolve_right hnot.1
          refine .inl (hdone v hv' (fun hcons => ?_) w hw)
          exact (List.mem_cons.1 hcons).elim hvu hnot.2
      obtain ⟨hkeep, hclosed⟩ := ih hmem hnext (by
        rw [List.length_cons] at hrounds
        rw [List.length_append]
        omega)
      exact ⟨fun v hv => hkeep v (SortedSet.mem_insertAll.2 (.inl hv)), hclosed⟩

end Reach

/-- The answer to a search is the set of vertices that a path leads to from a seed. -/
theorem mem_reach_iff {next : Nat → List Nat} {bound : Nat}
    (hbound : ∀ v, ∀ w ∈ next v, w < bound) {seeds : SortedSet Nat} {v : Nat} :
    v ∈ reach next bound seeds ↔ ∃ s ∈ seeds, ReflTransGen (Reach.Edge next) s v := by
  constructor
  · intro h
    exact Reach.path_of_mem_search (fun v hv => hv) (fun v hv => ⟨v, hv, .refl⟩) h
  · rintro ⟨s, hs, hpath⟩
    have hcard := Reach.card_unseen_le bound seeds
    obtain ⟨hkeep, hclosed⟩ : (∀ v ∈ seeds, v ∈ reach next bound seeds) ∧
        ∀ v ∈ reach next bound seeds, ∀ w ∈ next v, w ∈ reach next bound seeds :=
      Reach.search_closed hbound (fun v hv => hv) (fun v hv hnot => absurd hv hnot)
        (by rw [SortedSet.size]; omega)
    induction hpath with
    | refl => exact hkeep s hs
    | tail _ hedge ih => exact hclosed _ ih _ hedge

end Predictive
