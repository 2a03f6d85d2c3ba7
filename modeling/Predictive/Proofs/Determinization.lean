import Predictive.Proofs.SubsetConstruction
import Predictive.Proofs.WellFormed

/-!
# The deterministic automaton stands for the nondeterministic one

The state that a walk of the deterministic automaton is at describes the states that the
nondeterministic one reaches by reading the same text (`Dfa.State.Describes`), and the walk goes on
for as long as there are such states.
-/

namespace Predictive

/-- The order of owners: by position, and by name among equal positions. -/
def Owner.Le (a b : Owner) : Prop :=
  a.position < b.position ∨ a.position = b.position ∧ a.name ≤ b.name

theorem compare_string_ne_gt_iff {a b : String} : compare a b ≠ .gt ↔ a ≤ b := by
  show compareOfLessAndEq a b ≠ .gt ↔ a ≤ b
  rw [compareOfLessAndEq]
  split
  · next h => simpa using String.not_lt.1 (String.lt_asymm h)
  · next h =>
    split
    · next h' => simp [h']
    · next h' =>
      simp only [ne_eq, not_true_eq_false, false_iff]
      exact fun hle => h' (String.le_antisymm hle (String.not_lt.1 h))

theorem Owner.compare_ne_gt_iff {a b : Owner} : compare a b ≠ .gt ↔ a.Le b := by
  rw [Owner.Le, ← compare_string_ne_gt_iff]
  show (compare a.position b.position).then (compare a.name b.name) ≠ .gt ↔ _
  rcases h : compare a.position b.position with _ | _ | _
  · simp [Nat.compare_eq_lt.1 h]
  · simp [Nat.compare_eq_eq.1 h]
  · have hgt := Nat.compare_eq_gt.1 h
    simp only [Ordering.then, ne_eq, not_true_eq_false, false_iff]
    omega

namespace Dfa

/-- The state stands for what `n` reaches by reading `cs`: its members are the states reached, its
owners those for whom one of them accepts, and the winner is the least of these. -/
structure State.Describes (s : Dfa.State) (n : Nfa) (cs : List Char) : Prop where
  members : ∀ q, q ∈ s.members ↔ n.Reaches cs q
  owners : ∀ o, o ∈ s.owners ↔
    ∃ q, n.Reaches cs q ∧ (n.state q).accepting = true ∧ o ∈ (n.state q).owners
  winner : ∀ o, s.winner? = some o ↔ o ∈ s.owners ∧ ∀ o' ∈ s.owners, o.Le o'

variable {n : Nfa}

theorem accepting_iff {s : Nfa.State} : s.accepting = true ↔ ∃ o, o ∈ s.owners := by
  rw [← SortedSet.isEmpty_eq_false_iff, Nfa.State.accepting, Bool.not_eq_true']

theorem mem_ownersOf {set : SortedSet Nat} {o : Owner} :
    o ∈ n.ownersOf set ↔ ∃ q ∈ set, (n.state q).accepting = true ∧ o ∈ (n.state q).owners := by
  rw [Nfa.ownersOf, SortedSet.mem_ofList, List.mem_flatMap]
  refine exists_congr fun q => and_congr_right fun _ => ?_
  exact ⟨fun h => ⟨accepting_iff.2 ⟨o, h⟩, h⟩, fun h => h.2⟩

/-- The state at the end of a walk stands for what is reached by the text. -/
theorem describes_of_walk (hn : n.WellFormed) {cs : List Char} {id : Nat}
    (h : (ofNfa n).walk 0 cs = some id) :
    ∃ s, (ofNfa n).states[id]? = some s ∧ s.Describes n cs := by
  obtain ⟨-, hset⟩ := (walk_ofNfa_eq_some_iff hn.bounded).1 h
  refine ⟨_, by rw [getElem?_ofNfa, hset, Option.map_some], ?_, fun o => ?_, fun o => ?_⟩
  · exact fun q => Nfa.mem_after_iff hn.bounded
  · simp only [mem_ownersOf, Nfa.mem_after_iff hn.bounded]
  · rw [Dfa.State.winner?, SortedSet.first?_eq_some_iff]
    simp only [Owner.compare_ne_gt_iff]

theorem after_isEmpty_iff (hn : n.WellFormed) {cs : List Char} :
    (n.after cs).isEmpty = true ↔ ∀ q, ¬ n.Reaches cs q := by
  rw [SortedSet.isEmpty_iff, SortedSet.eq_empty_iff]
  simp only [Nfa.mem_after_iff hn.bounded]

/-- A walk goes on for as long as a state is reached. -/
theorem isSome_walk_ofNfa_iff (hn : n.WellFormed) {cs : List Char} :
    ((ofNfa n).walk 0 cs).isSome ↔ cs = [] ∨ ∃ q, n.Reaches cs q := by
  simp only [Option.isSome_iff_exists, walk_ofNfa_eq_some_iff hn.bounded, exists_and_left,
    ← Nfa.mem_after_iff hn.bounded, ← SortedSet.isEmpty_eq_false_iff]
  exact and_iff_left_of_imp fun h => ⟨_, List.getElem?_idxOf (after_mem_subsets hn.bounded h)⟩

/-- A walk stops at the first character after which no state is reached. -/
theorem step_eq_none_iff (hn : n.WellFormed) {cs : List Char} {id : Nat}
    (h : (ofNfa n).walk 0 cs = some id) (c : Char) :
    (ofNfa n).step id c = none ↔ ∀ q, ¬ n.Reaches (cs ++ [c]) q := by
  obtain ⟨-, hset⟩ := (walk_ofNfa_eq_some_iff hn.bounded).1 h
  rw [step_ofNfa hn.bounded hset, ← after_isEmpty_iff hn, Nfa.after_concat, target?]
  cases (n.advance (n.after cs) (.char c)).isEmpty <;> simp

/-- A walk that stops does so at some character of the text. -/
theorem walk_eq_none_iff {d : Dfa} {cs : List Char} :
    d.walk 0 cs = none ↔
      ∃ before c after id, cs = before ++ c :: after ∧ d.walk 0 before = some id ∧
        d.step id c = none := by
  induction cs using List.reverseRecOn with
  | nil =>
    constructor
    · exact fun h => nomatch h
    · rintro ⟨before, c, after, id, h, -⟩
      simp at h
  | append_singleton cs c ih =>
    rw [walk_concat, Option.bind_eq_none_iff]
    constructor
    · intro h
      cases hcs : d.walk 0 cs with
      | some id => exact ⟨cs, c, [], id, rfl, hcs, h id hcs⟩
      | none =>
        obtain ⟨before, c', after, id, rfl, hwalk, hstep⟩ := ih.1 hcs
        exact ⟨before, c', after ++ [c], id, by simp, hwalk, hstep⟩
    · rintro ⟨before, c', after, id, heq, hwalk, hstep⟩ id' hid'
      rcases List.eq_nil_or_concat after with rfl | ⟨after, c'', rfl⟩
      · obtain ⟨rfl, hc⟩ := List.append_inj' heq rfl
        obtain rfl := List.singleton_inj.1 hc
        rw [hwalk] at hid'
        exact Option.some.inj hid' ▸ hstep
      · rw [List.concat_eq_append, ← List.cons_append, ← List.append_assoc] at heq
        obtain ⟨rfl, -⟩ := List.append_inj' heq rfl
        rw [ih.2 ⟨before, c', after, id, rfl, hwalk, hstep⟩] at hid'
        cases hid'

theorem accepts_ofNfa_iff (hn : n.WellFormed) {cs : List Char} :
    (ofNfa n).accepts cs = true ↔ ∃ q, n.Reaches cs q ∧ (n.state q).accepting = true := by
  rw [accepts]
  cases hwalk : (ofNfa n).walk 0 cs with
  | none =>
    simp only [Bool.false_eq_true, false_iff, not_exists, not_and]
    intro q hq
    exfalso
    have hne : (n.after cs).isEmpty = false :=
      SortedSet.isEmpty_eq_false_iff.2 ⟨q, (Nfa.mem_after_iff hn.bounded).2 hq⟩
    have hsome := (walk_ofNfa_eq_some_iff hn.bounded).2
      ⟨.inr hne, List.getElem?_idxOf (after_mem_subsets hn.bounded (.inr hne))⟩
    rw [hwalk] at hsome
    cases hsome
  | some id =>
    obtain ⟨s, hs, hdescribes⟩ := describes_of_walk hn hwalk
    have howners : (ofNfa n).ownersAt id = s.owners := by rw [ownersAt, hs]; rfl
    show (!((ofNfa n).ownersAt id).isEmpty) = true ↔ _
    rw [howners, Bool.not_eq_true', SortedSet.isEmpty_eq_false_iff]
    simp only [hdescribes.owners]
    constructor
    · rintro ⟨o, q, hq, hacc, -⟩
      exact ⟨q, hq, hacc⟩
    · rintro ⟨q, hq, hacc⟩
      obtain ⟨o, ho⟩ := accepting_iff.1 hacc
      exact ⟨o, q, hq, hacc, ho⟩

/-- For every automaton that can be built and every text: the walk stops exactly at the first
character after which no state is reached; where it does not stop, the state it is at stands for the
states reached; and the text is accepted exactly if one of them accepts. -/
theorem ofNfa_simulates (hn : n.Built) (cs : List Char) :
    ((ofNfa n).walk 0 cs = none ↔
      ∃ before c after, cs = before ++ c :: after ∧ ((ofNfa n).walk 0 before).isSome ∧
        ∀ q, ¬ n.Reaches (before ++ [c]) q) ∧
    (∀ id, (ofNfa n).walk 0 cs = some id →
      (∃ s, (ofNfa n).states[id]? = some s ∧ s.Describes n cs) ∧
      ∀ c, (ofNfa n).step id c = none ↔ ∀ q, ¬ n.Reaches (cs ++ [c]) q) ∧
    ((ofNfa n).accepts cs = true ↔ ∃ q, n.Reaches cs q ∧ (n.state q).accepting = true) := by
  have hwf := hn.wellFormed
  refine ⟨?_, fun id hid => ⟨describes_of_walk hwf hid, step_eq_none_iff hwf hid⟩,
    accepts_ofNfa_iff hwf⟩
  rw [walk_eq_none_iff]
  constructor
  · rintro ⟨before, c, after, id, rfl, hwalk, hstep⟩
    exact ⟨before, c, after, rfl, by rw [hwalk]; rfl, (step_eq_none_iff hwf hwalk c).1 hstep⟩
  · rintro ⟨before, c, after, rfl, hsome, hnone⟩
    obtain ⟨id, hwalk⟩ := Option.isSome_iff_exists.1 hsome
    exact ⟨before, c, after, id, rfl, hwalk, (step_eq_none_iff hwf hwalk c).2 hnone⟩

/-- Two states accept after one character: the edge for `x` and the edge for any character are both
taken on it. A second character ends the walk. -/
theorem ofNfa_simulates_overlapping_edges :
    let plain := (Regex.alt (.oneOf [.char 'x']) (.oneOf [.any])).automaton fun _ => none
    let n := (plain.accept 1 ⟨0, "x"⟩).accept 3 ⟨1, "any"⟩
    n.Built ∧ (∃ q, n.Reaches ['x'] q ∧ (n.state q).accepting = true) ∧
      ∃ before c after, ['x', 'y'] = before ++ c :: after ∧ ((ofNfa n).walk 0 before).isSome ∧
        ∀ q, ¬ n.Reaches (before ++ [c]) q := by
  intro plain n
  have hplain : Regex.compile (fun _ => none) "x|." = .ok plain := by decide +kernel
  have hn : n.Built :=
    ((Nfa.Built.compile (fun _ _ h => absurd h (by simp)) hplain).accept (by decide +kernel)
      _).accept (by decide +kernel) _
  refine ⟨hn, (ofNfa_simulates hn ['x']).2.2.1 ?_, (ofNfa_simulates hn ['x', 'y']).1.1 ?_⟩
  · decide +kernel
  · decide +kernel

end Dfa

end Predictive
