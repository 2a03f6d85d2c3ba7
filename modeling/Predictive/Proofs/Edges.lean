import Predictive.Automaton.Thompson

/-!
# Edges of automata

The edges of an automaton as a relation (`Nfa.Edge`), and what each operation does to them, to the
owners of a state and to the run: one lemma per operation and view. Later proofs use the views only.
An automaton is `WellFormed` if its edges lead to states of the arena and its run lists some of them.
-/

namespace Predictive.Nfa

/-- There is an edge labelled `l` from `q` to `r`. -/
def Edge (n : Nfa) (q : Nat) (l : Label) (r : Nat) : Prop := (l, r) ∈ (n.state q).edges

instance (n : Nfa) (q : Nat) (l : Label) (r : Nat) : Decidable (n.Edge q l r) :=
  inferInstanceAs (Decidable (_ ∈ _))

/-- Edges lead to states of the arena, and so does the entry: no state is asked for that was never
created. -/
structure Bounded (n : Nfa) : Prop where
  target_lt : ∀ {q l r}, n.Edge q l r → r < n.size
  entry_lt : ∀ {q}, n.entry? = some q → q < n.size

/-- Edges lead to states of the arena, and the run lists such states, each once. -/
structure WellFormed (n : Nfa) : Prop where
  target_lt : ∀ {q l r}, n.Edge q l r → r < n.size
  graph_lt : ∀ {q}, q ∈ n.graph → q < n.size
  nodup : n.graph.Nodup

theorem entry_eq_head? (n : Nfa) : n.entry? = n.graph.head? := rfl

theorem exit_eq_getLast? (n : Nfa) : n.exit? = n.graph.getLast? := rfl

theorem state_of_size_le {n : Nfa} {q : Nat} (h : n.size ≤ q) : n.state q = {} := by
  rw [state, Array.getElem?_eq_none h, Option.getD_none]

theorem Edge.source_lt {n : Nfa} {q r : Nat} {l : Label} (h : n.Edge q l r) : q < n.size := by
  refine Nat.lt_of_not_le fun hq => ?_
  rw [Edge, state_of_size_le hq] at h
  exact absurd h List.not_mem_nil

theorem owned_lt {n : Nfa} {q : Nat} {o : Owner} (h : o ∈ (n.state q).owners) : q < n.size := by
  refine Nat.lt_of_not_le fun hq => ?_
  rw [state_of_size_le hq] at h
  exact SortedSet.not_mem_empty o h

theorem WellFormed.entry_lt {n : Nfa} (h : n.WellFormed) {q : Nat} (hq : n.entry? = some q) :
    q < n.size :=
  h.graph_lt (List.mem_of_mem_head? hq)

theorem WellFormed.bounded {n : Nfa} (h : n.WellFormed) : n.Bounded :=
  ⟨h.target_lt, h.entry_lt⟩

theorem bounded_iff {n : Nfa} :
    n.Bounded ↔ (∀ s ∈ n.states.toList, ∀ e ∈ s.edges, e.2 < n.size) ∧
      ∀ q ∈ n.entry?, q < n.size := by
  refine ⟨fun h => ⟨fun s hs e he => ?_, fun q hq => h.entry_lt hq⟩, fun ⟨htarget, hentry⟩ =>
    ⟨fun {q l r} hedge => ?_, fun hq => hentry _ hq⟩⟩
  · obtain ⟨q, hq⟩ := List.mem_iff_getElem?.1 hs
    have hedge : n.Edge q e.1 e.2 := by rwa [Edge, state, ← Array.getElem?_toList, hq]
    exact h.target_lt hedge
  · refine htarget (n.state q) ?_ (l, r) hedge
    rw [state, Array.getElem?_eq_getElem hedge.source_lt, Option.getD_some]
    exact Array.mem_toList_iff.2 (Array.getElem_mem _)

instance (n : Nfa) : Decidable n.Bounded := decidable_of_iff _ bounded_iff.symm

theorem mem_targets {s : Nfa.State} {l : Label} {r : Nat} : r ∈ s.targets l ↔ (l, r) ∈ s.edges := by
  simp only [State.targets, List.mem_filterMap]
  constructor
  · rintro ⟨⟨l', r'⟩, hmem, heq⟩
    split at heq
    · next hl =>
      obtain rfl : l' = l := hl
      obtain rfl : r' = r := Option.some.inj heq
      exact hmem
    · cases heq
  · intro h
    exact ⟨(l, r), h, if_pos rfl⟩

/-! ## Adding states, edges and owners -/

@[simp] theorem state_empty (q : Nat) : empty.state q = {} := state_of_size_le (Nat.zero_le q)

@[simp] theorem size_addState (n : Nfa) : n.addState.size = n.size + 1 := Array.size_push ..

@[simp] theorem graph_addState (n : Nfa) : n.addState.graph = n.graph := rfl

@[simp] theorem state_addState (n : Nfa) (q : Nat) : n.addState.state q = n.state q := by
  by_cases h : q = n.states.size
  · subst h
    simp [state, addState]
  · simp [state, addState, Array.getElem?_push, h]

@[simp] theorem size_addEdge (n : Nfa) (s : Nat) (l : Label) (t : Nat) :
    (n.addEdge s l t).size = n.size := Array.size_modify

@[simp] theorem graph_addEdge (n : Nfa) (s : Nat) (l : Label) (t : Nat) :
    (n.addEdge s l t).graph = n.graph := rfl

theorem State.mem_edges_addEdge {s : Nfa.State} {l : Label} {t : Nat} {e : Label × Nat} :
    e ∈ (s.addEdge l t).edges ↔ e ∈ s.edges ∨ e = (l, t) := by
  rw [State.addEdge]
  split
  · next h =>
    constructor
    · exact .inl
    · rintro (h' | rfl)
      · exact h'
      · exact h
  · simp

theorem state_addEdge (n : Nfa) (s : Nat) (l : Label) (t q : Nat) :
    (n.addEdge s l t).state q =
      if q = s ∧ s < n.size then (n.state q).addEdge l t else n.state q := by
  simp only [state, addEdge, Array.getElem?_modify, size]
  by_cases hq : s = q
  · subst hq
    by_cases hs : s < n.states.size
    · simp [hs]
    · simp [hs]
  · simp [hq, Ne.symm hq]

@[simp] theorem edge_addEdge {n : Nfa} {s q r : Nat} {l l' : Label} {t : Nat} :
    (n.addEdge s l t).Edge q l' r ↔ n.Edge q l' r ∨ (q = s ∧ s < n.size ∧ l' = l ∧ r = t) := by
  rw [Edge, state_addEdge]
  split
  · next h => simp [State.mem_edges_addEdge, Edge, h]
  · next h =>
    rw [← Edge, iff_self_or]
    rintro ⟨hq, hs, -⟩
    exact absurd ⟨hq, hs⟩ h

@[simp] theorem owners_addEdge (n : Nfa) (s : Nat) (l : Label) (t q : Nat) :
    ((n.addEdge s l t).state q).owners = (n.state q).owners := by
  rw [state_addEdge]
  split
  · rw [State.addEdge]
    split <;> rfl
  · rfl

@[simp] theorem size_accept (n : Nfa) (s : Nat) (o : Owner) : (n.accept s o).size = n.size :=
  Array.size_modify

@[simp] theorem graph_accept (n : Nfa) (s : Nat) (o : Owner) : (n.accept s o).graph = n.graph := rfl

theorem state_accept (n : Nfa) (s : Nat) (o : Owner) (q : Nat) :
    (n.accept s o).state q =
      if q = s ∧ s < n.size then { n.state q with owners := (n.state q).owners.insert o }
      else n.state q := by
  simp only [state, accept, Array.getElem?_modify, size]
  by_cases hq : s = q
  · subst hq
    by_cases hs : s < n.states.size
    · simp [hs]
    · simp [hs]
  · simp [hq, Ne.symm hq]

@[simp] theorem edge_accept {n : Nfa} {s q r : Nat} {l : Label} {o : Owner} :
    (n.accept s o).Edge q l r ↔ n.Edge q l r := by
  rw [Edge, state_accept]
  split <;> rfl

@[simp] theorem size_release (n : Nfa) (s : Nat) : (n.release s).size = n.size := Array.size_modify

@[simp] theorem graph_release (n : Nfa) (s : Nat) : (n.release s).graph = n.graph := rfl

theorem state_release (n : Nfa) (s q : Nat) :
    (n.release s).state q = if q = s then { n.state q with owners := ∅ } else n.state q := by
  simp only [state, release, Array.getElem?_modify]
  by_cases hq : s = q
  · subst hq
    by_cases hs : s < n.states.size
    · simp [hs]
    · simp [hs]
  · simp [hq, Ne.symm hq]

@[simp] theorem edge_release {n : Nfa} {s q r : Nat} {l : Label} :
    (n.release s).Edge q l r ↔ n.Edge q l r := by
  rw [Edge, state_release]
  split <;> rfl

theorem graph_acceptExit (n : Nfa) (o : Owner) : (n.acceptExit o).graph = n.graph := by
  rw [acceptExit]
  split <;> simp

theorem size_acceptExit (n : Nfa) (o : Owner) : (n.acceptExit o).size = n.size := by
  rw [acceptExit]
  split <;> simp

@[simp] theorem edge_acceptExit {n : Nfa} {o : Owner} {q r : Nat} {l : Label} :
    (n.acceptExit o).Edge q l r ↔ n.Edge q l r := by
  rw [acceptExit]
  split <;> simp

theorem graph_releaseExit (n : Nfa) : n.releaseExit.graph = n.graph := by
  rw [releaseExit]
  split <;> simp

theorem size_releaseExit (n : Nfa) : n.releaseExit.size = n.size := by
  rw [releaseExit]
  split <;> simp

@[simp] theorem edge_releaseExit {n : Nfa} {q r : Nat} {l : Label} :
    n.releaseExit.Edge q l r ↔ n.Edge q l r := by
  rw [releaseExit]
  split <;> simp

/-! ## Two automata in one arena -/

@[simp] theorem size_shift (k : Nat) (n : Nfa) : (n.shift k).size = n.size := Array.size_map

@[simp] theorem size_beside (a b : Nfa) : (a.beside b).size = a.size + b.size := by
  show (a.states ++ (b.shift a.size).states).size = _
  rw [Array.size_append]
  exact congrArg (a.size + ·) (size_shift _ _)

@[simp] theorem graph_beside (a b : Nfa) :
    (a.beside b).graph = a.graph ++ b.graph.map (· + a.size) := rfl

theorem state_beside_left (a b : Nfa) {q : Nat} (h : q < a.size) :
    (a.beside b).state q = a.state q := by
  rw [state, state, beside, Array.getElem?_append_left h]

theorem state_beside_right (a b : Nfa) (q : Nat) :
    (a.beside b).state (q + a.size) = (b.state q).shift a.size := by
  have h : a.states.size ≤ q + a.size := Nat.le_add_left _ _
  show (a.states ++ b.states.map (·.shift a.size))[q + a.size]?.getD {} = _
  rw [Array.getElem?_append_right h]
  show (b.states.map _)[q + a.size - a.size]?.getD {} = (b.states[q]?.getD {}).shift a.size
  rw [Nat.add_sub_cancel, Array.getElem?_map]
  cases b.states[q]? <;> rfl

theorem edge_beside_left {a b : Nfa} {q r : Nat} {l : Label} (h : q < a.size) :
    (a.beside b).Edge q l r ↔ a.Edge q l r := by
  rw [Edge, state_beside_left a b h, Edge]

theorem edge_beside_right {a b : Nfa} {q r : Nat} {l : Label} :
    (a.beside b).Edge (q + a.size) l r ↔ ∃ t, b.Edge q l t ∧ r = t + a.size := by
  rw [Edge, state_beside_right, State.shift]
  simp only [List.mem_map, Prod.mk.injEq, Prod.exists, Edge]
  constructor
  · rintro ⟨l', t, hmem, rfl, rfl⟩
    exact ⟨t, hmem, rfl⟩
  · rintro ⟨t, hmem, rfl⟩
    exact ⟨l, t, hmem, rfl, rfl⟩

/-- An edge of two automata in one arena is an edge of one of them. -/
theorem edge_beside {a b : Nfa} {q r : Nat} {l : Label} :
    (a.beside b).Edge q l r ↔
      a.Edge q l r ∨ ∃ p t, q = p + a.size ∧ r = t + a.size ∧ b.Edge p l t := by
  by_cases h : q < a.size
  · rw [edge_beside_left h, iff_self_or]
    rintro ⟨p, t, rfl, -⟩
    omega
  · obtain ⟨p, rfl⟩ : ∃ p, q = p + a.size := ⟨q - a.size, by omega⟩
    rw [edge_beside_right]
    constructor
    · rintro ⟨t, hedge, rfl⟩
      exact .inr ⟨p, t, rfl, rfl, hedge⟩
    · rintro (hedge | ⟨p', t, hp, rfl, hedge⟩)
      · exact absurd hedge.source_lt h
      · obtain rfl : p = p' := by omega
        exact ⟨t, hedge, rfl⟩

/-! ## The finished automaton on its own -/

@[simp] theorem size_bare (n : Nfa) : n.bare.size = n.graph.length := by
  simp [size, bare]

@[simp] theorem graph_bare (n : Nfa) : n.bare.graph = List.range n.graph.length := rfl

theorem state_bare (n : Nfa) (i : Nat) :
    n.bare.state i = (n.graph[i]?.map fun id =>
      { edges := (n.state id).edges.filterMap fun e =>
          (n.graph.idxOf? e.2).map fun j => (e.1, j) : Nfa.State }).getD {} := by
  simp [state, bare]

@[simp] theorem owners_bare (n : Nfa) (i : Nat) : (n.bare.state i).owners = ∅ := by
  rw [state_bare]
  cases n.graph[i]? <;> rfl

/-- The edges of the copy are those between states of the run. -/
theorem edge_bare {n : Nfa} {i j : Nat} {l : Label} :
    n.bare.Edge i l j ↔
      ∃ q r, n.graph[i]? = some q ∧ n.Edge q l r ∧ n.graph.idxOf? r = some j := by
  rw [Edge, state_bare]
  cases hi : n.graph[i]? with
  | none => simp
  | some q =>
    simp only [Option.map_some, Option.getD_some, List.mem_filterMap, Option.map_eq_some_iff,
      Prod.mk.injEq, Prod.exists, Option.some.injEq, exists_and_left, exists_eq_left']
    constructor
    · rintro ⟨l', r, hmem, j', hj, rfl, rfl⟩
      exact ⟨r, hmem, hj⟩
    · rintro ⟨r, hmem, hj⟩
      exact ⟨l, r, hmem, j, hj, rfl, rfl⟩

/-! ## Constructions with a new entry and exit -/

@[simp] theorem size_oneOf (labels : List Label) : (oneOf labels).size = 2 := rfl

@[simp] theorem graph_oneOf (labels : List Label) : (oneOf labels).graph = [0, 1] := rfl

theorem edge_oneOf {labels : List Label} {q r : Nat} {l : Label} :
    (oneOf labels).Edge q l r ↔ q = 0 ∧ r = 1 ∧ l ∈ labels := by
  match q with
  | 0 =>
    show (l, r) ∈ labels.map (fun l => (l, 1)) ↔ _
    simp only [List.mem_map, Prod.mk.injEq, true_and]
    constructor
    · rintro ⟨l', hl, rfl, rfl⟩
      exact ⟨rfl, hl⟩
    · rintro ⟨rfl, hl⟩
      exact ⟨l, hl, rfl, rfl⟩
  | 1 => simp [Edge, state, oneOf]
  | q + 2 => simp [Edge, state, oneOf]

@[simp] theorem size_enclose (n : Nfa) : n.enclose.size = n.size + 2 := Array.size_append

@[simp] theorem graph_enclose (n : Nfa) : n.enclose.graph = n.size :: n.graph ++ [n.size + 1] := rfl

@[simp] theorem state_enclose (n : Nfa) (q : Nat) : n.enclose.state q = n.state q := by
  by_cases h : q < n.states.size
  · rw [state, enclose, Array.getElem?_append_left h, state]
  · rw [state, enclose, Array.getElem?_append_right (Nat.le_of_not_lt h), state_of_size_le
      (Nat.le_of_not_lt h)]
    match q - n.states.size with
    | 0 | 1 | _ + 2 => rfl

@[simp] theorem edge_enclose {n : Nfa} {q r : Nat} {l : Label} :
    n.enclose.Edge q l r ↔ n.Edge q l r := by
  rw [Edge, state_enclose, Edge]

@[simp] theorem size_through (n : Nfa) (start stop : Nat) (branch : Run Nat) :
    (n.through start stop branch).size = n.size := by
  rw [through]
  split <;> simp

@[simp] theorem graph_through (n : Nfa) (start stop : Nat) (branch : Run Nat) :
    (n.through start stop branch).graph = n.graph := by
  rw [through]
  split <;> rfl

theorem edge_through {n : Nfa} {start stop : Nat} {branch : Run Nat} {q r : Nat} {l : Label} :
    (n.through start stop branch).Edge q l r ↔
      n.Edge q l r ∨ l = .epsilon ∧ ∃ first last,
        branch.head? = some first ∧ branch.getLast? = some last ∧
          ((q = start ∧ start < n.size ∧ r = first) ∨ (q = last ∧ last < n.size ∧ r = stop)) := by
  rw [through]
  split
  · next first last hfirst hlast =>
    simp only [edge_addEdge, size_addEdge, hfirst, hlast, Option.some.injEq]
    constructor
    · rintro ((h | ⟨hq, hlt, hl, hr⟩) | ⟨hq, hlt, hl, hr⟩)
      · exact .inl h
      · exact .inr ⟨hl, first, last, rfl, rfl, .inl ⟨hq, hlt, hr⟩⟩
      · exact .inr ⟨hl, first, last, rfl, rfl, .inr ⟨hq, hlt, hr⟩⟩
    · rintro (h | ⟨hl, _, _, rfl, rfl, ⟨hq, hlt, hr⟩ | ⟨hq, hlt, hr⟩⟩)
      · exact .inl (.inl h)
      · exact .inl (.inr ⟨hq, hlt, hl, hr⟩)
      · exact .inr ⟨hq, hlt, hl, hr⟩
  · next hnone =>
    rw [iff_self_or]
    rintro ⟨-, first, last, hfirst, hlast, -⟩
    exact absurd hlast (hnone first last hfirst)

@[simp] theorem size_concat (a b : Nfa) : (a.concat b).size = a.size + b.size := by
  rw [concat]
  split <;> simp

@[simp] theorem graph_concat (a b : Nfa) :
    (a.concat b).graph = a.graph ++ b.graph.map (· + a.size) := by
  rw [concat]
  split <;> rfl

@[simp] theorem size_union (a b : Nfa) : (a.union b).size = a.size + b.size + 2 := by
  simp [union]

@[simp] theorem graph_union (a b : Nfa) :
    (a.union b).graph = (a.size + b.size) ::
      (a.graph ++ b.graph.map (· + a.size)) ++ [a.size + b.size + 1] := by
  simp [union]

/-- The automaton between its new entry and exit, before it is led back to its entry. -/
def passed (skip : Bool) (n : Nfa) : Nfa :=
  (if skip then n.enclose.addEdge n.size .epsilon (n.size + 1) else n.enclose).through n.size
    (n.size + 1) n.graph

theorem iterate_eq (skip again : Bool) (n : Nfa) :
    n.iterate skip again =
      match again, n.exit?, n.entry? with
      | true, some last, some first => (n.passed skip).addEdge last .epsilon first
      | _, _, _ => n.passed skip := rfl

@[simp] theorem size_passed (skip : Bool) (n : Nfa) : (n.passed skip).size = n.size + 2 := by
  rw [passed, size_through]
  split <;> simp

@[simp] theorem graph_passed (skip : Bool) (n : Nfa) :
    (n.passed skip).graph = n.size :: n.graph ++ [n.size + 1] := by
  rw [passed, graph_through]
  split <;> rfl

@[simp] theorem size_iterate (skip again : Bool) (n : Nfa) :
    (n.iterate skip again).size = n.size + 2 := by
  rw [iterate_eq]
  split <;> simp

@[simp] theorem graph_iterate (skip again : Bool) (n : Nfa) :
    (n.iterate skip again).graph = n.size :: n.graph ++ [n.size + 1] := by
  rw [iterate_eq]
  split <;> simp

/-! ## Owners -/

theorem owners_beside {a b : Nfa} (ha : ∀ q, (a.state q).owners = ∅)
    (hb : ∀ q, (b.state q).owners = ∅) (q : Nat) : ((a.beside b).state q).owners = ∅ := by
  by_cases h : q < a.size
  · rw [state_beside_left a b h, ha]
  · obtain ⟨p, rfl⟩ : ∃ p, q = p + a.size := ⟨q - a.size, by omega⟩
    rw [state_beside_right]
    exact hb p

@[simp] theorem owners_oneOf (labels : List Label) (q : Nat) :
    ((oneOf labels).state q).owners = ∅ := by
  match q with
  | 0 | 1 | _ + 2 => rfl

@[simp] theorem owners_through (n : Nfa) (start stop : Nat) (branch : Run Nat) (q : Nat) :
    ((n.through start stop branch).state q).owners = (n.state q).owners := by
  rw [through]
  split <;> simp

theorem owners_concat {a b : Nfa} (ha : ∀ q, (a.state q).owners = ∅)
    (hb : ∀ q, (b.state q).owners = ∅) (q : Nat) : ((a.concat b).state q).owners = ∅ := by
  rw [concat]
  split
  · rw [owners_addEdge, owners_beside ha hb]
  · exact owners_beside ha hb q

theorem owners_union {a b : Nfa} (ha : ∀ q, (a.state q).owners = ∅)
    (hb : ∀ q, (b.state q).owners = ∅) (q : Nat) : ((a.union b).state q).owners = ∅ := by
  simp only [union, owners_through, state_enclose, owners_beside ha hb]

@[simp] theorem owners_iterate (skip again : Bool) (n : Nfa) (q : Nat) :
    ((n.iterate skip again).state q).owners = (n.state q).owners := by
  have hpassed : ((n.passed skip).state q).owners = (n.state q).owners := by
    rw [passed, owners_through]
    split <;> simp
  rw [iterate_eq]
  split
  · rw [owners_addEdge, hpassed]
  · exact hpassed

end Predictive.Nfa
