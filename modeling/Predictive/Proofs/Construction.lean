import Predictive.Proofs.Determinization

/-!
# The subset construction as a loop

The construction numbers its states as it creates them. It takes the newest of the states that are
still without edges, and adds its edges one at a time, with a new state for each set that has none yet
(`Construction.round?`). Every stage of it is determined by the sets that have states and by the
numbers still to be taken (`stage`), so a round does what a round of `discover` does (`round?_stage`),
and after finitely many rounds no number is left and the states are those of `ofNfa`
(`reflTransGen_ofNfa`).

What the result is does not depend on the order: `Determinizes` lists what relates each state to its
set and each edge to a move from that set.
-/

namespace Predictive

open Relation (ReflTransGen)
open Nfa (register)

namespace Nfa

/-- The edges from the state of a set, once the sets that have states are `sets`. -/
def links (n : Nfa) (sets : List (SortedSet Nat)) (set : SortedSet Nat) : List (Label × Nat) :=
  (n.successors set).map fun e => (e.1, sets.idxOf e.2)

/-- More sets change nothing where the successors have states already. -/
theorem links_append {n : Nfa} {sets fresh : List (SortedSet Nat)} {set : SortedSet Nat}
    (h : ∀ next, n.LeadsTo set next → next ∈ sets) :
    n.links (sets ++ fresh) set = n.links sets set :=
  List.map_congr_left fun _ he => by rw [List.idxOf_append_of_mem (h _ ⟨_, he⟩)]

end Nfa

namespace Dfa

/-! ## The loop -/

/-- A state under construction. -/
structure Draft extends Dfa.State where
  /-- Some member accepts. -/
  accepts : Bool

/-- The state with edges after those that it has. -/
def Draft.addEdges (s : Draft) (edges : List (Label × Nat)) : Draft :=
  { s with edges := s.edges ++ edges }

/-- The state of a set, before it has edges. -/
def draft (n : Nfa) (set : SortedSet Nat) : Draft :=
  let accepting := set.toList.filter fun q => (n.state q).accepting
  { members := set
    owners := .ofList (accepting.flatMap fun q => (n.state q).owners.toList)
    edges := []
    accepts := !accepting.isEmpty }

/-- What the construction has made so far. -/
structure Construction where
  /-- The states in order of creation. -/
  states : List Draft
  /-- The numbers of the states that are still without edges, the newest first. -/
  work : List Nat

namespace Construction

/-- The sets that have states. -/
def sets (c : Construction) : List (SortedSet Nat) := c.states.map fun s => s.members

/-- Adds an edge from state `id`, and a state for the set that it leads to if there is none. -/
def lead (n : Nfa) (id : Nat) (c : Construction) (e : Label × SortedSet Nat) : Construction :=
  match c.sets.idxOf? e.2 with
  | some next => { c with states := c.states.modify id (·.addEdges [(e.1, next)]) }
  | none =>
    { states := (c.states ++ [draft n e.2]).modify id (·.addEdges [(e.1, c.states.length)])
      work := c.states.length :: c.work }

/-- Takes a state from the list and adds its edges. -/
def round? (n : Nfa) (c : Construction) : Option Construction :=
  match c.work with
  | [] => none
  | id :: work =>
    some ((n.successors ((c.states[id]?.map fun s => s.members).getD ∅)).foldl (lead n id)
      { c with work })

/-- The construction with the state of the start set. -/
def start (n : Nfa) : Construction := ⟨[draft n n.startSet], [0]⟩

/-- A round leads from one stage of the construction to another. -/
def Round (n : Nfa) (c d : Construction) : Prop := c.round? n = some d

end Construction

/-! ## One round -/

variable {n : Nfa}

@[simp] theorem Draft.addEdges_nil (s : Draft) : s.addEdges [] = s := by simp [addEdges]

theorem Draft.addEdges_addEdges (s : Draft) (a b : List (Label × Nat)) :
    (s.addEdges a).addEdges b = s.addEdges (a ++ b) := by simp [addEdges]

theorem owners_draft (n : Nfa) (set : SortedSet Nat) : (draft n set).owners = n.ownersOf set := by
  refine SortedSet.ext fun o => ?_
  simp only [draft, mem_ownersOf, SortedSet.mem_ofList, List.mem_flatMap, List.mem_filter,
    ← SortedSet.mem_def, and_assoc]

/-- A set has owners exactly if one of its states accepts. -/
theorem exists_mem_ownersOf_iff {set : SortedSet Nat} :
    (∃ o, o ∈ n.ownersOf set) ↔ ∃ q ∈ set, (n.state q).accepting = true := by
  simp only [mem_ownersOf]
  constructor
  · rintro ⟨o, q, hq, hacc, -⟩
    exact ⟨q, hq, hacc⟩
  · rintro ⟨q, hq, hacc⟩
    obtain ⟨o, ho⟩ := accepting_iff.1 hacc
    exact ⟨o, q, hq, hacc, ho⟩

theorem accepts_draft {set : SortedSet Nat} :
    (draft n set).accepts = true ↔ ∃ q ∈ set, (n.state q).accepting = true := by
  simp [draft, SortedSet.mem_def]

/-- The stage at which `sets` have states and those numbered in `work` are still without edges. -/
def stage (n : Nfa) (sets : List (SortedSet Nat)) (work : List Nat) : Construction where
  states := sets.zipIdx.map fun (set, i) =>
    (draft n set).addEdges (if i ∈ work then [] else n.links sets set)
  work := work

theorem getElem?_states_stage (n : Nfa) (sets : List (SortedSet Nat)) (work : List Nat) (i : Nat) :
    (stage n sets work).states[i]? = sets[i]?.map fun set =>
      (draft n set).addEdges (if i ∈ work then [] else n.links sets set) := by
  simp [stage, Function.comp_def]

@[simp] theorem length_states_stage (n : Nfa) (sets : List (SortedSet Nat)) (work : List Nat) :
    (stage n sets work).states.length = sets.length := by simp [stage]

@[simp] theorem sets_stage (n : Nfa) (sets : List (SortedSet Nat)) (work : List Nat) :
    (stage n sets work).sets = sets := by
  refine List.ext_getElem? fun i => ?_
  rw [Construction.sets, List.getElem?_map, getElem?_states_stage, Option.map_map]
  exact Option.map_id_apply ..

theorem map_members_modify (states : List Draft) (id : Nat) (edges : List (Label × Nat)) :
    (states.modify id (·.addEdges edges)).map (fun s => s.members) =
      states.map fun s => s.members := by
  refine List.ext_getElem? fun i => ?_
  simp only [List.getElem?_map, List.getElem?_modify, Option.map_eq_map, Option.map_map]
  congr 1
  funext s
  dsimp only [Function.comp]
  split <;> rfl

/-- Edges added to one state after another add up, whatever states are created in between. -/
theorem modify_addEdges_append {states more : List Draft} {id : Nat} (hid : id < states.length)
    (a b : List (Label × Nat)) :
    (states.modify id (·.addEdges a) ++ more).modify id (·.addEdges b) =
      (states ++ more).modify id (·.addEdges (a ++ b)) := by
  refine List.ext_getElem? fun i => ?_
  simp only [List.getElem?_modify, List.getElem?_append, List.length_modify, Option.map_eq_map]
  by_cases hi : id = i
  · subst hi
    simp [hid, Draft.addEdges_addEdges]
  · simp [hi]

/-- Adding edges to a state creates the states of the sets that have none, in the order in which the
edges lead to them, and puts their numbers on the list. -/
theorem foldl_lead {id : Nat} {c : Construction} (hid : id < c.states.length)
    (es : List (Label × SortedSet Nat)) :
    ∃ fresh, register c.sets (es.map Prod.snd) = c.sets ++ fresh ∧
      es.foldl (Construction.lead n id) c =
        { states := (c.states ++ fresh.map (draft n)).modify id
            (·.addEdges (es.map fun e => (e.1, (c.sets ++ fresh).idxOf e.2)))
          work := (List.range' c.states.length fresh.length).reverse ++ c.work } := by
  induction es generalizing c with
  | nil =>
    refine ⟨[], by simp [register], ?_⟩
    simp only [List.map_nil, List.append_nil, Draft.addEdges_nil]
    exact (congrArg (Construction.mk · c.work) (List.modify_id id c.states)).symm
  | cons e es ih =>
    rw [List.foldl_cons, List.map_cons, register, List.foldl_cons, ← register]
    cases hnext : c.sets.idxOf? e.2 with
    | some next =>
      have hmem : e.2 ∈ c.sets := by
        by_contra h
        rw [List.idxOf?_eq_none_iff.2 h] at hnext
        cases hnext
      have hidx : c.sets.idxOf e.2 = next := by rw [List.idxOf_eq_getD_idxOf?, hnext]; rfl
      have hlead : Construction.lead n id c e =
          ⟨c.states.modify id (·.addEdges [(e.1, next)]), c.work⟩ := by rw [Construction.lead, hnext]
      have hsets : (Construction.lead n id c e).sets = c.sets := by
        rw [hlead]
        exact map_members_modify ..
      obtain ⟨fresh, hfresh, hrun⟩ := ih (c := Construction.lead n id c e)
        (by rw [hlead, List.length_modify]; exact hid)
      rw [hsets] at hfresh hrun
      refine ⟨fresh, by rw [if_pos hmem, hfresh], ?_⟩
      rw [hrun, hlead, List.map_cons, List.idxOf_append_of_mem hmem, hidx, List.length_modify,
        modify_addEdges_append hid, List.singleton_append]
    | none =>
      have hnot : e.2 ∉ c.sets := List.idxOf?_eq_none_iff.1 hnext
      have hlead : Construction.lead n id c e =
          ⟨(c.states ++ [draft n e.2]).modify id (·.addEdges [(e.1, c.states.length)]),
            c.states.length :: c.work⟩ := by rw [Construction.lead, hnext]
      have hlength : c.sets.length = c.states.length := List.length_map ..
      have hid' : id < (c.states ++ [draft n e.2]).length := by
        rw [List.length_append]
        exact Nat.lt_add_right _ hid
      have hsets : (Construction.lead n id c e).sets = c.sets ++ [e.2] := by
        rw [hlead]
        refine (map_members_modify ..).trans ?_
        rw [List.map_append]
        rfl
      obtain ⟨fresh, hfresh, hrun⟩ := ih (c := Construction.lead n id c e)
        (by rw [hlead, List.length_modify]; exact hid')
      rw [hsets, List.append_assoc, List.singleton_append] at hfresh hrun
      refine ⟨e.2 :: fresh, by rw [if_neg hnot, hfresh], ?_⟩
      have hidx : (c.sets ++ e.2 :: fresh).idxOf e.2 = c.states.length := by
        rw [List.idxOf_append, if_neg hnot, List.idxOf_cons_self, Nat.zero_add, hlength]
      have hwork : (List.range' (c.states ++ [draft n e.2]).length fresh.length).reverse ++
            c.states.length :: c.work =
          (List.range' c.states.length (e.2 :: fresh).length).reverse ++ c.work := by
        simp [List.range'_succ]
      rw [hrun, hlead, List.length_modify, hwork, modify_addEdges_append hid', List.append_assoc,
        List.map_cons (l := es), hidx]
      rfl

/-- A round explores the set of one state, as a round of discovery does. -/
theorem round?_stage {sets fresh : List (SortedSet Nat)} {set : SortedSet Nat} {id : Nat}
    {work : List Nat} (hset : sets[id]? = some set) (hid : id ∉ work)
    (hclosed : ∀ i s, sets[i]? = some s → i ∉ id :: work → ∀ next, n.LeadsTo s next → next ∈ sets)
    (hfresh : register sets ((n.successors set).map Prod.snd) = sets ++ fresh) :
    Construction.Round n (stage n sets (id :: work))
      (stage n (sets ++ fresh) ((List.range' sets.length fresh.length).reverse ++ work)) := by
  have hlt : id < sets.length := (List.getElem?_eq_some_iff.1 hset).1
  have hmembers : ((stage n sets (id :: work)).states[id]?.map fun s => s.members).getD ∅ = set := by
    rw [getElem?_states_stage, hset]
    rfl
  have hsets : Construction.sets ⟨(stage n sets (id :: work)).states, work⟩ = sets := sets_stage ..
  have hlt' : id < (stage n sets (id :: work)).states.length := by simpa using hlt
  obtain ⟨fresh', hfresh', hrun⟩ :=
    foldl_lead (n := n) (c := ⟨(stage n sets (id :: work)).states, work⟩) hlt' (n.successors set)
  rw [hsets] at hfresh' hrun
  obtain rfl : fresh = fresh' := List.append_cancel_left (hfresh.symm.trans hfresh')
  rw [length_states_stage] at hrun
  show some ((n.successors _).foldl (Construction.lead n id)
    ⟨(stage n sets (id :: work)).states, work⟩) = _
  rw [hmembers, hrun]
  refine congrArg some (congrArg (Construction.mk · _) (List.ext_getElem? fun i =>
    Eq.trans ?_ (getElem?_states_stage n _ _ i).symm))
  dsimp only
  rw [List.getElem?_modify, List.getElem?_append, length_states_stage]
  by_cases hi : i < sets.length
  · obtain ⟨s, hs⟩ : ∃ s, sets[i]? = some s := ⟨_, List.getElem?_eq_getElem hi⟩
    have hold : i ∉ (List.range' sets.length fresh.length).reverse := by
      simp only [List.mem_reverse, List.mem_range'_1]
      omega
    rw [if_pos hi, getElem?_states_stage, List.getElem?_append_left hi, hs]
    by_cases hid' : id = i
    · -- the state taken from the list
      subst hid'
      obtain rfl : s = set := Option.some.inj (hs.symm.trans hset)
      simp [hid, hold, Nfa.links]
    · -- a state that is still on the list, or has its edges
      have hmem : i ∈ (List.range' sets.length fresh.length).reverse ++ work ↔ i ∈ id :: work := by
        simp [hold, Ne.symm hid']
      by_cases hi' : i ∈ id :: work
      · simp [hid', hi', hmem]
      · simp [hid', hi', hmem, Nfa.links_append (hclosed i s hs hi')]
  · -- a state created in this round
    rw [if_neg hi, List.getElem?_append_right (Nat.le_of_not_lt hi), List.getElem?_map]
    cases hs : fresh[i - sets.length]? with
    | none => rfl
    | some s =>
      have hlt' := (List.getElem?_eq_some_iff.1 hs).1
      have hnew : i ∈ (List.range' sets.length fresh.length).reverse ++ work := by
        simp only [List.mem_append, List.mem_reverse, List.mem_range'_1]
        omega
      have hid' : id ≠ i := by omega
      simp [hid', hnew]

/-! ## All rounds -/

theorem map_getElem?_range' {α : Type} (known fresh : List α) :
    (List.range' known.length fresh.length).map ((known ++ fresh)[·]?) = fresh.map some := by
  refine List.ext_getElem? fun i => ?_
  by_cases hi : i < fresh.length
  · rw [List.getElem?_map, List.getElem?_range' hi, List.getElem?_map, Option.map_some,
      List.getElem?_append_right (by omega)]
    simp [hi]
  · simp [hi]

/-- With a round for every set that is not explored yet, the construction ends with no number left and
with the sets that are discovered. -/
theorem reflTransGen_stage (hn : n.Bounded) {rounds : Nat} {work : List Nat}
    {unexplored known : List (SortedSet Nat)} (h : n.Explored n.Within unexplored known)
    (hwork : work.map (known[·]?) = unexplored.map some) (hnodup : work.Nodup)
    (hrounds : 2 ^ n.size + unexplored.length ≤ rounds + known.length) :
    ReflTransGen (Construction.Round n) (stage n known work)
      (stage n (n.discover rounds unexplored known) []) := by
  induction rounds generalizing work unexplored known with
  | zero =>
    have hle := Nfa.length_le_of_nodup h.nodup h.holds
    obtain rfl : unexplored = [] := List.length_eq_zero_iff.1 (by omega)
    obtain rfl : work = [] := List.map_eq_nil_iff.1 hwork
    exact .refl
  | succ rounds ih =>
    cases unexplored with
    | nil =>
      obtain rfl : work = [] := List.map_eq_nil_iff.1 hwork
      exact .refl
    | cons set unexplored =>
      obtain ⟨id, work, rfl, hset, hwork'⟩ := List.map_eq_cons_iff.1 hwork
      obtain ⟨fresh, hfresh⟩ := Nfa.register_eq_append known ((n.successors set).map Prod.snd)
      have hlt : ∀ i ∈ work, i < known.length := fun i hi => by
        have hmem : known[i]? ∈ unexplored.map some := hwork' ▸ List.mem_map_of_mem hi
        obtain ⟨s, -, hs⟩ := List.mem_map.1 hmem
        exact (List.getElem?_eq_some_iff.1 hs.symm).1
      have hclosed : ∀ i s, known[i]? = some s → i ∉ id :: work →
          ∀ next, n.LeadsTo s next → next ∈ known := fun i s hs hi =>
        h.closed s (List.mem_of_getElem? hs) fun hmem => hi <| by
          obtain ⟨j, hj, hjs⟩ := List.mem_map.1 (hwork ▸ List.mem_map_of_mem hmem :
            some s ∈ (id :: work).map (known[·]?))
          rwa [place_unique h.nodup hs hjs]
      have hid := List.nodup_cons.1 hnodup
      have hnext := h.step (fun _ _ _ => Nfa.within_of_leadsTo hn) hfresh
      rw [Nfa.discover]
      simp only [hfresh, List.drop_left]
      refine .head (round?_stage hset hid.1 hclosed hfresh) (ih hnext ?_ ?_ ?_)
      · rw [List.map_append, List.map_append, List.map_reverse, map_getElem?_range',
          List.map_reverse, ← hwork']
        refine congrArg _ (List.map_congr_left fun i hi => List.getElem?_append_left (hlt i hi))
      · refine List.nodup_append.2 ⟨List.nodup_reverse.2 List.nodup_range', hid.2, ?_⟩
        rintro i hi j hj rfl
        have := (List.mem_range'_1.1 (List.mem_reverse.1 hi)).1
        exact Nat.not_lt.2 this (hlt i hj)
      · simp only [List.length_append, List.length_reverse, List.length_cons] at hrounds ⊢
        omega

/-- The construction ends with the states of the automaton, and the flag of each tells whether it has
an owner. -/
theorem reflTransGen_ofNfa (hn : n.Bounded) :
    ∃ last, ReflTransGen (Construction.Round n) (Construction.start n) last ∧ last.work = [] ∧
      last.states.map (·.toState) = (ofNfa n).states.toList ∧
      ∀ s ∈ last.states, s.accepts = s.accepting := by
  have hstart : Construction.start n = stage n [n.startSet] [0] := by simp [Construction.start, stage]
  have hrun : ReflTransGen (Construction.Round n) (stage n [n.startSet] [0]) (stage n n.subsets []) :=
    reflTransGen_stage hn (Nfa.explored_start (Nfa.within_startSet hn)) rfl (List.nodup_singleton 0)
      (Nat.le_refl _)
  refine ⟨_, hstart ▸ hrun, rfl, List.ext_getElem? fun i => ?_, fun s hs => ?_⟩
  · have hstate := getElem?_ofNfa n i
    rw [← Array.getElem?_toList] at hstate
    rw [hstate, List.getElem?_map, getElem?_states_stage, Option.map_map]
    congr 1
    funext set
    simp [Draft.addEdges, ← owners_draft, draft, Nfa.links]
  · obtain ⟨⟨set, i⟩, -, rfl⟩ := List.mem_map.1 hs
    rw [Bool.eq_iff_iff]
    show (draft n set).accepts = true ↔ (!(draft n set).owners.isEmpty) = true
    rw [accepts_draft, Bool.not_eq_true', SortedSet.isEmpty_eq_false_iff, owners_draft]
    exact exists_mem_ownersOf_iff.symm

/-! ## What the construction yields -/

/-- Some edge leads from state `i` to state `j`. -/
def Leads (d : Dfa) (i j : Nat) : Prop :=
  ∃ (s : Dfa.State) (l : Label), d.states[i]? = some s ∧ (l, j) ∈ s.edges

/-- What a state of `d` has to be for the set of states of `n` that it stands for. -/
structure State.Represents (s : Dfa.State) (d : Dfa) (n : Nfa) : Prop where
  /-- The set holds what its members lead to by reading nothing. -/
  closed : ∀ q ∈ s.members, ∀ r, n.Edge q .epsilon r → r ∈ s.members
  /-- No edge reads nothing. -/
  reads : ∀ l j, (l, j) ∈ s.edges → l ≠ .epsilon
  /-- There is one edge at most for each label. -/
  deterministic : (s.edges.map Prod.fst).Nodup
  /-- An edge leads to the state of the set that its label leads to. -/
  target : ∀ l j, (l, j) ∈ s.edges →
    ∃ t : Dfa.State, d.states[j]? = some t ∧ t.members = n.closure (n.move s.members l)
  /-- There is an edge for each label that is on an edge from a member. -/
  exists_edge_iff : ∀ l : Label, l ≠ .epsilon →
    ((∃ j, (l, j) ∈ s.edges) ↔ ∃ q ∈ s.members, ∃ r, n.Edge q l r)
  /-- The owners are those of the members that accept. -/
  owners : ∀ o, o ∈ s.owners ↔
    ∃ q ∈ s.members, (n.state q).accepting = true ∧ o ∈ (n.state q).owners
  /-- The state accepts if a member does. -/
  accepts : s.accepting = true ↔ ∃ q ∈ s.members, (n.state q).accepting = true
  /-- The state accepts exactly if it has an owner. -/
  accepts_iff_owned : s.accepting = true ↔ ∃ o, o ∈ s.owners

/-- The states of `d` stand for the sets of states of `n` that the entry leads to, each set once. -/
structure Determinizes (d : Dfa) (n : Nfa) : Prop where
  /-- The start stands for what the entry leads to by reading nothing. -/
  start : ∃ s : Dfa.State, d.states[0]? = some s ∧ s.members = n.closure (.ofList n.entry?.toList)
  /-- Different states stand for different sets. -/
  injective : ∀ (i j : Nat) (s t : Dfa.State), d.states[i]? = some s → d.states[j]? = some t →
    s.members = t.members → i = j
  /-- Every state is reached from the start. -/
  reached : ∀ (i : Nat) (s : Dfa.State), d.states[i]? = some s → ReflTransGen d.Leads 0 i
  /-- Only the start can stand for the empty set. -/
  nonempty : ∀ (i : Nat) (s : Dfa.State), d.states[i]? = some s → i ≠ 0 → ∃ q, q ∈ s.members
  /-- Each state is what its set requires. -/
  state : ∀ (i : Nat) (s : Dfa.State), d.states[i]? = some s → s.Represents d n

theorem mem_closure_of_edge (hn : n.Bounded) {set : SortedSet Nat} {q r : Nat}
    (hq : q ∈ n.closure set) (hedge : n.Edge q .epsilon r) : r ∈ n.closure set := by
  obtain ⟨p, hp, hpath⟩ := (Nfa.mem_closure_iff hn).1 hq
  exact (Nfa.mem_closure_iff hn).2 ⟨p, hp, hpath.step hedge⟩

/-- Every label on an edge from a set has its successor. -/
theorem map_fst_successors (hn : n.Bounded) (set : SortedSet Nat) :
    (n.successors set).map Prod.fst = (n.labels set).toList := by
  rw [Nfa.successors, List.map_filterMap]
  refine (List.filterMap_congr fun l hl => ?_).trans List.filterMap_some
  simp [advance_ne_empty hn (SortedSet.mem_def.2 hl)]

theorem mem_links_iff (hn : n.Bounded) {sets : List (SortedSet Nat)} {set : SortedSet Nat}
    {l : Label} {j : Nat} :
    (l, j) ∈ n.links sets set ↔ l ∈ n.labels set ∧ sets.idxOf (n.advance set l) = j := by
  simp only [Nfa.links, List.mem_map, Prod.exists, Nfa.mem_successors_iff, Prod.mk.injEq]
  constructor
  · rintro ⟨l, _, ⟨hl, rfl, -⟩, rfl, hj⟩
    exact ⟨hl, hj⟩
  · rintro ⟨hl, hj⟩
    exact ⟨l, _, ⟨hl, rfl, advance_ne_empty hn hl⟩, rfl, hj⟩

theorem ofNfa_states {i : Nat} {s : Dfa.State} (h : (ofNfa n).states[i]? = some s) :
    n.subsets[i]? = some s.members ∧ s.owners = n.ownersOf s.members ∧
      s.edges = n.links n.subsets s.members := by
  rw [getElem?_ofNfa, Option.map_eq_some_iff] at h
  obtain ⟨set, hset, rfl⟩ := h
  exact ⟨hset, rfl, rfl⟩

/-- The states of the sets that the start set leads to are reached from the start. -/
theorem reached_ofNfa (hn : n.Bounded) {set : SortedSet Nat}
    (h : ReflTransGen n.LeadsTo n.startSet set) :
    set ∈ n.subsets ∧ ReflTransGen (ofNfa n).Leads 0 (n.subsets.idxOf set) := by
  obtain ⟨hhead, hspec⟩ := Nfa.subsets_spec hn
  induction h with
  | refl =>
    refine ⟨List.mem_of_mem_head? hhead, ?_⟩
    obtain ⟨rest, hrest⟩ := List.head?_eq_some_iff.1 hhead
    rw [hrest, List.idxOf_cons_self]
  | @tail prev next _ hstep ih =>
    obtain ⟨hprev, hreached⟩ := ih
    refine ⟨hspec.closed prev hprev List.not_mem_nil next hstep, hreached.tail ?_⟩
    obtain ⟨l, hl⟩ := hstep
    refine ⟨_, l, by rw [getElem?_ofNfa, List.getElem?_idxOf hprev, Option.map_some], ?_⟩
    exact List.mem_map.2 ⟨(l, next), hl, rfl⟩

theorem reflTransGen_of_mem_subsets (hn : n.Bounded) {set : SortedSet Nat} (h : set ∈ n.subsets) :
    ReflTransGen n.LeadsTo n.startSet set :=
  ((Nfa.explored_subsets (P := fun set => n.Within set ∧ ReflTransGen n.LeadsTo n.startSet set)
    ⟨Nfa.within_startSet hn, .refl⟩
    (fun _ _ h hstep => ⟨Nfa.within_of_leadsTo hn hstep, h.2.tail hstep⟩)
    fun _ h => h.1).2.holds set h).2

/-- Each set that has a state is the start set, or another leads to it and it has members. -/
theorem cases_of_mem_subsets (hn : n.Bounded) {set : SortedSet Nat} (h : set ∈ n.subsets) :
    set = n.startSet ∨ ∃ prev l, set = n.advance prev l ∧ set.isEmpty = false := by
  rcases (reflTransGen_of_mem_subsets hn h).cases_tail with heq | ⟨prev, -, l, hl⟩
  · exact .inl heq
  · obtain ⟨-, heq, hne⟩ := Nfa.mem_successors_iff.1 hl
    exact .inr ⟨prev, l, heq, hne⟩

theorem represents_ofNfa (hn : n.Bounded) {i : Nat} {s : Dfa.State}
    (h : (ofNfa n).states[i]? = some s) : s.Represents (ofNfa n) n := by
  obtain ⟨hset, howners, hedges⟩ := ofNfa_states h
  have hmem := List.mem_of_getElem? hset
  have hedge : ∀ {l j}, (l, j) ∈ s.edges ↔
      l ∈ n.labels s.members ∧ n.subsets.idxOf (n.advance s.members l) = j := by
    rw [hedges]
    exact mem_links_iff hn
  have haccepting : s.accepting = true ↔ ∃ o, o ∈ s.owners := by
    rw [State.accepting, Bool.not_eq_true', SortedSet.isEmpty_eq_false_iff]
  refine
    { closed := fun q hq r hr => ?_
      reads := fun l j hl => (Nfa.mem_labels_iff.1 (hedge.1 hl).1).1
      deterministic := ?_
      target := fun l j hl => ?_
      exists_edge_iff := fun l hl => ?_
      owners := fun o => by rw [howners, mem_ownersOf]
      accepts := by rw [haccepting, howners, exists_mem_ownersOf_iff]
      accepts_iff_owned := haccepting }
  · rcases cases_of_mem_subsets hn hmem with heq | ⟨prev, l, heq, -⟩
    all_goals
      rw [heq] at hq ⊢
      exact mem_closure_of_edge hn hq hr
  · rw [hedges, Nfa.links, List.map_map]
    exact map_fst_successors hn s.members ▸ SortedSet.nodup_toList _
  · obtain ⟨hlabel, rfl⟩ := hedge.1 hl
    have hstep : n.LeadsTo s.members (n.advance s.members l) :=
      ⟨l, Nfa.mem_successors_iff.2 ⟨hlabel, rfl, advance_ne_empty hn hlabel⟩⟩
    have hnext := (Nfa.subsets_spec hn).2.closed _ hmem List.not_mem_nil _ hstep
    exact ⟨_, by rw [getElem?_ofNfa, List.getElem?_idxOf hnext, Option.map_some], rfl⟩
  · simp only [hedge, exists_and_left, exists_eq', and_true, Nfa.mem_labels_iff]
    exact and_iff_right hl

theorem determinizes_ofNfa (hn : n.Bounded) : (ofNfa n).Determinizes n := by
  obtain ⟨hhead, hspec⟩ := Nfa.subsets_spec hn
  rw [List.head?_eq_getElem?] at hhead
  refine
    { start := ⟨_, by rw [getElem?_ofNfa, hhead, Option.map_some], rfl⟩
      injective := fun i j s t hs ht heq => ?_
      reached := fun i s hs => ?_
      nonempty := fun i s hs hi => ?_
      state := fun i s hs => represents_ofNfa hn hs }
  · exact place_unique hspec.nodup (ofNfa_states hs).1 (heq ▸ (ofNfa_states ht).1)
  · have hset := (ofNfa_states hs).1
    have hmem := List.mem_of_getElem? hset
    rw [place_unique hspec.nodup hset (List.getElem?_idxOf hmem)]
    exact (reached_ofNfa hn (reflTransGen_of_mem_subsets hn hmem)).2
  · have hset := (ofNfa_states hs).1
    rcases cases_of_mem_subsets hn (List.mem_of_getElem? hset) with heq | ⟨-, -, -, hne⟩
    · exact absurd (place_unique hspec.nodup hset (heq ▸ hhead)) hi
    · exact SortedSet.isEmpty_eq_false_iff.1 hne

/-- For every automaton whose edges and entry lead to states that it has: the construction ends, with
the states of `ofNfa`, in each of which the flag says whether it has an owner; a closure is what is
reached by reading nothing, and a move what edges taken on a label lead to; and the states stand for
the sets that are found in this way. -/
theorem ofNfa_determinizes (hn : n.Bounded) :
    (∃ last, ReflTransGen (Construction.Round n) (Construction.start n) last ∧ last.work = [] ∧
      last.states.map (·.toState) = (ofNfa n).states.toList ∧
      ∀ s ∈ last.states, s.accepts = s.accepting) ∧
    (∀ set r, r ∈ n.closure set ↔ ∃ q ∈ set, n.Path q [] r) ∧
    (∀ set l r, r ∈ n.move set l ↔ ∃ q ∈ set, ∃ k : Label, k.TakenOn l ∧ n.Edge q k r) ∧
    (ofNfa n).Determinizes n :=
  ⟨reflTransGen_ofNfa hn, fun _ _ => Nfa.mem_closure_iff hn, fun _ _ _ => Nfa.mem_move_iff,
    determinizes_ofNfa hn⟩

/-- Two states lead to each other without reading, one of them also to itself: the sets `{0, 1}`,
`{2}` and `{0, 1, 2}` have states. -/
theorem ofNfa_determinizes_cycle :
    let n : Nfa :=
      { states := #[{ edges := [(.epsilon, 1), (.char 'x', 0)] },
          { edges := [(.epsilon, 0), (.any, 2)] }, { owners := .singleton ⟨0, "any"⟩ }]
        graph := [0, 1, 2] }
    n.Bounded ∧ (ofNfa n).Determinizes n ∧
      (ofNfa n).states.toList.map (·.members.toList) = [[0, 1], [2], [0, 1, 2]] := by
  intro n
  have hn : n.Bounded := by decide
  exact ⟨hn, (ofNfa_determinizes hn).2.2.2, by decide +kernel⟩

/-- Without states there is one state, and it leads nowhere. -/
example : (ofNfa .empty).states.toList = [⟨∅, ∅, []⟩] := by decide +kernel

end Dfa

end Predictive
