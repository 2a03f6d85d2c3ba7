import Predictive.Proofs.Edges
import Predictive.Proofs.Except
import Predictive.Pattern.Set
import Mathlib.Data.List.Nodup

/-!
# Automata that can be built

`Nfa.Built` lists the ways to come by an automaton: compiling a regular expression or a set of
patterns, merging patterns, and changing an automaton state by state. All of them are well formed
(`Built.wellFormed`), since every construction adds edges between states that it has.
-/

namespace Predictive

namespace Nfa

variable {n a b : Nfa}

/-! ## Constructions keep automata well formed -/

namespace WellFormed

theorem empty : Nfa.empty.WellFormed :=
  { target_lt := fun h => absurd h.source_lt (Nat.not_lt_zero _)
    graph_lt := fun h => absurd h List.not_mem_nil
    nodup := List.nodup_nil }

theorem addState (h : n.WellFormed) : n.addState.WellFormed := by
  refine ⟨fun {q l r} hedge => ?_, fun {q} hq => ?_, h.nodup⟩
  · rw [Edge, state_addState] at hedge
    rw [size_addState]
    exact Nat.lt_succ_of_lt (h.target_lt hedge)
  · rw [size_addState]
    exact Nat.lt_succ_of_lt (h.graph_lt hq)

theorem addEdge (h : n.WellFormed) {s t : Nat} (ht : t < n.size) (l : Label) :
    (n.addEdge s l t).WellFormed := by
  refine ⟨fun {q l' r} hedge => ?_, fun {q} hq => ?_, h.nodup⟩
  · rw [size_addEdge]
    rcases edge_addEdge.1 hedge with hedge | ⟨-, -, -, rfl⟩
    · exact h.target_lt hedge
    · exact ht
  · rw [size_addEdge]
    exact h.graph_lt hq

/-- The edges and the run alone decide. -/
theorem of_edge_iff (h : n.WellFormed) (hsize : a.size = n.size) (hgraph : a.graph = n.graph)
    (hedge : ∀ q l r, a.Edge q l r ↔ n.Edge q l r) : a.WellFormed :=
  { target_lt := fun h' => hsize ▸ h.target_lt ((hedge _ _ _).1 h')
    graph_lt := fun h' => hsize ▸ h.graph_lt (hgraph ▸ h')
    nodup := hgraph ▸ h.nodup }

theorem accept (h : n.WellFormed) (s : Nat) (o : Owner) : (n.accept s o).WellFormed :=
  h.of_edge_iff (size_accept n s o) rfl fun _ _ _ => edge_accept

theorem release (h : n.WellFormed) (s : Nat) : (n.release s).WellFormed :=
  h.of_edge_iff (size_release n s) rfl fun _ _ _ => edge_release

theorem acceptExit (h : n.WellFormed) (o : Owner) : (n.acceptExit o).WellFormed :=
  h.of_edge_iff (size_acceptExit n o) (graph_acceptExit n o) fun _ _ _ => edge_acceptExit

theorem releaseExit (h : n.WellFormed) : n.releaseExit.WellFormed :=
  h.of_edge_iff (size_releaseExit n) (graph_releaseExit n) fun _ _ _ => edge_releaseExit

theorem bare (n : Nfa) : n.bare.WellFormed := by
  refine ⟨fun {i l j} hedge => ?_, fun {i} hi => ?_, List.nodup_range⟩
  · obtain ⟨q, r, -, -, hj⟩ := edge_bare.1 hedge
    rw [size_bare]
    exact (List.idxOf?_eq_some_iff.1 hj).1
  · rw [size_bare]
    exact List.mem_range.1 hi

theorem beside (ha : a.WellFormed) (hb : b.WellFormed) : (a.beside b).WellFormed := by
  refine ⟨fun {q l r} hedge => ?_, fun {q} hq => ?_, List.nodup_append.2
    ⟨ha.nodup, hb.nodup.map fun _ _ h => Nat.add_right_cancel h, fun p hp q hq => ?_⟩⟩
  · rw [size_beside]
    rcases edge_beside.1 hedge with hleft | ⟨p, t, -, rfl, hright⟩
    · exact Nat.lt_add_right _ (ha.target_lt hleft)
    · have := hb.target_lt hright
      omega
  · rw [size_beside]
    rcases List.mem_append.1 hq with hq | hq
    · exact Nat.lt_add_right _ (ha.graph_lt hq)
    · obtain ⟨p, hp, rfl⟩ := List.mem_map.1 hq
      have := hb.graph_lt hp
      omega
  · obtain ⟨t, -, rfl⟩ := List.mem_map.1 hq
    have := ha.graph_lt hp
    show p ≠ t + a.size
    omega

theorem withGraph (h : n.WellFormed) {graph : Run Nat} (hgraph : ∀ q ∈ graph, q < n.size)
    (hnodup : graph.Nodup) : ({ n with graph } : Nfa).WellFormed :=
  ⟨h.target_lt, fun hq => hgraph _ hq, hnodup⟩

theorem copyInto (hn : n.WellFormed) (source : Nfa) : (n.copyInto source).1.WellFormed := by
  refine (hn.beside (bare source)).withGraph (fun q hq => ?_) hn.nodup
  rw [size_beside]
  exact Nat.lt_add_right _ (hn.graph_lt hq)

theorem oneOf (labels : List Label) : (oneOf labels).WellFormed := by
  refine ⟨fun {q l r} hedge => ?_, fun {q} hq => ?_, by simp⟩
  · obtain ⟨-, rfl, -⟩ := edge_oneOf.1 hedge
    rw [size_oneOf]
    omega
  · simp only [graph_oneOf, List.mem_cons, List.not_mem_nil, or_false] at hq
    rw [size_oneOf]
    omega

theorem enclose (h : n.WellFormed) : n.enclose.WellFormed := by
  refine ⟨fun {q l r} hedge => ?_, fun {q} hq => ?_, ?_⟩
  · rw [size_enclose]
    exact Nat.lt_add_right _ (h.target_lt (edge_enclose.1 hedge))
  · rw [graph_enclose, List.cons_append, List.mem_cons, List.mem_append, List.mem_singleton] at hq
    rw [size_enclose]
    rcases hq with rfl | hq | rfl
    · omega
    · exact Nat.lt_add_right _ (h.graph_lt hq)
    · omega
  · have hentry : n.size ∉ n.graph := fun hq => Nat.lt_irrefl _ (h.graph_lt hq)
    have hexit : n.size + 1 ∉ n.graph := fun hq => by
      have := h.graph_lt hq
      omega
    rw [graph_enclose, List.cons_append, List.nodup_cons, List.mem_append, List.mem_singleton,
      List.nodup_append]
    refine ⟨by simp [hentry], h.nodup, List.nodup_singleton _, fun p hp q hq => ?_⟩
    obtain rfl := List.mem_singleton.1 hq
    exact fun heq => hexit (heq ▸ hp)

theorem through (h : n.WellFormed) {start stop : Nat} {branch : Run Nat} (hstop : stop < n.size)
    (hbranch : ∀ q ∈ branch, q < n.size) : (n.through start stop branch).WellFormed := by
  rw [Nfa.through]
  split
  · next first last hfirst hlast =>
    refine (h.addEdge (hbranch first (List.mem_of_mem_head? hfirst)) _).addEdge ?_ _
    rw [size_addEdge]
    exact hstop
  · exact h

theorem concat (ha : a.WellFormed) (hb : b.WellFormed) : (a.concat b).WellFormed := by
  rw [Nfa.concat]
  split
  · next last first _ hfirst =>
    refine (ha.beside hb).addEdge ?_ _
    have := hb.entry_lt hfirst
    rw [size_beside]
    omega
  · exact ha.beside hb

theorem union (ha : a.WellFormed) (hb : b.WellFormed) : (a.union b).WellFormed := by
  have hboth := ha.beside hb
  refine (hboth.enclose.through ?_ fun q hq => ?_).through ?_ fun q hq => ?_
  · rw [size_enclose]
    omega
  · rw [size_enclose, size_beside]
    have := ha.graph_lt hq
    omega
  · rw [size_through, size_enclose]
    omega
  · rw [size_through, size_enclose]
    exact Nat.lt_add_right _ (hboth.graph_lt (List.mem_append_right _ hq))

theorem passed (h : n.WellFormed) (skip : Bool) : (n.passed skip).WellFormed := by
  rw [Nfa.passed]
  split
  · refine (h.enclose.addEdge ?_ _).through ?_ fun q hq => ?_
    · rw [size_enclose]
      omega
    · rw [size_addEdge, size_enclose]
      omega
    · rw [size_addEdge, size_enclose]
      exact Nat.lt_add_right _ (h.graph_lt hq)
  · refine h.enclose.through ?_ fun q hq => ?_
    · rw [size_enclose]
      omega
    · rw [size_enclose]
      exact Nat.lt_add_right _ (h.graph_lt hq)

theorem iterate (h : n.WellFormed) (skip again : Bool) : (n.iterate skip again).WellFormed := by
  rw [iterate_eq]
  split
  · next hfirst =>
    refine (h.passed skip).addEdge ?_ _
    rw [size_passed]
    exact Nat.lt_add_right _ (h.entry_lt hfirst)
  · exact h.passed skip

theorem automaton (lookup : String → Option Nfa) (r : Regex) :
    (r.automaton lookup).WellFormed := by
  induction r with
  | oneOf labels => exact oneOf labels
  | embed name => exact bare _
  | concat a b ha hb => exact ha.concat hb
  | alt a b ha hb => exact ha.union hb
  | star a ha | plus a ha | optional a ha => exact ha.iterate _ _

theorem compile {lookup : String → Option Nfa} {text : String}
    (h : Regex.compile lookup text = .ok n) : n.WellFormed := by
  obtain ⟨r, -, rfl⟩ := map_eq_ok_iff.1 h
  exact automaton lookup r

theorem merge {p other : Pattern} (hp : p.nfa.WellFormed) : (p.merge other).nfa.WellFormed := by
  rw [Pattern.merge]
  split
  · exact hp
  · exact (hp.releaseExit.union (bare _)).acceptExit _

theorem joinOne (h : n.WellFormed) (p : Pattern) : (Patterns.joinOne n p).WellFormed := by
  have hboth := h.beside (bare p.nfa)
  rw [Patterns.joinOne]
  split
  · next first hfirst =>
    refine (hboth.addEdge ?_ _).acceptExit _
    have := (bare p.nfa).entry_lt hfirst
    rw [size_beside]
    omega
  · exact hboth

/-- The common entry of joined patterns, alone. -/
theorem root : ({ states := #[{}], graph := [0] } : Nfa).WellFormed :=
  empty.addState.withGraph (fun q hq => by
    obtain rfl := List.mem_singleton.1 hq
    decide) (List.nodup_singleton 0)

theorem joined (patterns : List Pattern) : (Patterns.joined patterns).WellFormed := by
  rw [Patterns.joined]
  have hroot := root
  generalize ({ states := #[{}], graph := [0] } : Nfa) = n at hroot ⊢
  induction patterns.filter fun p => !p.definition.internal generalizing n with
  | nil => exact hroot
  | cons p patterns ih => exact ih _ (hroot.joinOne p)

end WellFormed

/-! ## Ways to come by an automaton -/

/-- The automata that can be built. -/
inductive Built : Nfa → Prop
  /-- The automaton without states. -/
  | empty : Built .empty
  /-- The automaton of a regular expression, in which built automata may be embedded. -/
  | compile {lookup : String → Option Nfa} {text : String} {n : Nfa}
      (hlookup : ∀ name m, lookup name = some m → Built m)
      (h : Regex.compile lookup text = .ok n) : Built n
  /-- The automaton of a pattern. -/
  | pattern {lookup : String → Option Nfa} {d : Definition} {p : Pattern}
      (hlookup : ∀ name m, lookup name = some m → Built m)
      (h : Pattern.compile lookup d = .ok p) : Built p.nfa
  /-- The automaton of a pattern after another is merged into it. -/
  | merge {p other : Pattern} (hp : Built p.nfa) (hother : Built other.nfa) :
      Built (p.merge other).nfa
  /-- The automaton that joins patterns. -/
  | joined {patterns : List Pattern} (h : ∀ p ∈ patterns, Built p.nfa) :
      Built (Patterns.joined patterns)
  /-- A new state. -/
  | addState {n : Nfa} (h : Built n) : Built n.addState
  /-- A new edge between states of the arena. -/
  | addEdge {n : Nfa} (h : Built n) {s t : Nat} (hs : s < n.size) (ht : t < n.size) (l : Label) :
      Built (n.addEdge s l t)
  /-- Another owner of a state. -/
  | accept {n : Nfa} (h : Built n) {s : Nat} (hs : s < n.size) (o : Owner) : Built (n.accept s o)
  /-- A state that accepts no longer. -/
  | release {n : Nfa} (h : Built n) {s : Nat} (hs : s < n.size) : Built (n.release s)
  /-- A copy of another automaton beside the states there are. -/
  | copyInto {n source : Nfa} (h : Built n) (hsource : Built source) : Built (n.copyInto source).1

theorem Built.wellFormed (h : n.Built) : n.WellFormed := by
  induction h with
  | empty => exact .empty
  | compile _ h => exact .compile h
  | pattern _ h =>
    obtain ⟨plain, hplain, h⟩ := bind_eq_ok_iff.1 h
    split at h
    · cases h
    · cases h
      exact (WellFormed.compile hplain).acceptExit _
  | merge _ _ hp => exact hp.merge
  | joined => exact .joined _
  | addState _ ih => exact ih.addState
  | addEdge _ _ ht l ih => exact ih.addEdge ht l
  | accept _ _ o ih => exact ih.accept _ o
  | release _ _ ih => exact ih.release _
  | copyInto _ _ ih => exact ih.copyInto _

end Nfa

end Predictive
