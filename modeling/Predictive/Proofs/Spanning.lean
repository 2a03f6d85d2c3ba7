import Predictive.Proofs.MasterAutomaton

/-!
# Automata from one end to the other

An automaton spans from its entry to its exit (`Nfa.Spans`) if its run lists every state of the arena
once, no edge leads back to the entry or on from the exit, and every state is reached from the entry.
Each construction keeps this, in the arena that it shares between its parts. So the automata of
expressions span, those of patterns, and the one that joins the patterns of a set.
-/

namespace Predictive

namespace Nfa

variable {n a b : Nfa} {first last fa la fb lb : Nat}

/-- The automaton goes from `first` to `last`: its run lists each state of the arena once, between
these two, no edge leads to the first or from the last, and all states are reached from the first. -/
structure Spans (n : Nfa) (first last : Nat) : Prop where
  wellFormed : n.WellFormed
  full : n.Full
  ends : n.Ends first last
  no_edge_to : ∀ q l, ¬ n.Edge q l first
  no_edge_from : ∀ l r, ¬ n.Edge last l r
  reached : ∀ q < n.size, ∃ cs, n.Path first cs q

namespace Spans

theorem first_lt (h : n.Spans first last) : first < n.size := h.wellFormed.graph_lt h.ends.first_mem

theorem last_lt (h : n.Spans first last) : last < n.size := h.wellFormed.graph_lt h.ends.last_mem

/-! ## Constructions -/

theorem oneOf {labels : List Label} (h : labels ≠ []) : (oneOf labels).Spans 0 1 where
  wellFormed := .oneOf labels
  full := .oneOf labels
  ends := ends_oneOf labels
  no_edge_to q l hedge := absurd (edge_oneOf.1 hedge).2.1 (by decide)
  no_edge_from l r hedge := absurd (edge_oneOf.1 hedge).1 (by decide)
  reached q hq := by
    rw [size_oneOf] at hq
    obtain rfl | rfl : q = 0 ∨ q = 1 := by omega
    · exact ⟨[], .refl 0⟩
    · obtain ⟨l, hl⟩ := List.exists_mem_of_ne_nil labels h
      obtain ⟨cs, hcs⟩ := l.exists_spells
      exact ⟨cs ++ [], (Path.refl 1).cons (edge_oneOf.2 ⟨rfl, rfl, hl⟩) hcs⟩

theorem bare (h : n.Spans first last) : n.bare.Spans 0 (n.graph.length - 1) := by
  have hfirst : n.graph[0]? = some first := List.head?_eq_getElem? ▸ h.ends.entry
  have hlast : n.graph[n.graph.length - 1]? = some last := List.getLast?_eq_getElem? ▸ h.ends.exit
  refine ⟨.bare n, .bare n, ends_bare h.ends, fun i l hedge => ?_, fun l j hedge => ?_,
    fun i hi => ?_⟩
  · obtain ⟨q, r, -, hqr, hr⟩ := edge_bare.1 hedge
    obtain ⟨hlt, rfl, -⟩ := List.idxOf?_eq_some_iff.1 hr
    rw [List.getElem?_eq_getElem hlt, Option.some.injEq] at hfirst
    exact h.no_edge_to q l (hfirst ▸ hqr)
  · obtain ⟨q, r, hq, hqr, -⟩ := edge_bare.1 hedge
    obtain rfl := Option.some.inj (hq.symm.trans hlast)
    exact h.no_edge_from l r hqr
  · rw [size_bare] at hi
    obtain ⟨cs, hpath⟩ := h.reached _ (h.wellFormed.graph_lt (List.getElem_mem hi))
    exact ⟨cs, (path_bare_iff h.wellFormed.nodup hfirst (List.getElem?_eq_getElem hi)).2
      ((runPath_iff_path h.wellFormed h.full).2 hpath)⟩

theorem concat (ha : a.Spans fa la) (hb : b.Spans fb lb) :
    (a.concat b).Spans fa (lb + a.size) := by
  have hfa := ha.first_lt
  have hla := ha.last_lt
  have hedge (q : Nat) (l : Label) (r : Nat) : (a.concat b).Edge q l r ↔ _ :=
    edge_concat ha.ends hb.ends hla
  refine ⟨ha.wellFormed.concat hb.wellFormed, ha.full.concat hb.full, ha.ends.concat hb.ends,
    fun q l hqr => ?_, fun l r hqr => ?_, fun q hq => ?_⟩
  · rcases (hedge q l fa).1 hqr with hqr | ⟨-, -, hr⟩
    · rcases edge_beside.1 hqr with hqr | ⟨p, t, -, hr, -⟩
      · exact ha.no_edge_to q l hqr
      · omega
    · omega
  · rcases (hedge (lb + a.size) l r).1 hqr with hqr | ⟨hq, -⟩
    · rcases edge_beside.1 hqr with hqr | ⟨p, t, hq, -, hpt⟩
      · have := hqr.source_lt
        omega
      · obtain rfl : lb = p := by omega
        exact hb.no_edge_from l t hpt
    · omega
  · rw [size_concat] at hq
    by_cases hlt : q < a.size
    · obtain ⟨us, hus⟩ := ha.reached q hlt
      exact ⟨us, path_concat ha.ends hb.ends hla (path_beside_left hus)⟩
    · obtain ⟨p, rfl⟩ : ∃ p, q = p + a.size := ⟨q - a.size, by omega⟩
      obtain ⟨us, hus⟩ := ha.reached la hla
      obtain ⟨vs, hvs⟩ := hb.reached p (by omega)
      have hlink := (hedge la .epsilon (fb + a.size)).2 (.inr ⟨rfl, rfl, rfl⟩)
      exact ⟨us ++ vs, (path_concat ha.ends hb.ends hla (path_beside_left hus)).append
        (.skip hlink (path_concat ha.ends hb.ends hla (path_beside_right hvs)))⟩

theorem union (ha : a.Spans fa la) (hb : b.Spans fb lb) :
    (a.union b).Spans (a.size + b.size) (a.size + b.size + 1) := by
  have hfa := ha.first_lt
  have hla := ha.last_lt
  have hfb := hb.first_lt
  have hlb := hb.last_lt
  have hedge (q : Nat) (l : Label) (r : Nat) : (a.union b).Edge q l r ↔ _ :=
    edge_union ha.ends hb.ends hla hlb
  have hleft (q : Nat) (hq : q < a.size) : ∃ cs, (a.union b).Path (a.size + b.size) cs q := by
    obtain ⟨cs, hpath⟩ := ha.reached q hq
    exact ⟨cs, .skip ((hedge _ _ fa).2 (.inr ⟨rfl, .inl ⟨rfl, .inl rfl⟩⟩))
      (path_union ha.ends hb.ends hla hlb (path_beside_left hpath))⟩
  have hwf := ha.wellFormed.beside hb.wellFormed
  refine ⟨ha.wellFormed.union hb.wellFormed, ha.full.union hb.full, ends_union,
    fun q l hqr => ?_, fun l r hqr => ?_, fun q hq => ?_⟩
  · rcases (hedge q l _).1 hqr with hqr | ⟨-, hr⟩
    · have := hwf.target_lt hqr
      rw [size_beside] at this
      omega
    · omega
  · rcases (hedge _ l r).1 hqr with hqr | ⟨-, hq⟩
    · have := hqr.source_lt
      rw [size_beside] at this
      omega
    · omega
  · rw [size_union] at hq
    by_cases hlt : q < a.size
    · exact hleft q hlt
    by_cases hlt' : q < a.size + b.size
    · obtain ⟨p, rfl⟩ : ∃ p, q = p + a.size := ⟨q - a.size, by omega⟩
      obtain ⟨cs, hpath⟩ := hb.reached p (by omega)
      exact ⟨cs, .skip ((hedge _ _ (fb + a.size)).2 (.inr ⟨rfl, .inl ⟨rfl, .inr rfl⟩⟩))
        (path_union ha.ends hb.ends hla hlb (path_beside_right hpath))⟩
    obtain rfl | rfl : q = a.size + b.size ∨ q = a.size + b.size + 1 := by omega
    · exact ⟨[], .refl _⟩
    · obtain ⟨cs, hpath⟩ := hleft la hla
      exact ⟨cs, hpath.step ((hedge _ _ _).2 (.inr ⟨rfl, .inr ⟨.inl rfl, rfl⟩⟩))⟩

theorem iterate (h : n.Spans first last) (skip again : Bool) :
    (n.iterate skip again).Spans n.size (n.size + 1) := by
  have hfirst := h.first_lt
  have hlast := h.last_lt
  have hedge (q : Nat) (l : Label) (r : Nat) : (n.iterate skip again).Edge q l r ↔ _ :=
    edge_iterate h.ends hlast
  have hinner (q : Nat) (hq : q < n.size) : ∃ cs, (n.iterate skip again).Path n.size cs q := by
    obtain ⟨cs, hpath⟩ := h.reached q hq
    exact ⟨cs, .skip ((hedge _ _ first).2 (.inr ⟨rfl, .inl ⟨rfl, .inl rfl⟩⟩))
      (path_iterate h.ends hlast hpath)⟩
  refine ⟨h.wellFormed.iterate skip again, h.full.iterate skip again, ends_iterate skip again n,
    fun q l hqr => ?_, fun l r hqr => ?_, fun q hq => ?_⟩
  · rcases (hedge q l _).1 hqr with hqr | ⟨-, hr⟩
    · exact Nat.lt_irrefl _ (h.wellFormed.target_lt hqr)
    · omega
  · rcases (hedge _ l r).1 hqr with hqr | ⟨-, hq⟩
    · have := hqr.source_lt
      omega
    · omega
  · rw [size_iterate] at hq
    by_cases hlt : q < n.size
    · exact hinner q hlt
    obtain rfl | rfl : q = n.size ∨ q = n.size + 1 := by omega
    · exact ⟨[], .refl _⟩
    · obtain ⟨cs, hpath⟩ := hinner last hlast
      exact ⟨cs, hpath.step ((hedge _ _ _).2 (.inr ⟨rfl, .inr ⟨rfl, .inl rfl⟩⟩))⟩

/-- The edges and the run alone decide. -/
theorem of_edge_iff (h : n.Spans first last) (hsize : a.size = n.size) (hgraph : a.graph = n.graph)
    (hedge : ∀ q l r, a.Edge q l r ↔ n.Edge q l r) : a.Spans first last where
  wellFormed := h.wellFormed.of_edge_iff hsize hgraph hedge
  full q hq := hgraph ▸ h.full q (hsize ▸ hq)
  ends := ⟨by rw [entry_eq_head?, hgraph]; exact h.ends.entry,
    by rw [exit_eq_getLast?, hgraph]; exact h.ends.exit⟩
  no_edge_to q l hqr := h.no_edge_to q l ((hedge q l first).1 hqr)
  no_edge_from l r hqr := h.no_edge_from l r ((hedge last l r).1 hqr)
  reached q hq := by
    obtain ⟨cs, hpath⟩ := h.reached q (hsize ▸ hq)
    exact ⟨cs, hpath.mono fun q l r => (hedge q l r).2⟩

theorem acceptExit (h : n.Spans first last) (o : Owner) : (n.acceptExit o).Spans first last :=
  h.of_edge_iff (size_acceptExit n o) (graph_acceptExit n o) fun _ _ _ => edge_acceptExit

theorem releaseExit (h : n.Spans first last) : n.releaseExit.Spans first last :=
  h.of_edge_iff (size_releaseExit n) (graph_releaseExit n) fun _ _ _ => edge_releaseExit

end Spans

end Nfa

/-! ## Expressions -/

/-- The automaton of an expression spans if those embedded do. -/
theorem Regex.exists_spans {lookup : String → Option Nfa}
    (hlookup : ∀ name m, lookup name = some m → ∃ first last, m.Spans first last) {r : Regex}
    (hproper : r.Proper fun name => (lookup name).isSome) (hpopulated : r.Populated) :
    ∃ first last, (r.automaton lookup).Spans first last := by
  induction r with
  | oneOf labels => exact ⟨0, 1, .oneOf hpopulated⟩
  | embed name =>
    obtain ⟨m, hm⟩ := Option.isSome_iff_exists.1 hproper
    obtain ⟨first, last, hspans⟩ := hlookup name m hm
    rw [automaton, hm]
    exact ⟨_, _, hspans.bare⟩
  | concat a b iha ihb =>
    obtain ⟨fa, la, ha⟩ := iha hproper.1 hpopulated.1
    obtain ⟨fb, lb, hb⟩ := ihb hproper.2 hpopulated.2
    exact ⟨_, _, ha.concat hb⟩
  | alt a b iha ihb =>
    obtain ⟨fa, la, ha⟩ := iha hproper.1 hpopulated.1
    obtain ⟨fb, lb, hb⟩ := ihb hproper.2 hpopulated.2
    exact ⟨_, _, ha.union hb⟩
  | star a iha | plus a iha | optional a iha =>
    obtain ⟨first, last, ha⟩ := iha hproper hpopulated
    exact ⟨_, _, ha.iterate _ _⟩

/-! ## Patterns -/

namespace Pattern

variable {p other : Pattern} {first last : Nat}

/-- The automaton of the pattern goes from `first` to `last`, and accepts at its last state only, on
behalf of the pattern. -/
structure Spans (p : Pattern) (first last : Nat) : Prop where
  nfa : p.nfa.Spans first last
  mem_owners : ∀ q o, o ∈ (p.nfa.state q).owners ↔ q = last ∧ o = p.definition.owner

/-- What lets an automaton that accepts nothing accept at its exit spans as that does. -/
theorem spans_of_acceptExit {n : Nfa} (hn : n.Spans first last)
    (howners : ∀ q, (n.state q).owners = ∅)
    (hnfa : p.nfa = n.acceptExit p.definition.owner) : p.Spans first last where
  nfa := hnfa ▸ hn.acceptExit _
  mem_owners q o := by
    rw [hnfa, Nfa.mem_owners_acceptExit hn.wellFormed howners, hn.ends.exit, Option.some.injEq,
      eq_comm]

theorem exists_spans_of_compile {lookup : String → Option Nfa}
    (hlookup : ∀ name m, lookup name = some m → ∃ first last, m.Spans first last) {d : Definition}
    (h : compile lookup d = .ok p) : ∃ first last, p.Spans first last := by
  obtain ⟨r, hwritten, rfl, hnfa, -⟩ := exists_regex_of_compile h
  obtain ⟨first, last, hspans⟩ := Regex.exists_spans hlookup hwritten.proper hwritten.populated
  exact ⟨first, last, spans_of_acceptExit hspans (Regex.owners_automaton lookup r) hnfa⟩

/-- The merged pattern spans, and is the only owner at its new exit. -/
theorem Spans.merge {fo lo : Nat} (h : p.Spans first last) (hother : other.Spans fo lo) :
    ∃ first last, (p.merge other).Spans first last := by
  have howners := Nfa.owners_union
    (Nfa.owners_releaseExit h.nfa.ends.exit fun q o ho => ((h.mem_owners q o).1 ho).1)
    (Nfa.owners_bare other.nfa)
  rw [merge_eq h.nfa.ends.ne_nil hother.nfa.ends.ne_nil]
  exact ⟨_, _, spans_of_acceptExit (h.nfa.releaseExit.union hother.nfa.bare) howners rfl⟩

end Pattern

/-- All patterns that are defined span. -/
theorem Patterns.Defined.exists_spans {patterns : List Pattern} (h : Defined patterns) :
    ∀ p ∈ patterns, ∃ first last, p.Spans first last := by
  induction h with
  | nil => exact fun _ hp => absurd hp List.not_mem_nil
  | define _ hdefine ih =>
    obtain ⟨new, hnew, rfl⟩ := map_eq_ok_iff.1 hdefine
    have hlookup := forall_nfa? (P := fun m => ∃ first last, m.Spans first last) fun p hp =>
      let ⟨first, last, hspans⟩ := ih p hp
      ⟨first, last, hspans.nfa⟩
    obtain ⟨fn, ln, hspans⟩ :=
      Pattern.exists_spans_of_compile hlookup (compileNext_eq_ok_iff.1 hnew).2
    exact forall_mem_add ih (fun p ⟨_, _, hp⟩ => hp.merge hspans) ⟨fn, ln, hspans⟩

end Predictive
