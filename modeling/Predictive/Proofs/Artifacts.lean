import Predictive.Proofs.Spanning

/-!
# Automata that are made

What can be made are the automata of expressions, patterns, merged patterns and sets of patterns, and
each may be embedded in the next (`Artifact.Made`). They all span from one end to the other, and accept
where they should: an expression nowhere, a pattern at its last state, and a set at the last states of
the copies of its patterns (`Artifact.Made.spans_and_accepts`).
-/

namespace Predictive

/-! ## Sets of patterns -/

/-- A copy of a pattern in the arena of a set, where its states are numbered from `start` on. -/
structure Copy where
  pattern : Pattern
  start : Nat

/-- The states of the copy, in order. -/
def Copy.run (c : Copy) : Run Nat := c.pattern.nfa.bare.graph.map (· + c.start)

/-- The automaton is made of copies behind a common entry. Its edges are those from the entry to each
copy and those of the patterns between the states of their copies, and it accepts at the last state of
each copy, on behalf of the pattern. -/
structure Nfa.MadeOf (n : Nfa) (copies : List Copy) : Prop where
  graph : n.graph = 0 :: copies.flatMap Copy.run
  edge : ∀ q l r, n.Edge q l r ↔
    (q = 0 ∧ l = .epsilon ∧ ∃ c ∈ copies, c.run.head? = some r) ∨
      ∃ c ∈ copies, ∃ i j, q = i + c.start ∧ r = j + c.start ∧ c.pattern.nfa.bare.Edge i l j
  owners : ∀ q o, o ∈ (n.state q).owners ↔
    ∃ c ∈ copies, c.run.getLast? = some q ∧ o = c.pattern.definition.owner

namespace Patterns

variable {n : Nfa} {p : Pattern} {copies : List Copy} {last : Nat}

theorem size_joinOne (n : Nfa) (p : Pattern) :
    (joinOne n p).size = n.size + p.nfa.bare.size := by
  unfold joinOne
  split
  · rw [Nfa.size_acceptExit, Nfa.size_addEdge, Nfa.size_beside]
  · rw [Nfa.size_beside]

/-- A copy behind the entry is reached from it, and the exit of the last copy is the exit. -/
theorem exists_spans_joinOne (h : n.Spans 0 last) (hp : p.Sound) {first stop : Nat}
    (hspans : p.nfa.Spans first stop) : ∃ last, (joinOne n p).Spans 0 last := by
  have hsize := h.first_lt
  have hcopy := hspans.bare
  obtain ⟨first, stop, hadds⟩ := exists_adds hp hsize
  obtain rfl := Option.some.inj (hadds.ends.entry.symm.trans hcopy.ends.entry)
  obtain rfl := Option.some.inj (hadds.ends.exit.symm.trans hcopy.ends.exit)
  refine ⟨p.nfa.graph.length - 1 + n.size, h.wellFormed.joinOne p, fun q hq => ?_,
    ⟨entry_joinOne h.ends.entry p, ?_⟩, fun q l hqr => ?_, fun l r hqr => ?_, fun q hq => ?_⟩
  · rw [size_joinOne, ← Nfa.size_beside] at hq
    rw [graph_joinOne, ← Nfa.graph_beside]
    exact h.full.beside hcopy.full q hq
  · rw [Nfa.exit_eq_getLast?, graph_joinOne, List.getLast?_append, List.getLast?_map,
      ← Nfa.exit_eq_getLast?, hcopy.ends.exit]
    rfl
  · rcases (hadds.edge q l 0).1 hqr with hqr | ⟨-, -, hr⟩
    · rcases Nfa.edge_beside.1 hqr with hqr | ⟨i, j, -, hr, -⟩
      · exact h.no_edge_to q l hqr
      · omega
    · omega
  · rcases (hadds.edge _ l r).1 hqr with hqr | ⟨hq, -⟩
    · rcases Nfa.edge_beside.1 hqr with hqr | ⟨i, j, hq, -, hij⟩
      · have := hqr.source_lt
        omega
      · obtain rfl : p.nfa.graph.length - 1 = i := by omega
        exact hcopy.no_edge_from l j hij
    · omega
  · rw [size_joinOne] at hq
    by_cases hlt : q < n.size
    · obtain ⟨cs, hpath⟩ := h.reached q hlt
      exact ⟨cs, hadds.path hpath⟩
    · obtain ⟨i, rfl⟩ : ∃ i, q = i + n.size := ⟨q - n.size, by omega⟩
      obtain ⟨cs, hpath⟩ := hcopy.reached i (by omega)
      exact ⟨cs, hadds.path_copy hpath⟩

/-- One more copy is added behind those there are. -/
theorem madeOf_joinOne (h : n.MadeOf copies) (hp : p.Sound) (hsize : 0 < n.size) :
    (joinOne n p).MadeOf (copies ++ [{ pattern := p, start := n.size }]) := by
  obtain ⟨first, stop, hends, hedge, howners⟩ := exists_adds hp hsize
  have hhead : (Copy.run { pattern := p, start := n.size }).head? = some (first + n.size) := by
    rw [Copy.run, List.head?_map, ← Nfa.entry_eq_head?, hends.entry]
    rfl
  have hlast : (Copy.run { pattern := p, start := n.size }).getLast? = some (stop + n.size) := by
    rw [Copy.run, List.getLast?_map, ← Nfa.exit_eq_getLast?, hends.exit]
    rfl
  refine ⟨?_, fun q l r => ?_, fun q o => ?_⟩
  · rw [graph_joinOne, h.graph]
    simp [Copy.run]
  · rw [hedge, Nfa.edge_beside, h.edge]
    simp only [List.mem_append, List.mem_singleton, or_and_right, exists_or, exists_eq_left, hhead,
      Option.some.injEq]
    constructor
    · rintro (((⟨hq, hl, hentry⟩ | hinner) | hcopy) | ⟨hq, hl, hr⟩)
      · exact .inl ⟨hq, hl, .inl hentry⟩
      · exact .inr (.inl hinner)
      · exact .inr (.inr hcopy)
      · exact .inl ⟨hq, hl, .inr hr.symm⟩
    · rintro (⟨hq, hl, hentry | hr⟩ | hinner | hcopy)
      · exact .inl (.inl (.inl ⟨hq, hl, hentry⟩))
      · exact .inr ⟨hq, hl, hr.symm⟩
      · exact .inl (.inl (.inr hinner))
      · exact .inl (.inr hcopy)
  · rw [howners, h.owners]
    simp only [List.mem_append, List.mem_singleton, or_and_right, exists_or, exists_eq_left, hlast,
      Option.some.injEq]
    exact or_congr_right (and_congr_left fun _ => eq_comm)

/-- The common entry alone. -/
theorem spans_root : ({ states := #[{}], graph := [0] } : Nfa).Spans 0 0 ∧
    ({ states := #[{}], graph := [0] } : Nfa).MadeOf [] := by
  have hstate : ∀ q, ({ states := #[{}], graph := [0] } : Nfa).state q = {} := by
    intro q
    match q with
    | 0 | _ + 1 => rfl
  have hedge : ∀ q l r, ¬ ({ states := #[{}], graph := [0] } : Nfa).Edge q l r := by
    intro q l r h
    rw [Nfa.Edge, hstate] at h
    exact absurd h List.not_mem_nil
  have hzero : ∀ q < ({ states := #[{}], graph := [0] } : Nfa).size, q = 0 := fun q hq =>
    Nat.lt_one_iff.1 hq
  refine ⟨⟨.root, fun q hq => ?_, ⟨rfl, rfl⟩, fun q l => hedge q l 0, fun l r => hedge 0 l r,
    fun q hq => ?_⟩, rfl, fun q l r => ?_, fun q o => ?_⟩
  · obtain rfl := hzero q hq
    exact List.mem_singleton_self 0
  · obtain rfl := hzero q hq
    exact ⟨[], .refl 0⟩
  · simp [hedge]
  · simp [hstate]

/-- Joining patterns one by one adds a copy of each. -/
theorem exists_spans_foldl {more : List Pattern} (h : n.Spans 0 last) (hcopies : n.MadeOf copies)
    (hsound : ∀ p ∈ more, p.Sound) (hspans : ∀ p ∈ more, ∃ first last, p.Spans first last) :
    ∃ last added, (more.foldl joinOne n).Spans 0 last ∧ added.map Copy.pattern = more ∧
      (more.foldl joinOne n).MadeOf (copies ++ added) := by
  induction more generalizing n last copies with
  | nil => exact ⟨last, [], h, rfl, by simpa using hcopies⟩
  | cons p more ih =>
    obtain ⟨hp, hsound⟩ := List.forall_mem_cons.1 hsound
    obtain ⟨⟨first, stop, hpspans⟩, hspans⟩ := List.forall_mem_cons.1 hspans
    obtain ⟨next, hnext⟩ := exists_spans_joinOne h hp hpspans.nfa
    obtain ⟨last, added, hlast, hadded, hmade⟩ :=
      ih hnext (madeOf_joinOne hcopies hp h.first_lt) hsound hspans
    refine ⟨last, { pattern := p, start := n.size } :: added, hlast, ?_, by simpa using hmade⟩
    rw [List.map_cons, hadded]

end Patterns

/-- The automaton of a compiled set spans, and is made of a copy of each pattern that gives tokens. -/
theorem PatternSet.Compiled.exists_spans {s : PatternSet} (h : s.Compiled) :
    ∃ last copies, s.nfa.Spans 0 last ∧
      copies.map Copy.pattern = Patterns.tokenPatterns s.patterns ∧ s.nfa.MadeOf copies := by
  obtain ⟨patterns, hdefined, rfl⟩ := h.exists_defined
  obtain ⟨hroot, hnone⟩ := Patterns.spans_root
  exact Patterns.exists_spans_foldl hroot hnone
    (fun p hp => hdefined.sound p (Patterns.mem_tokenPatterns.1 hp).1)
    (fun p hp => hdefined.exists_spans p (Patterns.mem_tokenPatterns.1 hp).1)

/-- No two copies share a state, so each pattern is the only owner of the exit of its copy. -/
theorem Nfa.MadeOf.mem_owners_iff {n : Nfa} {copies : List Copy} (h : n.MadeOf copies)
    (hnodup : n.graph.Nodup) {c : Copy} (hc : c ∈ copies) {q : Nat} (hq : c.run.getLast? = some q)
    (o : Owner) : o ∈ (n.state q).owners ↔ o = c.pattern.definition.owner := by
  rw [h.owners]
  constructor
  · rintro ⟨c', hc', hq', rfl⟩
    rw [h.graph, List.nodup_cons, List.nodup_flatMap] at hnodup
    by_cases heq : c = c'
    · rw [heq]
    · have : Std.Symm (Function.onFun List.Disjoint Copy.run) := ⟨fun _ _ hd => hd.symm⟩
      have hdisjoint := hnodup.2.2.forall hc hc' heq
      exact absurd (List.mem_of_getLast? hq') (hdisjoint (List.mem_of_getLast? hq))
  · rintro rfl
    exact ⟨c, hc, hq, rfl⟩

/-! ## What can be made -/

/-- What is made: the automaton of an expression, a pattern, or a set of patterns. -/
inductive Artifact
  | expression (n : Nfa)
  | pattern (p : Pattern)
  | set (s : PatternSet)

namespace Artifact

/-- The automaton of an artifact. -/
def nfa : Artifact → Nfa
  | expression n => n
  | pattern p => p.nfa
  | set s => s.nfa

/-- The artifacts that can be made. Expressions and patterns made before may be embedded, and with
`sets` also sets. They are kept apart because only the last of the copies in a set leads to its exit,
so that an expression with a set embedded may have states that do not lead to its end. -/
inductive Made (sets : Bool) : Artifact → Prop
  | expression {lookup : String → Option Artifact} {text : String} {n : Nfa} :
      (∀ name a, lookup name = some a → Made sets a) →
      (∀ name s, lookup name = some (.set s) → sets = true) →
      Regex.compile (fun name => (lookup name).map nfa) text = .ok n → Made sets (.expression n)
  | pattern {lookup : String → Option Artifact} {d : Definition} {p : Pattern} :
      (∀ name a, lookup name = some a → Made sets a) →
      (∀ name s, lookup name = some (.set s) → sets = true) →
      Pattern.compile (fun name => (lookup name).map nfa) d = .ok p → Made sets (.pattern p)
  | merge {p other : Pattern} : Made sets (.pattern p) → Made sets (.pattern other) →
      Made sets (.pattern (p.merge other))
  | set {s : PatternSet} : s.Compiled → Made sets (.set s)

/-- Where an artifact accepts, if its automaton goes up to `last`: an expression nowhere, a pattern at
`last` only, and a set at the exits of the copies of its patterns that give tokens, each on behalf of
its pattern alone. -/
def Accepts (last : Nat) : Artifact → Prop
  | expression n => ∀ q, (n.state q).owners = ∅
  | pattern p => ∀ q o, o ∈ (p.nfa.state q).owners ↔ q = last ∧ o = p.definition.owner
  | set s => ∃ copies : List Copy, copies.map Copy.pattern = Patterns.tokenPatterns s.patterns ∧
      s.nfa.MadeOf copies ∧
      (∀ q, (s.nfa.state q).accepting = true ↔ ∃ c ∈ copies, c.run.getLast? = some q) ∧
      ∀ c ∈ copies, ∀ q, c.run.getLast? = some q →
        ∀ o, o ∈ (s.nfa.state q).owners ↔ o = c.pattern.definition.owner

variable {sets : Bool} {a : Artifact}

theorem exists_spans_lookup {lookup : String → Option Artifact}
    (h : ∀ name a, lookup name = some a → ∃ first last, a.nfa.Spans first last ∧ a.Accepts last)
    (name : String) (m : Nfa) (hm : (lookup name).map nfa = some m) :
    ∃ first last, m.Spans first last := by
  obtain ⟨a, ha, rfl⟩ := Option.map_eq_some_iff.1 hm
  obtain ⟨first, last, hspans, -⟩ := h name a ha
  exact ⟨first, last, hspans⟩

theorem Made.exists_spans (h : Made sets a) :
    ∃ first last, a.nfa.Spans first last ∧ a.Accepts last := by
  induction h with
  | expression _ _ hcompile ih =>
    obtain ⟨r, hread, rfl⟩ := map_eq_ok_iff.1 hcompile
    have hwritten := Regex.read_eq_ok_iff.1 hread
    obtain ⟨first, last, hspans⟩ :=
      Regex.exists_spans (exists_spans_lookup ih) hwritten.proper hwritten.populated
    exact ⟨first, last, hspans, Regex.owners_automaton _ r⟩
  | pattern _ _ hcompile ih =>
    obtain ⟨first, last, hspans⟩ :=
      Pattern.exists_spans_of_compile (exists_spans_lookup ih) hcompile
    exact ⟨first, last, hspans.nfa, hspans.mem_owners⟩
  | merge _ _ ihp ihother =>
    obtain ⟨first, last, hp, howners⟩ := ihp
    obtain ⟨fo, lo, hother, howners'⟩ := ihother
    obtain ⟨first, last, hspans⟩ :=
      Pattern.Spans.merge ⟨hp, howners⟩ (⟨hother, howners'⟩ : Pattern.Spans _ fo lo)
    exact ⟨first, last, hspans.nfa, hspans.mem_owners⟩
  | set hcompiled =>
    obtain ⟨last, copies, hspans, hcopies, hmade⟩ := hcompiled.exists_spans
    refine ⟨0, last, hspans, copies, hcopies, hmade, fun q => ?_, fun c hc q hq o => ?_⟩
    · rw [Dfa.accepting_iff]
      simp only [hmade.owners]
      constructor
      · rintro ⟨o, c, hc, hq, -⟩
        exact ⟨c, hc, hq⟩
      · rintro ⟨c, hc, hq⟩
        exact ⟨_, c, hc, hq, rfl⟩
    · exact hmade.mem_owners_iff hspans.wellFormed.nodup hc hq o

theorem Made.whole (h : Made sets a) (hsets : sets = false) (hset : ∀ s, a ≠ .set s) :
    a.nfa.Whole := by
  have hwhole {lookup : String → Option Artifact}
      (hnone : ∀ name s, lookup name = some (.set s) → sets = true)
      (ih : ∀ name a, lookup name = some a → (∀ s, a ≠ .set s) → a.nfa.Whole) (name : String)
      (m : Nfa) (hm : (lookup name).map nfa = some m) : m.Whole := by
    obtain ⟨a, ha, rfl⟩ := Option.map_eq_some_iff.1 hm
    refine ih name a ha fun s hs => ?_
    exact absurd (hnone name s (hs ▸ ha)) (by rw [hsets]; decide)
  induction h with
  | expression _ hnone hcompile ih =>
    obtain ⟨r, hread, rfl⟩ := map_eq_ok_iff.1 hcompile
    have hwritten := Regex.read_eq_ok_iff.1 hread
    exact Regex.whole_automaton (hwhole hnone ih) hwritten.proper hwritten.populated
  | pattern _ hnone hcompile ih => exact (Pattern.sound_of_compile (hwhole hnone ih) hcompile).2.whole
  | merge _ _ ihp ihother =>
    have hp := ihp nofun
    have hother := ihother nofun
    show (Pattern.merge _ _).nfa.Whole
    rw [Pattern.merge_eq hp.graph_ne_nil hother.graph_ne_nil]
    exact (hp.releaseExit.union hother.bare).acceptExit _
  | set => exact absurd rfl (hset _)

end Artifact

end Predictive
