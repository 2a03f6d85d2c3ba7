import Predictive.Proofs.Paths
import Predictive.Proofs.WellFormed
import Mathlib.Computability.Language

/-!
# The languages of automata built from automata

The words of an automaton are the texts read on the way from its entry to its exit (`Nfa.words`).
Each construction has the words of the regular operation that it is for: `words_concat`,
`words_union`, `words_iterate`. A copy has the words read along the run of the automaton that was
copied (`words_bare`).
-/

namespace Predictive

theorem Label.Spells.of_epsilon {cs : List Char} (h : Label.epsilon.Spells cs) : cs = [] := by
  rcases h with ⟨-, rfl⟩ | ⟨c, hreads | hreads, -⟩
  · rfl
  · cases hreads
  · cases hreads

namespace Nfa

open Computability

variable {n a b : Nfa}

/-- The entry and the exit of the finished automaton. -/
structure Ends (n : Nfa) (first last : Nat) : Prop where
  entry : n.entry? = some first
  exit : n.exit? = some last

/-- The texts that paths from the entry to the exit read. -/
def words (n : Nfa) : Language Char :=
  {cs | ∃ first last, n.Ends first last ∧ n.Path first cs last}

/-- There is an edge between states of the run. -/
def RunEdge (n : Nfa) (q : Nat) (l : Label) (r : Nat) : Prop :=
  q ∈ n.graph ∧ r ∈ n.graph ∧ n.Edge q l r

instance (n : Nfa) (q : Nat) (l : Label) (r : Nat) : Decidable (n.RunEdge q l r) :=
  inferInstanceAs (Decidable (_ ∧ _ ∧ _))

/-- The language of the finished automaton: the texts that are read from its entry to its exit along
edges between states of its run. -/
def language (n : Nfa) : Language Char :=
  {cs | ∃ first last, n.Ends first last ∧ Predictive.Path n.RunEdge first cs last}

/-- Every state of the arena is in the run. -/
def Full (n : Nfa) : Prop := ∀ q < n.size, q ∈ n.graph

theorem exists_ends (h : n.graph ≠ []) : ∃ first last, n.Ends first last :=
  ⟨n.graph.head h, n.graph.getLast h, List.head?_eq_some_head h, List.getLast?_eq_some_getLast h⟩

theorem Ends.ne_nil {first last : Nat} (h : n.Ends first last) : n.graph ≠ [] := by
  intro hnil
  have := h.entry
  rw [entry_eq_head?, hnil] at this
  cases this

/-- Nothing is read from the entry to the exit where there is neither. -/
theorem words_eq_zero (h : n.graph = []) : n.words = 0 :=
  Set.eq_empty_of_forall_notMem fun _ ⟨_, _, hends, _⟩ => hends.ne_nil h

theorem language_eq_zero (h : n.graph = []) : n.language = 0 :=
  Set.eq_empty_of_forall_notMem fun _ ⟨_, _, hends, _⟩ => hends.ne_nil h

theorem Ends.mem_words {first last : Nat} (h : n.Ends first last) {cs : List Char} :
    cs ∈ n.words ↔ n.Path first cs last := by
  constructor
  · rintro ⟨first', last', h', hpath⟩
    obtain rfl : first = first' := Option.some.inj (h.entry.symm.trans h'.entry)
    obtain rfl : last = last' := Option.some.inj (h.exit.symm.trans h'.exit)
    exact hpath
  · exact fun hpath => ⟨first, last, h, hpath⟩

theorem Ends.first_mem {first last : Nat} (h : n.Ends first last) : first ∈ n.graph :=
  List.mem_of_mem_head? h.entry

theorem Ends.last_mem {first last : Nat} (h : n.Ends first last) : last ∈ n.graph :=
  List.mem_of_getLast? h.exit

/-- Where every state is in the run, all paths go along it. -/
theorem runPath_iff_path (hn : n.WellFormed) (hfull : n.Full) {q r : Nat} {cs : List Char} :
    Predictive.Path n.RunEdge q cs r ↔ n.Path q cs r := by
  constructor
  · exact fun hpath => hpath.mono fun _ _ _ hedge => hedge.2.2
  · exact fun hpath => hpath.mono fun q l r hedge =>
      ⟨hfull q hedge.source_lt, hfull r (hn.target_lt hedge), hedge⟩

/-- Where every state is in the run, all paths from the entry to the exit count. -/
theorem language_eq_words (hn : n.WellFormed) (hfull : n.Full) : n.language = n.words := by
  ext cs
  exact exists_congr fun first => exists_congr fun last => and_congr_right fun _ =>
    runPath_iff_path hn hfull

/-! ## Runs of all states -/

namespace Full

theorem oneOf (labels : List Label) : (oneOf labels).Full := by
  intro q hq
  rw [size_oneOf] at hq
  rw [graph_oneOf, List.mem_cons, List.mem_singleton]
  omega

theorem bare (n : Nfa) : n.bare.Full := by
  intro q hq
  rw [size_bare] at hq
  exact List.mem_range.2 hq

theorem beside (ha : a.Full) (hb : b.Full) : (a.beside b).Full := by
  intro q hq
  rw [size_beside] at hq
  rw [graph_beside, List.mem_append, List.mem_map]
  by_cases h : q < a.size
  · exact .inl (ha q h)
  · exact .inr ⟨q - a.size, hb _ (by omega), by omega⟩

theorem concat (ha : a.Full) (hb : b.Full) : (a.concat b).Full := by
  intro q hq
  rw [size_concat, ← size_beside] at hq
  rw [graph_concat, ← graph_beside]
  exact ha.beside hb q hq

theorem union (ha : a.Full) (hb : b.Full) : (a.union b).Full := by
  intro q hq
  rw [size_union, ← size_beside] at hq
  rw [graph_union, ← graph_beside, ← size_beside, List.cons_append, List.mem_cons, List.mem_append,
    List.mem_singleton]
  by_cases h : q < (a.beside b).size
  · exact .inr (.inl (ha.beside hb q h))
  · omega

theorem iterate (h : n.Full) (skip again : Bool) : (n.iterate skip again).Full := by
  intro q hq
  rw [size_iterate] at hq
  rw [graph_iterate, List.cons_append, List.mem_cons, List.mem_append, List.mem_singleton]
  by_cases hlt : q < n.size
  · exact .inr (.inl (h q hlt))
  · omega

end Full

/-! ## One character -/

theorem ends_oneOf (labels : List Label) : (oneOf labels).Ends 0 1 := ⟨rfl, rfl⟩

theorem words_oneOf {labels : List Label} (hlabels : .epsilon ∉ labels) :
    (oneOf labels).words = {cs | ∃ c, ∃ l ∈ labels, cs = [c] ∧ l.Reads c} := by
  ext cs
  rw [(ends_oneOf labels).mem_words]
  constructor
  · intro hpath
    cases hpath with
    | skip hedge => exact absurd (edge_oneOf.1 hedge).2.2 hlabels
    | read hedge hreads hpath =>
      obtain ⟨-, rfl, hl⟩ := edge_oneOf.1 hedge
      obtain ⟨-, rfl⟩ := hpath.eq_of_no_edge fun l r h => by simp [edge_oneOf] at h
      exact ⟨_, _, hl, rfl, hreads⟩
  · rintro ⟨c, l, hl, rfl, hreads⟩
    exact .single (edge_oneOf.2 ⟨rfl, rfl, hl⟩) hreads

/-! ## A copy -/

theorem ends_bare {first last : Nat} (h : n.Ends first last) :
    n.bare.Ends 0 (n.graph.length - 1) := by
  obtain ⟨k, hk⟩ := Nat.exists_eq_succ_of_ne_zero (List.length_pos_iff.2 h.ne_nil).ne'
  constructor
  · rw [entry_eq_head?, graph_bare, hk, List.range_succ_eq_map]
    rfl
  · rw [exit_eq_getLast?, graph_bare, hk, List.range_succ]
    simp

/-- Every number of the copy stands for the state at that place of the run. -/
theorem path_of_path_bare {i j : Nat} {cs : List Char} (h : n.bare.Path i cs j) :
    Predictive.Path n.RunEdge (n.graph[i]?.getD 0) cs (n.graph[j]?.getD 0) := by
  refine h.map (f := fun i => n.graph[i]?.getD 0) fun i l j hedge => ?_
  obtain ⟨q, r, hq, hqr, hj⟩ := edge_bare.1 hedge
  obtain ⟨hlt, rfl, -⟩ := List.idxOf?_eq_some_iff.1 hj
  rw [hq, List.getElem?_eq_getElem hlt]
  exact ⟨List.mem_of_getElem? hq, List.getElem_mem hlt, hqr⟩

theorem idxOf_of_getElem? {graph : Run Nat} (h : graph.Nodup) {i q : Nat} (hi : graph[i]? = some q) :
    graph.idxOf q = i := by
  obtain ⟨hlt, rfl⟩ := List.getElem?_eq_some_iff.1 hi
  exact h.idxOf_getElem i hlt

/-- Every state of the run stands in the copy under its place. -/
theorem path_bare_of_path (hn : n.graph.Nodup) {q r : Nat} {cs : List Char}
    (h : Predictive.Path n.RunEdge q cs r) :
    n.bare.Path (n.graph.idxOf q) cs (n.graph.idxOf r) := by
  refine h.map (f := n.graph.idxOf) ?_
  rintro q l r ⟨hq, hr, hedge⟩
  obtain ⟨j, hj⟩ := Option.isSome_iff_exists.1 (List.isSome_idxOf?.2 hr)
  obtain ⟨hlt, rfl, -⟩ := List.idxOf?_eq_some_iff.1 hj
  rw [hn.idxOf_getElem j hlt]
  exact edge_bare.2 ⟨q, _, List.getElem?_idxOf hq, hedge, hj⟩

/-- The places of a run without repetition read what its states read along it. -/
theorem path_bare_iff (hn : n.graph.Nodup) {i j q r : Nat} (hq : n.graph[i]? = some q)
    (hr : n.graph[j]? = some r) {cs : List Char} :
    n.bare.Path i cs j ↔ Predictive.Path n.RunEdge q cs r := by
  constructor
  · intro hpath
    simpa [hq, hr] using path_of_path_bare hpath
  · intro hpath
    simpa [idxOf_of_getElem? hn hq, idxOf_of_getElem? hn hr] using path_bare_of_path hn hpath

/-- The copy of an automaton reads along its run. -/
theorem words_bare (hn : n.WellFormed) : n.bare.words = n.language := by
  by_cases hnil : n.graph = []
  · have hbare : n.bare.graph = [] := by rw [graph_bare, hnil, List.length_nil, List.range_zero]
    rw [words_eq_zero hbare, language_eq_zero hnil]
  obtain ⟨first, last, hends⟩ := exists_ends hnil
  have hfirst : n.graph[0]? = some first := List.head?_eq_getElem? ▸ hends.entry
  have hlast : n.graph[n.graph.length - 1]? = some last := List.getLast?_eq_getElem? ▸ hends.exit
  ext cs
  rw [(ends_bare hends).mem_words]
  constructor
  · intro hpath
    exact ⟨first, last, hends, (path_bare_iff hn.nodup hfirst hlast).1 hpath⟩
  · rintro ⟨first', last', hends', hpath⟩
    obtain rfl : first = first' := Option.some.inj (hends.entry.symm.trans hends'.entry)
    obtain rfl : last = last' := Option.some.inj (hends.exit.symm.trans hends'.exit)
    exact (path_bare_iff hn.nodup hfirst hlast).2 hpath

/-! ## One after the other -/

theorem Ends.concat {fa la fb lb : Nat} (ha : a.Ends fa la) (hb : b.Ends fb lb) :
    (a.concat b).Ends fa (lb + a.size) := by
  constructor
  · rw [entry_eq_head?, graph_concat, List.head?_append, ← entry_eq_head?, ha.entry]
    rfl
  · rw [exit_eq_getLast?, graph_concat, List.getLast?_append, List.getLast?_map,
      ← exit_eq_getLast?, hb.exit]
    rfl

theorem edge_concat {fa la fb lb : Nat} (ha : a.Ends fa la) (hb : b.Ends fb lb)
    (hla : la < a.size) {q r : Nat} {l : Label} :
    (a.concat b).Edge q l r ↔
      (a.beside b).Edge q l r ∨ (q = la ∧ l = .epsilon ∧ r = fb + a.size) := by
  rw [Nfa.concat, ha.exit, hb.entry]
  simp only [edge_addEdge, size_beside, Nat.lt_add_right b.size hla, true_and]

/-- The paths of the parts are paths of the two in one arena. -/
theorem path_beside_left {q r : Nat} {cs : List Char} (h : a.Path q cs r) :
    (a.beside b).Path q cs r :=
  h.mono fun _ _ _ hedge => edge_beside.2 (.inl hedge)

theorem path_beside_right {q r : Nat} {cs : List Char} (h : b.Path q cs r) :
    (a.beside b).Path (q + a.size) cs (r + a.size) :=
  h.map fun _ _ _ hedge => edge_beside.2 (.inr ⟨_, _, rfl, rfl, hedge⟩)

/-- A path of the parts side by side stays one when they are led on. -/
theorem path_concat {fa la fb lb : Nat} (ha : a.Ends fa la) (hb : b.Ends fb lb) (hla : la < a.size)
    {q r : Nat} {cs : List Char} (h : (a.beside b).Path q cs r) : (a.concat b).Path q cs r :=
  h.mono fun _ _ _ hqr => (edge_concat ha hb hla).2 (.inl hqr)

theorem words_concat (hwa : a.WellFormed) (ha : a.graph ≠ []) (hb : b.graph ≠ []) :
    (a.concat b).words = a.words * b.words := by
  obtain ⟨fa, la, hea⟩ := exists_ends ha
  obtain ⟨fb, lb, heb⟩ := exists_ends hb
  have hfa : fa < a.size := hwa.graph_lt hea.first_mem
  have hla : la < a.size := hwa.graph_lt hea.last_mem
  have hedge (q : Nat) (l : Label) (r : Nat) : (a.concat b).Edge q l r ↔ _ :=
    edge_concat hea heb hla
  have hmem : ∀ cs, cs ∈ a.words * b.words ↔
      ∃ us vs, a.Path fa us la ∧ b.Path fb vs lb ∧ us ++ vs = cs := fun cs => by
    rw [Language.mem_mul]
    exact ⟨fun ⟨us, hus, vs, hvs, h⟩ => ⟨us, vs, hea.mem_words.1 hus, heb.mem_words.1 hvs, h⟩,
      fun ⟨us, vs, hus, hvs, h⟩ => ⟨us, hea.mem_words.2 hus, vs, heb.mem_words.2 hvs, h⟩⟩
  ext cs
  rw [(hea.concat heb).mem_words, hmem]
  constructor
  · intro hpath
    -- what is left to read in a state of `a`, and in a state of `b`
    have hrest := hpath.induction_to
      (motive := fun q cs =>
        (q < a.size → ∃ us vs, a.Path q us la ∧ b.Path fb vs lb ∧ us ++ vs = cs) ∧
        ∀ p, q = p + a.size → b.Path p cs lb)
      ⟨fun h => by omega, fun p hp => by
        obtain rfl : lb = p := by omega
        exact .refl lb⟩
      fun q l r ds cs hqr hspells hr => ?_
    · exact hrest.1 hfa
    rcases (hedge q l r).1 hqr with hqr | ⟨rfl, rfl, rfl⟩
    · rcases edge_beside.1 hqr with hqr | ⟨p, t, rfl, rfl, hpt⟩
      · refine ⟨fun _ => ?_, fun p hp => ?_⟩
        · obtain ⟨us, vs, hus, hvs, rfl⟩ := hr.1 (hwa.target_lt hqr)
          exact ⟨ds ++ us, vs, hus.cons hqr hspells, hvs, List.append_assoc ..⟩
        · have := hqr.source_lt
          omega
      · refine ⟨fun h => by omega, fun p' hp => ?_⟩
        obtain rfl : p = p' := by omega
        exact (hr.2 t rfl).cons hpt hspells
    · obtain rfl := hspells.of_epsilon
      exact ⟨fun _ => ⟨[], cs, .refl _, hr.2 fb rfl, rfl⟩, fun p hp => by omega⟩
  · rintro ⟨us, vs, hus, hvs, rfl⟩
    have hlink := (hedge la .epsilon (fb + a.size)).2 (.inr ⟨rfl, rfl, rfl⟩)
    exact (path_concat hea heb hla (path_beside_left hus)).append
      (.skip hlink (path_concat hea heb hla (path_beside_right hvs)))

/-! ## Either of two -/

theorem ends_union : (a.union b).Ends (a.size + b.size) (a.size + b.size + 1) := by
  constructor
  · rw [entry_eq_head?, graph_union]
    rfl
  · rw [exit_eq_getLast?, graph_union, List.getLast?_concat]

theorem edge_union {fa la fb lb : Nat} (ha : a.Ends fa la) (hb : b.Ends fb lb)
    (hla : la < a.size) (hlb : lb < b.size) {q r : Nat} {l : Label} :
    (a.union b).Edge q l r ↔ (a.beside b).Edge q l r ∨ l = .epsilon ∧
      (q = a.size + b.size ∧ (r = fa ∨ r = fb + a.size) ∨
        (q = la ∨ q = lb + a.size) ∧ r = a.size + b.size + 1) := by
  have hfirst : (b.graph.map (· + a.size)).head? = some (fb + a.size) := by
    rw [List.head?_map, ← entry_eq_head?, hb.entry]
    rfl
  have hlast : (b.graph.map (· + a.size)).getLast? = some (lb + a.size) := by
    rw [List.getLast?_map, ← exit_eq_getLast?, hb.exit]
    rfl
  rw [Nfa.union]
  simp only [edge_through, edge_enclose, size_through, size_enclose, size_beside]
  constructor
  · rintro ((h | ⟨rfl, first, last, hf, hl, h⟩) | ⟨rfl, first, last, hf, hl, h⟩)
    · exact .inl h
    · obtain rfl := Option.some.inj (ha.entry.symm.trans hf)
      obtain rfl := Option.some.inj (ha.exit.symm.trans hl)
      exact .inr ⟨rfl, by omega⟩
    · obtain rfl := Option.some.inj (hfirst.symm.trans hf)
      obtain rfl := Option.some.inj (hlast.symm.trans hl)
      exact .inr ⟨rfl, by omega⟩
  · rintro (h | ⟨rfl, ⟨rfl, rfl | rfl⟩ | ⟨rfl | rfl, rfl⟩⟩)
    · exact .inl (.inl h)
    · exact .inl (.inr ⟨rfl, _, _, ha.entry, ha.exit, by omega⟩)
    · exact .inr ⟨rfl, _, _, hfirst, hlast, by omega⟩
    · exact .inl (.inr ⟨rfl, _, _, ha.entry, ha.exit, by omega⟩)
    · exact .inr ⟨rfl, _, _, hfirst, hlast, by omega⟩

/-- A path of the parts side by side stays one between the new entry and exit. -/
theorem path_union {fa la fb lb : Nat} (ha : a.Ends fa la) (hb : b.Ends fb lb) (hla : la < a.size)
    (hlb : lb < b.size) {q r : Nat} {cs : List Char} (h : (a.beside b).Path q cs r) :
    (a.union b).Path q cs r :=
  h.mono fun _ _ _ hqr => (edge_union ha hb hla hlb).2 (.inl hqr)

theorem words_union (hwa : a.WellFormed) (hwb : b.WellFormed) (ha : a.graph ≠ [])
    (hb : b.graph ≠ []) : (a.union b).words = a.words + b.words := by
  obtain ⟨fa, la, hea⟩ := exists_ends ha
  obtain ⟨fb, lb, heb⟩ := exists_ends hb
  have hfa : fa < a.size := hwa.graph_lt hea.first_mem
  have hla : la < a.size := hwa.graph_lt hea.last_mem
  have hfb : fb < b.size := hwb.graph_lt heb.first_mem
  have hlb : lb < b.size := hwb.graph_lt heb.last_mem
  have hedge (q : Nat) (l : Label) (r : Nat) : (a.union b).Edge q l r ↔ _ :=
    edge_union hea heb hla hlb
  ext cs
  rw [ends_union.mem_words, Language.mem_add, hea.mem_words, heb.mem_words]
  constructor
  · intro hpath
    -- what is left to read in a state of `a`, of `b`, at the entry and at the exit
    have hrest := hpath.induction_to
      (motive := fun q cs =>
        (q < a.size → a.Path q cs la) ∧ (∀ p < b.size, q = p + a.size → b.Path p cs lb) ∧
        (q = a.size + b.size → a.Path fa cs la ∨ b.Path fb cs lb) ∧
        (q = a.size + b.size + 1 → cs = []))
      ⟨fun h => absurd h (by omega), fun p hp h => absurd h (by omega),
        fun h => absurd h (by omega), fun _ => rfl⟩
      fun q l r ds cs hqr hspells ⟨hleft, hright, _, hstop⟩ => ?_
    · exact hrest.2.2.1 rfl
    rcases (hedge q l r).1 hqr with hqr | ⟨rfl, hnew⟩
    · rcases edge_beside.1 hqr with hqr | ⟨p, t, rfl, rfl, hpt⟩
      · have hq := hqr.source_lt
        exact ⟨fun _ => (hleft (hwa.target_lt hqr)).cons hqr hspells, fun p _ hp => by omega,
          fun h => by omega, fun h => by omega⟩
      · have hp := hpt.source_lt
        refine ⟨fun h => by omega, fun p' _ hp => ?_, fun h => by omega, fun h => by omega⟩
        obtain rfl : p = p' := by omega
        exact (hright t (hwb.target_lt hpt) rfl).cons hpt hspells
    · obtain rfl := hspells.of_epsilon
      rcases hnew with ⟨rfl, rfl | rfl⟩ | ⟨rfl | rfl, rfl⟩
      · exact ⟨fun h => by omega, fun p _ hp => by omega, fun _ => .inl (hleft hfa),
          fun h => by omega⟩
      · exact ⟨fun h => by omega, fun p _ hp => by omega, fun _ => .inr (hright fb hfb rfl),
          fun h => by omega⟩
      · obtain rfl := hstop rfl
        exact ⟨fun _ => .refl _, fun p _ hp => by omega, fun h => by omega, fun _ => rfl⟩
      · obtain rfl := hstop rfl
        refine ⟨fun h => by omega, fun p _ hp => ?_, fun h => by omega, fun _ => rfl⟩
        obtain rfl : lb = p := by omega
        exact .refl lb
  · rintro (hcs | hcs)
    · have hstart := (hedge (a.size + b.size) .epsilon fa).2 (.inr ⟨rfl, .inl ⟨rfl, .inl rfl⟩⟩)
      have hstop := (hedge la .epsilon _).2 (.inr ⟨rfl, .inr ⟨.inl rfl, rfl⟩⟩)
      exact .skip hstart ((path_union hea heb hla hlb (path_beside_left hcs)).step hstop)
    · have hstart := (hedge (a.size + b.size) .epsilon (fb + a.size)).2
        (.inr ⟨rfl, .inl ⟨rfl, .inr rfl⟩⟩)
      have hstop := (hedge (lb + a.size) .epsilon _).2 (.inr ⟨rfl, .inr ⟨.inr rfl, rfl⟩⟩)
      exact .skip hstart ((path_union hea heb hla hlb (path_beside_right hcs)).step hstop)

/-! ## Repetition -/

theorem ends_iterate (skip again : Bool) (n : Nfa) :
    (n.iterate skip again).Ends n.size (n.size + 1) := by
  constructor
  · rw [entry_eq_head?, graph_iterate]
    rfl
  · rw [exit_eq_getLast?, graph_iterate, List.getLast?_concat]

theorem edge_passed {skip : Bool} {first last : Nat} (h : n.Ends first last)
    (hlast : last < n.size) {q r : Nat} {l : Label} :
    (n.passed skip).Edge q l r ↔ n.Edge q l r ∨ l = .epsilon ∧
      (q = n.size ∧ (r = first ∨ skip = true ∧ r = n.size + 1) ∨ q = last ∧ r = n.size + 1) := by
  have hskip : (if skip then n.enclose.addEdge n.size .epsilon (n.size + 1) else n.enclose).Edge
      q l r ↔ n.Edge q l r ∨ l = .epsilon ∧ q = n.size ∧ skip = true ∧ r = n.size + 1 := by
    cases skip with
    | false => simp
    | true =>
      simp only [↓reduceIte, edge_addEdge, edge_enclose, size_enclose, true_and]
      refine or_congr_right ?_
      constructor
      · rintro ⟨hq, -, hl, hr⟩
        exact ⟨hl, hq, hr⟩
      · rintro ⟨hl, hq, hr⟩
        exact ⟨hq, by omega, hl, hr⟩
  have hsize : (if skip then n.enclose.addEdge n.size .epsilon (n.size + 1)
      else n.enclose).size = n.size + 2 := by
    split <;> simp
  rw [passed, edge_through, hskip, hsize]
  constructor
  · rintro ((h | ⟨rfl, rfl, hs, rfl⟩) | ⟨rfl, first', last', hf, hl, h'⟩)
    · exact .inl h
    · exact .inr ⟨rfl, .inl ⟨rfl, .inr ⟨hs, rfl⟩⟩⟩
    · obtain rfl := Option.some.inj (h.entry.symm.trans hf)
      obtain rfl := Option.some.inj (h.exit.symm.trans hl)
      exact .inr ⟨rfl, by omega⟩
  · rintro (h' | ⟨rfl, ⟨rfl, rfl | ⟨hs, rfl⟩⟩ | ⟨rfl, rfl⟩⟩)
    · exact .inl (.inl h')
    · exact .inr ⟨rfl, _, _, h.entry, h.exit, by omega⟩
    · exact .inl (.inr ⟨rfl, rfl, hs, rfl⟩)
    · exact .inr ⟨rfl, _, _, h.entry, h.exit, by omega⟩

theorem edge_iterate {skip again : Bool} {first last : Nat} (h : n.Ends first last)
    (hlast : last < n.size) {q r : Nat} {l : Label} :
    (n.iterate skip again).Edge q l r ↔ n.Edge q l r ∨ l = .epsilon ∧
      (q = n.size ∧ (r = first ∨ skip = true ∧ r = n.size + 1) ∨
        q = last ∧ (r = n.size + 1 ∨ again = true ∧ r = first)) := by
  rw [iterate_eq, h.exit, h.entry]
  cases again with
  | false =>
    rw [edge_passed h hlast]
    simp
  | true =>
    rw [edge_addEdge, edge_passed h hlast, size_passed]
    constructor
    · rintro ((hqr | ⟨hl, hqr⟩) | ⟨hq, -, hl, hr⟩)
      · exact .inl hqr
      · exact .inr ⟨hl, hqr.imp_right fun ⟨hq, hr⟩ => ⟨hq, .inl hr⟩⟩
      · exact .inr ⟨hl, .inr ⟨hq, .inr ⟨rfl, hr⟩⟩⟩
    · rintro (hqr | ⟨hl, hqr | ⟨hq, hr | ⟨-, hr⟩⟩⟩)
      · exact .inl (.inl hqr)
      · exact .inl (.inr ⟨hl, .inl hqr⟩)
      · exact .inl (.inr ⟨hl, .inr ⟨hq, hr⟩⟩)
      · exact .inr ⟨hq, by omega, hl, hr⟩

/-- What a repetition reads after each time: nothing, or with `again` any number of times more. -/
def rest (again : Bool) (L : Language Char) : Language Char := if again then L∗ else 1

theorem nil_mem_rest (again : Bool) (L : Language Char) : [] ∈ rest again L := by
  cases again with
  | false => exact Language.nil_mem_one
  | true => exact Language.nil_mem_kstar L

theorem append_mem_rest {L : Language Char} {us vs : List Char} (hus : us ∈ L)
    (hvs : vs ∈ rest true L) : us ++ vs ∈ rest true L := by
  have h : us ++ vs ∈ 1 + L * L∗ := .inr ⟨us, hus, vs, hvs, rfl⟩
  rwa [Language.one_add_self_mul_kstar_eq_kstar] at h

/-- The paths of the part are paths of its repetition. -/
theorem path_iterate {skip again : Bool} {first last : Nat} (h : n.Ends first last)
    (hlast : last < n.size) {q r : Nat} {cs : List Char} (hpath : n.Path q cs r) :
    (n.iterate skip again).Path q cs r :=
  hpath.mono fun _ _ _ hqr => (edge_iterate h hlast).2 (.inl hqr)

/-- From the exit of the part on, a repetition reads what it reads after each time. -/
theorem path_iterate_of_mem_rest {skip again : Bool} {first last : Nat} (h : n.Ends first last)
    (hlast : last < n.size) {cs : List Char} (hcs : cs ∈ rest again n.words) :
    (n.iterate skip again).Path last cs (n.size + 1) := by
  have hstop : (n.iterate skip again).Edge last .epsilon (n.size + 1) :=
    (edge_iterate h hlast).2 (.inr ⟨rfl, .inr ⟨rfl, .inl rfl⟩⟩)
  cases again with
  | false =>
    obtain rfl : cs = [] := hcs
    exact .skip hstop (.refl _)
  | true =>
    have hback : (n.iterate skip true).Edge last .epsilon first :=
      (edge_iterate h hlast).2 (.inr ⟨rfl, .inr ⟨rfl, .inr ⟨rfl, rfl⟩⟩⟩)
    obtain ⟨words, rfl, hwords⟩ := Language.mem_kstar.1 hcs
    clear hcs
    induction words with
    | nil => exact .skip hstop (.refl _)
    | cons us words ih =>
      obtain ⟨hus, hwords⟩ := List.forall_mem_cons.1 hwords
      exact .skip hback ((path_iterate h hlast (h.mem_words.1 hus)).append (ih hwords))

theorem words_iterate (hwn : n.WellFormed) (hn : n.graph ≠ []) (skip again : Bool) :
    (n.iterate skip again).words = (if skip then 1 else 0) + n.words * rest again n.words := by
  obtain ⟨first, last, hends⟩ := exists_ends hn
  have hfirst : first < n.size := hwn.graph_lt hends.first_mem
  have hlast : last < n.size := hwn.graph_lt hends.last_mem
  have hedge (q : Nat) (l : Label) (r : Nat) : (n.iterate skip again).Edge q l r ↔ _ :=
    edge_iterate hends hlast
  ext cs
  rw [(ends_iterate skip again n).mem_words]
  constructor
  · intro hpath
    -- what is left to read inside, at the entry and at the exit
    have hrest := hpath.induction_to
      (motive := fun q cs =>
        (q < n.size → ∃ us vs, n.Path q us last ∧ vs ∈ rest again n.words ∧ us ++ vs = cs) ∧
        (q = n.size → cs ∈ (if skip then 1 else 0) + n.words * rest again n.words) ∧
        (q = n.size + 1 → cs = []))
      ⟨fun h => absurd h (by omega), fun h => absurd h (by omega), fun _ => rfl⟩
      fun q l r ds cs hqr hspells ⟨hin, _, hstop⟩ => ?_
    · exact hrest.2.1 rfl
    rcases (hedge q l r).1 hqr with hqr | ⟨rfl, hnew⟩
    · refine ⟨fun _ => ?_, fun hq => ?_, fun hq => ?_⟩
      · obtain ⟨us, vs, hus, hvs, rfl⟩ := hin (hwn.target_lt hqr)
        exact ⟨ds ++ us, vs, hus.cons hqr hspells, hvs, List.append_assoc ..⟩
      · exact absurd hqr.source_lt (by omega)
      · exact absurd hqr.source_lt (by omega)
    · obtain rfl := hspells.of_epsilon
      rcases hnew with ⟨rfl, rfl | ⟨rfl, rfl⟩⟩ | ⟨rfl, rfl | ⟨rfl, rfl⟩⟩
      · refine ⟨fun h => by omega, fun _ => ?_, fun h => by omega⟩
        obtain ⟨us, vs, hus, hvs, rfl⟩ := hin hfirst
        exact .inr ⟨us, hends.mem_words.2 hus, vs, hvs, rfl⟩
      · obtain rfl := hstop rfl
        exact ⟨fun h => by omega, fun _ => .inl rfl, fun h => by omega⟩
      · obtain rfl := hstop rfl
        exact ⟨fun _ => ⟨[], [], .refl _, nil_mem_rest again _, rfl⟩, fun h => by omega,
          fun h => by omega⟩
      · obtain ⟨us, vs, hus, hvs, rfl⟩ := hin hfirst
        exact ⟨fun _ => ⟨[], us ++ vs, .refl _, append_mem_rest (hends.mem_words.2 hus) hvs, rfl⟩,
          fun h => by omega, fun h => by omega⟩
  · have hstart := (hedge n.size .epsilon first).2 (.inr ⟨rfl, .inl ⟨rfl, .inl rfl⟩⟩)
    rintro (hcs | ⟨us, hus, vs, hvs, rfl⟩)
    · cases skip with
      | false => exact absurd hcs (Language.notMem_zero cs)
      | true =>
        obtain rfl : cs = [] := hcs
        exact .skip ((hedge n.size .epsilon (n.size + 1)).2
          (.inr ⟨rfl, .inl ⟨rfl, .inr ⟨rfl, rfl⟩⟩⟩)) (.refl _)
    · exact .skip hstart ((path_iterate hends hlast (hends.mem_words.1 hus)).append
        (path_iterate_of_mem_rest hends hlast hvs))

theorem words_star (hwn : n.WellFormed) (hn : n.graph ≠ []) :
    (n.iterate true true).words = n.words∗ := by
  rw [words_iterate hwn hn]
  exact Language.one_add_self_mul_kstar_eq_kstar _

theorem words_plus (hwn : n.WellFormed) (hn : n.graph ≠ []) :
    (n.iterate false true).words = n.words * n.words∗ := by
  rw [words_iterate hwn hn]
  exact zero_add _

theorem words_optional (hwn : n.WellFormed) (hn : n.graph ≠ []) :
    (n.iterate true false).words = 1 + n.words := by
  rw [words_iterate hwn hn]
  exact congrArg (1 + ·) (mul_one _)

end Nfa

end Predictive
