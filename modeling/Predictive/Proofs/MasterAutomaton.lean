import Predictive.Proofs.Patterns

/-!
# The master automaton

The automaton that joins the patterns of a set reads what they read: `Joins` says so for any list of
patterns, `Joins.joinOne` keeps it while patterns are added one by one. `PatternSet.master_walk` reads it off the
deterministic automaton of a compiled set.
-/

namespace Predictive

/-- A path to a state without incoming edges has no edges. -/
theorem Path.eq_of_no_edge_to {edge : Nat → Label → Nat → Prop} {p q : Nat} {cs : List Char}
    (hq : ∀ r l, ¬ edge r l q) (h : Path edge p cs q) : p = q ∧ cs = [] := by
  induction h with
  | refl => exact ⟨rfl, rfl⟩
  | skip hedge _ ih =>
    obtain ⟨rfl, -⟩ := ih hq
    exact absurd hedge (hq _ _)
  | read hedge _ _ ih =>
    obtain ⟨rfl, -⟩ := ih hq
    exact absurd hedge (hq _ _)

namespace Patterns

variable {n : Nfa} {patterns : List Pattern} {p : Pattern}

/-! ## Adding a pattern -/

/-- The views of an automaton to which a pattern with the states `first` to `last` is added. -/
structure Adds (n : Nfa) (p : Pattern) (first last : Nat) : Prop where
  ends : p.nfa.bare.Ends first last
  edge : ∀ q l r, (joinOne n p).Edge q l r ↔ (n.beside p.nfa.bare).Edge q l r ∨
    q = 0 ∧ l = .epsilon ∧ r = first + n.size
  owners : ∀ q o, o ∈ ((joinOne n p).state q).owners ↔
    o ∈ (n.state q).owners ∨ q = last + n.size ∧ o = p.definition.owner

/-- What was joined before reads what it did. -/
theorem Adds.path {first last q r : Nat} {cs : List Char} (h : Adds n p first last)
    (hpath : n.Path q cs r) : (joinOne n p).Path q cs r :=
  (Nfa.path_beside_left hpath).mono fun _ _ _ hqr => (h.edge _ _ _).2 (.inl hqr)

/-- From the common entry, the copy reads what the pattern does. -/
theorem Adds.path_copy {first last r : Nat} {cs : List Char} (h : Adds n p first last)
    (hpath : p.nfa.bare.Path first cs r) : (joinOne n p).Path 0 cs (r + n.size) := by
  have hlink := (h.edge 0 .epsilon (first + n.size)).2 (.inr ⟨rfl, rfl, rfl⟩)
  exact .skip hlink
    ((Nfa.path_beside_right hpath).mono fun _ _ _ hqr => (h.edge _ _ _).2 (.inl hqr))

theorem graph_joinOne (n : Nfa) (p : Pattern) :
    (joinOne n p).graph = n.graph ++ p.nfa.bare.graph.map (· + n.size) := by
  rw [joinOne]
  split
  · rw [Nfa.graph_acceptExit, Nfa.graph_addEdge, Nfa.graph_beside]
  · rw [Nfa.graph_beside]

theorem entry_joinOne {first : Nat} (h : n.entry? = some first) (p : Pattern) :
    Nfa.entry? (joinOne n p) = some first := by
  rw [Nfa.entry_eq_head?, graph_joinOne, List.head?_append, ← Nfa.entry_eq_head?, h]
  rfl

theorem exists_adds (hp : p.Sound) (hsize : 0 < n.size) : ∃ first last, Adds n p first last := by
  obtain ⟨first, last, hends⟩ := Nfa.exists_ends hp.whole.bare.graph_ne_nil
  have hexit : ((n.beside p.nfa.bare).addEdge 0 .epsilon (first + n.size)).exit? =
      some (last + n.size) := by
    rw [Nfa.exit_eq_getLast?, Nfa.graph_addEdge, Nfa.graph_beside, List.getLast?_append,
      List.getLast?_map, ← Nfa.exit_eq_getLast?, hends.exit]
    rfl
  have hlast : last < p.nfa.bare.size := hp.whole.bare.wellFormed.graph_lt hends.last_mem
  have hjoin : joinOne n p =
      ((n.beside p.nfa.bare).addEdge 0 .epsilon (first + n.size)).accept (last + n.size)
        p.definition.owner := by
    rw [joinOne, hends.entry]
    show Nfa.acceptExit _ _ = _
    rw [Nfa.acceptExit, hexit]
  refine ⟨first, last, hends, fun q l r => ?_, fun q o => ?_⟩
  · rw [hjoin, Nfa.edge_accept, Nfa.edge_addEdge, Nfa.size_beside]
    simp only [Nat.add_pos_left hsize, true_and]
  · have howners : ((n.beside p.nfa.bare).state q).owners = (n.state q).owners := by
      by_cases hq : q < n.size
      · rw [Nfa.state_beside_left _ _ hq]
      · obtain ⟨t, rfl⟩ : ∃ t, q = t + n.size := ⟨q - n.size, by omega⟩
        rw [Nfa.state_beside_right, Nfa.state_of_size_le (n := n) (by omega)]
        exact Nfa.owners_bare p.nfa t
    rw [hjoin, Nfa.state_accept, Nfa.size_addEdge, Nfa.size_beside]
    split
    · next h =>
      obtain ⟨rfl, -⟩ := h
      simp only [Nfa.owners_addEdge, howners, SortedSet.mem_insert, true_and]
      exact or_comm
    · next h =>
      rw [Nfa.owners_addEdge, howners, iff_self_or]
      rintro ⟨rfl, -⟩
      exact absurd ⟨rfl, by omega⟩ h

/-! ## Joining patterns one by one -/

/-- The automaton reads what the patterns read, and accepts for those of them that match. -/
structure Joins (n : Nfa) (patterns : List Pattern) : Prop where
  wellFormed : n.WellFormed
  entry : n.entry? = some 0
  no_edge_to : ∀ q l, ¬ n.Edge q l 0
  reaches : ∀ cs, (∃ q, n.Reaches cs q) ↔
    cs = [] ∨ ∃ p ∈ patterns, ∃ rest, cs ++ rest ∈ p.nfa.words
  owns : ∀ cs o, (∃ q, n.Reaches cs q ∧ o ∈ (n.state q).owners) ↔
    ∃ p ∈ patterns, cs ∈ p.nfa.words ∧ o = p.definition.owner

theorem reaches_of_entry {first : Nat} (h : n.entry? = some first) {cs : List Char} {q : Nat} :
    n.Reaches cs q ↔ n.Path first cs q := by
  constructor
  · rintro ⟨first', hfirst, hpath⟩
    obtain rfl : first = first' := Option.some.inj (h.symm.trans hfirst)
    exact hpath
  · exact fun hpath => ⟨first, h, hpath⟩

/-- The common entry alone. -/
theorem joins_nil : Joins { states := #[{}], graph := [0] } [] := by
  have hedge : ∀ q l r, ¬ ({ states := #[{}], graph := [0] } : Nfa).Edge q l r := by
    intro q l r h
    match q with
    | 0 | q + 1 => exact absurd h List.not_mem_nil
  have hreaches : ∀ cs q, ({ states := #[{}], graph := [0] } : Nfa).Reaches cs q ↔
      cs = [] ∧ q = 0 := by
    intro cs q
    rw [reaches_of_entry (show Nfa.entry? _ = some 0 from rfl)]
    constructor
    · exact fun h => (h.eq_of_no_edge fun l r => hedge 0 l r).symm
    · rintro ⟨rfl, rfl⟩
      exact .refl 0
  refine ⟨.root, rfl, fun q l => hedge q l 0, fun cs => ?_, fun cs o => ?_⟩
  · simp [hreaches]
  · simp only [hreaches, List.not_mem_nil, false_and, exists_false, iff_false]
    rintro ⟨q, ⟨-, rfl⟩, h⟩
    exact SortedSet.not_mem_empty o h

/-- Reading goes on in what was joined before, or in the copy that is added. -/
theorem Joins.reaches_joinOne (h : Joins n patterns) (hp : p.Sound) {cs : List Char} {q : Nat} :
    (joinOne n p).Reaches cs q ↔
      n.Reaches cs q ∨ ∃ r, q = r + n.size ∧ p.nfa.bare.Reaches cs r := by
  have hsize : 0 < n.size := h.wellFormed.entry_lt h.entry
  obtain ⟨first, last, hadds⟩ := exists_adds hp hsize
  rw [reaches_of_entry (entry_joinOne h.entry p), reaches_of_entry h.entry]
  simp only [reaches_of_entry hadds.ends.entry]
  constructor
  · intro hpath
    -- where the rest of a path goes, from a state before and from a state of the copy
    have hrest := hpath.induction_to
      (motive := fun s cs =>
        (s < n.size → n.Path s cs q ∨
          ∃ us vs r, us ++ vs = cs ∧ n.Path s us 0 ∧ q = r + n.size ∧ p.nfa.bare.Path first vs r) ∧
        ∀ t, s = t + n.size → ∃ r, q = r + n.size ∧ p.nfa.bare.Path t cs r)
      ⟨fun _ => .inl (.refl q), fun t ht => ⟨t, ht, .refl t⟩⟩
      fun s l r ds cs hsr hspells ⟨hleft, hright⟩ => ?_
    · rcases hrest.1 hsize with hpath | ⟨us, vs, r, rfl, hus, hq, hvs⟩
      · exact .inl hpath
      · obtain ⟨-, rfl⟩ := hus.eq_of_no_edge_to h.no_edge_to
        exact .inr ⟨r, hq, hvs⟩
    rcases (hadds.edge s l r).1 hsr with hsr | ⟨rfl, rfl, rfl⟩
    · rcases Nfa.edge_beside.1 hsr with hsr | ⟨t, t', rfl, rfl, htt⟩
      · have hs := hsr.source_lt
        refine ⟨fun _ => ?_, fun t ht => by omega⟩
        rcases hleft (h.wellFormed.target_lt hsr) with hpath | ⟨us, vs, r', rfl, hus, hq, hvs⟩
        · exact .inl (hpath.cons hsr hspells)
        · exact .inr ⟨ds ++ us, vs, r', List.append_assoc .., hus.cons hsr hspells, hq, hvs⟩
      · refine ⟨fun hlt => by omega, fun t'' ht => ?_⟩
        obtain rfl : t = t'' := by omega
        obtain ⟨r, hq, hpath⟩ := hright t' rfl
        exact ⟨r, hq, hpath.cons htt hspells⟩
    · obtain rfl := hspells.of_epsilon
      obtain ⟨r, hq, hpath⟩ := hright first rfl
      exact ⟨fun _ => .inr ⟨[], cs, r, rfl, .refl 0, hq, hpath⟩, fun t ht => by omega⟩
  · rintro (hpath | ⟨r, rfl, hpath⟩)
    · exact hadds.path hpath
    · exact hadds.path_copy hpath

theorem Joins.joinOne (h : Joins n patterns) (hp : p.Sound) :
    Joins (joinOne n p) (patterns ++ [p]) := by
  have hsize : 0 < n.size := h.wellFormed.entry_lt h.entry
  obtain ⟨first, last, hends, hedge, howners⟩ := exists_adds hp hsize
  have hwords : ∀ cs, cs ∈ p.nfa.words ↔ p.nfa.bare.Reaches cs last := fun cs => by
    rw [← hp.whole.words_bare, hends.mem_words, reaches_of_entry hends.entry]
  refine ⟨h.wellFormed.joinOne p, entry_joinOne h.entry p, fun q l hq => ?_, fun cs => ?_,
    fun cs o => ?_⟩
  · rcases (hedge q l 0).1 hq with hq | ⟨-, -, hq⟩
    · rcases Nfa.edge_beside.1 hq with hq | ⟨-, t, -, ht, -⟩
      · exact h.no_edge_to q l hq
      · omega
    · omega
  · have hcopy : (∃ r, p.nfa.bare.Reaches cs r) ↔ ∃ rest, cs ++ rest ∈ p.nfa.words := by
      rw [hp.whole.bare.exists_reaches_iff, hp.whole.words_bare]
    simp only [h.reaches_joinOne hp, exists_or, h.reaches cs, List.mem_append, List.mem_singleton,
      or_and_right, exists_eq_left, ← hcopy]
    rw [or_assoc, exists_comm]
    simp only [exists_eq_left]
  · have hold := h.owns cs o
    have hlt : ∀ {q}, n.Reaches cs q → q < n.size := fun hq =>
      h.wellFormed.bounded.path_target_lt ((reaches_of_entry h.entry).1 hq) hsize
    simp only [h.reaches_joinOne hp, howners, List.mem_append, List.mem_singleton, or_and_right,
      exists_or, exists_eq_left, ← hold, hwords]
    constructor
    · rintro (⟨q, hq, ho | ⟨rfl, -⟩⟩ | ⟨q, ⟨r, rfl, hr⟩, ho | ⟨heq, rfl⟩⟩)
      · exact .inl ⟨q, hq, ho⟩
      · exact absurd (hlt hq) (by omega)
      · exact absurd (Nfa.owned_lt ho) (by omega)
      · obtain rfl : r = last := by omega
        exact .inr ⟨hr, rfl⟩
    · rintro (⟨q, hq, ho⟩ | ⟨hr, rfl⟩)
      · exact .inl ⟨q, hq, .inl ho⟩
      · exact .inr ⟨_, ⟨last, rfl, hr⟩, .inr ⟨rfl, rfl⟩⟩

theorem Joins.foldl {more : List Pattern} (h : Joins n patterns) (hmore : ∀ p ∈ more, p.Sound) :
    Joins (more.foldl Patterns.joinOne n) (patterns ++ more) := by
  induction more generalizing n patterns with
  | nil => simpa using h
  | cons p more ih =>
    obtain ⟨hp, hmore⟩ := List.forall_mem_cons.1 hmore
    simpa using ih (h.joinOne hp) hmore

/-- The patterns that give tokens, in order of definition. -/
def tokenPatterns (patterns : List Pattern) : List Pattern :=
  patterns.filter fun p => !p.definition.internal

theorem mem_tokenPatterns :
    p ∈ tokenPatterns patterns ↔ p ∈ patterns ∧ p.definition.internal = false := by
  simp [tokenPatterns]

theorem joins_joined (h : ∀ p ∈ patterns, p.Sound) :
    Joins (joined patterns) (tokenPatterns patterns) :=
  joins_nil.foldl fun p hp => h p (mem_tokenPatterns.1 hp).1

end Patterns

/-! ## Walks of the master automaton -/

namespace PatternSet

open Patterns (mem_tokenPatterns)

variable {s : PatternSet} {cs : List Char}

/-- The text begins one that some pattern that gives tokens matches. -/
def Begins (s : PatternSet) (cs : List Char) : Prop :=
  ∃ p ∈ s.patterns, p.definition.internal = false ∧
    ∃ whole : String, cs <+: whole.toList ∧ p.accepts whole = true

/-- The pattern defined first of those that give tokens and match the text. -/
def namedBy? (s : PatternSet) (text : String) : Option Pattern :=
  s.patterns.find? fun p => !p.definition.internal && p.accepts text

theorem mem_of_namedBy? {text : String} {p : Pattern} (h : s.namedBy? text = some p) :
    p ∈ s.patterns ∧ p.definition.internal = false := by
  have hp := List.find?_some h
  rw [Bool.and_eq_true, Bool.not_eq_true'] at hp
  exact ⟨List.mem_of_find?_eq_some h, hp.1⟩

/-- What is joined in the set of a list of patterns. -/
theorem Compiled.joins (h : s.Compiled) :
    (∀ p ∈ s.patterns, p.Sound) ∧ s.dfa = .ofNfa s.nfa ∧
      Patterns.Joins s.nfa (Patterns.tokenPatterns s.patterns) := by
  obtain ⟨patterns, hdefined, rfl⟩ := h.exists_defined
  exact ⟨hdefined.sound, rfl, Patterns.joins_joined hdefined.sound⟩

theorem Compiled.pairwise (h : s.Compiled) :
    s.patterns.Pairwise fun p q => p.definition.position < q.definition.position := by
  obtain ⟨patterns, hdefined, rfl⟩ := h.exists_defined
  exact hdefined.pairwise

theorem Compiled.begins_iff (h : s.Compiled) :
    s.Begins cs ↔ ∃ p ∈ Patterns.tokenPatterns s.patterns, ∃ rest, cs ++ rest ∈ p.nfa.words := by
  simp only [Begins, mem_tokenPatterns, and_assoc]
  refine exists_congr fun p => and_congr_right fun hp => and_congr_right fun _ => ?_
  have hsound := h.joins.1 p hp
  constructor
  · rintro ⟨whole, ⟨rest, hrest⟩, haccepts⟩
    exact ⟨rest, hrest ▸ hsound.accepts_iff.1 haccepts⟩
  · rintro ⟨rest, hrest⟩
    refine ⟨String.ofList (cs ++ rest), ?_, hsound.accepts_iff.2 ?_⟩
    · rw [String.toList_ofList]
      exact List.prefix_append cs rest
    · rwa [String.toList_ofList]

/-- Where some pattern gives tokens, it matches some text, which the empty text begins. -/
theorem Compiled.begins_nil (h : s.Compiled)
    (htoken : ∃ p ∈ s.patterns, p.definition.internal = false) : s.Begins [] := by
  obtain ⟨p, hp, hinternal⟩ := htoken
  have hwhole := (h.joins.1 p hp).whole
  obtain ⟨first, last, hends⟩ := Nfa.exists_ends hwhole.graph_ne_nil
  obtain ⟨cs, hpath⟩ :=
    hwhole.live.exists_path hends (hwhole.wellFormed.graph_lt hends.first_mem)
  exact h.begins_iff.2 ⟨p, mem_tokenPatterns.2 ⟨hp, hinternal⟩, cs, hends.mem_words.2 hpath⟩

/-- A walk goes on for as long as what is read begins a token. -/
theorem Compiled.isSome_walk_iff (h : s.Compiled) :
    (s.dfa.walk 0 cs).isSome ↔ cs = [] ∨ s.Begins cs := by
  obtain ⟨-, hdfa, hjoins⟩ := h.joins
  rw [hdfa, Dfa.isSome_walk_ofNfa_iff hjoins.wellFormed, hjoins.reaches, h.begins_iff, ← or_assoc,
    or_self]

/-- The state at the end of a walk accepts for the patterns that give tokens and match. -/
theorem Compiled.mem_ownersAt_iff (h : s.Compiled) {text : String} {id : Nat}
    (hwalk : s.dfa.walk 0 text.toList = some id) {o : Owner} :
    o ∈ s.dfa.ownersAt id ↔ ∃ p ∈ s.patterns, p.definition.internal = false ∧
      p.accepts text = true ∧ o = p.definition.owner := by
  obtain ⟨hsound, hdfa, hjoins⟩ := h.joins
  rw [hdfa] at hwalk ⊢
  obtain ⟨state, hstate, hdescribes⟩ := Dfa.describes_of_walk hjoins.wellFormed hwalk
  rw [Dfa.ownersAt, hstate, Option.map_some, Option.getD_some, hdescribes.owners]
  have howns : (∃ q, s.nfa.Reaches text.toList q ∧ (s.nfa.state q).accepting = true ∧
      o ∈ (s.nfa.state q).owners) ↔
      ∃ q, s.nfa.Reaches text.toList q ∧ o ∈ (s.nfa.state q).owners :=
    exists_congr fun q => and_congr_right fun _ =>
      and_iff_right_of_imp fun ho => Dfa.accepting_iff.2 ⟨o, ho⟩
  rw [howns, hjoins.owns]
  simp only [mem_tokenPatterns, and_assoc]
  refine exists_congr fun p => and_congr_right fun hp => ?_
  rw [(hsound p hp).accepts_iff]

/-- The winner at the end of a walk is the pattern defined first of those that match. -/
theorem Compiled.winnerAt?_eq (h : s.Compiled) {text : String} {id : Nat}
    (hwalk : s.dfa.walk 0 text.toList = some id) :
    s.dfa.winnerAt? id = (s.namedBy? text).map (·.definition.owner) := by
  have howners (o : Owner) := h.mem_ownersAt_iff hwalk (o := o)
  have hwinner (o : Owner) : s.dfa.winnerAt? id = some o ↔
      o ∈ s.dfa.ownersAt id ∧ ∀ o' ∈ s.dfa.ownersAt id, o.Le o' := by
    obtain ⟨-, hdfa, hjoins⟩ := h.joins
    rw [hdfa] at hwalk ⊢
    obtain ⟨state, hstate, hdescribes⟩ := Dfa.describes_of_walk hjoins.wellFormed hwalk
    rw [Dfa.winnerAt?, Dfa.ownersAt, hstate]
    exact hdescribes.winner o
  cases hnamed : s.namedBy? text with
  | none =>
    have hfind := List.find?_eq_none.1 hnamed
    refine Option.eq_none_iff_forall_ne_some.2 fun o ho => ?_
    obtain ⟨p, hp, hinternal, haccepts, -⟩ := (howners o).1 ((hwinner o).1 ho).1
    exact hfind p hp (by simp [hinternal, haccepts])
  | some p =>
    obtain ⟨hp, before, after, hpatterns, hbefore⟩ := List.find?_eq_some_iff_append.1 hnamed
    have hp' : p.definition.internal = false ∧ p.accepts text = true := by simpa using hp
    have hmem : p ∈ s.patterns := List.mem_of_find?_eq_some hnamed
    refine (hwinner p.definition.owner).2 ⟨(howners _).2 ⟨p, hmem, hp'.1, hp'.2, rfl⟩, ?_⟩
    intro o ho
    obtain ⟨q, hq, hinternal, haccepts, rfl⟩ := (howners o).1 ho
    -- a pattern that matches does not stand before the first that does
    have hafter : q ∈ p :: after := by
      rw [hpatterns] at hq
      refine (List.mem_append.1 hq).resolve_left fun hq => ?_
      simpa [hinternal, haccepts] using hbefore q hq
    rcases List.mem_cons.1 hafter with rfl | hafter
    · exact .inr ⟨rfl, String.le_refl _⟩
    · have hpairwise := h.pairwise
      rw [hpatterns, List.pairwise_append, List.pairwise_cons] at hpairwise
      exact .inl (hpairwise.2.1.1 q hafter)

/-- For every compiled set with a pattern that gives tokens, and every text: the walk of the master
automaton goes on exactly if the text begins one that such a pattern matches; the state it is at then
accepts for exactly the patterns among them that match, and the one defined first wins; and the
automaton is that of the set without its internal patterns. -/
theorem master_walk (h : s.Compiled) (htoken : ∃ p ∈ s.patterns, p.definition.internal = false)
    (text : String) :
    ((s.dfa.walk 0 text.toList).isSome ↔
      ∃ p ∈ s.patterns, p.definition.internal = false ∧
        ∃ whole : String, text.toList <+: whole.toList ∧ p.accepts whole = true) ∧
    (∀ id, s.dfa.walk 0 text.toList = some id →
      (∀ o, o ∈ s.dfa.ownersAt id ↔ ∃ p ∈ s.patterns, p.definition.internal = false ∧
        p.accepts text = true ∧ o = ⟨p.definition.position, p.definition.name⟩) ∧
      s.dfa.winnerAt? id = (s.patterns.find? fun p =>
        !p.definition.internal && p.accepts text).map (·.definition.owner)) ∧
    s.dfa = (ofPatterns (s.patterns.filter fun p => !p.definition.internal)).dfa := by
  refine ⟨?_, fun id hwalk => ⟨fun o => h.mem_ownersAt_iff hwalk, h.winnerAt?_eq hwalk⟩, ?_⟩
  · rw [h.isSome_walk_iff]
    refine or_iff_right_of_imp fun hnil => ?_
    rw [hnil]
    exact h.begins_nil htoken
  · obtain ⟨patterns, -, rfl⟩ := h.exists_defined
    simp only [ofPatterns, Patterns.joined, List.filter_filter, Bool.and_self]

/-- Two patterns that give tokens match a digit, besides the internal one: both are owners, and the
one defined first wins. A longer text begins a number. -/
theorem master_walk_overlapping :
    ∃ s, ofDefinitions [{ name := "digit", regex := "[01]", internal := true },
        { name := "number", regex := ":digit:+" }, { name := "one", regex := "1" }] = .ok s ∧
      (∃ p ∈ s.patterns, p.definition.internal = false) ∧
      (∃ p ∈ s.patterns, p.definition.internal = false ∧
        ∃ whole : String, "10".toList <+: whole.toList ∧ p.accepts whole = true) ∧
      (∃ p ∈ s.patterns, p.definition.internal = false ∧ p.accepts "1" = true ∧
        p.definition.name = "one") ∧
      (s.patterns.find? fun p => !p.definition.internal && p.accepts "1").map
        (·.definition.owner) = some ⟨1, "number"⟩ := by
  have hcheck : (match ofDefinitions [{ name := "digit", regex := "[01]", internal := true },
        { name := "number", regex := ":digit:+" }, { name := "one", regex := "1" }] with
      | .ok s => s.patterns.any (fun p => !p.definition.internal) && (s.dfa.walk 0 ['1', '0']).isSome
        && (s.dfa.walk 0 ['1']).any fun id => (s.dfa.ownersAt id).toList.contains ⟨2, "one"⟩ &&
          s.dfa.winnerAt? id = some ⟨1, "number"⟩
      | .error _ => false) = true := by
    decide +kernel
  split at hcheck
  · next s hs =>
    simp only [Bool.and_eq_true, List.any_eq_true, Bool.not_eq_true', Option.any_eq_true,
      decide_eq_true_eq, List.contains_iff_mem] at hcheck
    obtain ⟨⟨htoken, hten⟩, id, hwalk, hone, hwinner⟩ := hcheck
    have hcompiled : s.Compiled := .inr ⟨_, hs⟩
    obtain ⟨howners, hfirst⟩ := (master_walk hcompiled htoken "1").2.1 id hwalk
    obtain ⟨p, hp, hinternal, haccepts, howner⟩ := (howners ⟨2, "one"⟩).1 hone
    refine ⟨s, hs, htoken, (master_walk hcompiled htoken "10").1.1 hten, ?_, hfirst ▸ hwinner⟩
    exact ⟨p, hp, hinternal, haccepts, (congrArg Owner.name howner).symm⟩
  · cases hcheck

end PatternSet

end Predictive
