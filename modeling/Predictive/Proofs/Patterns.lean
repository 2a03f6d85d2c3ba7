import Predictive.Proofs.LiveStates
import Predictive.Pattern.Definitions

/-!
# Patterns as they are defined

The lists of patterns that definitions lead to (`Patterns.Defined`), and what holds for each of their
patterns: its automaton is whole and accepts at its exit only, on behalf of the pattern
(`Pattern.Sound`), and its place is its place in the list (`Defined.positions`). A set of patterns
that compiles is made of such a list (`PatternSet.Compiled`).
-/

namespace Predictive

namespace Nfa

variable {n : Nfa}

/-- Where no state accepts, the exit is made the only one that does. -/
theorem mem_owners_acceptExit (hn : n.WellFormed) (howners : ∀ q, (n.state q).owners = ∅)
    {o o' : Owner} {q : Nat} :
    o' ∈ ((n.acceptExit o).state q).owners ↔ n.exit? = some q ∧ o' = o := by
  rw [acceptExit]
  split
  · next last hlast =>
    have hlt : last < n.size := hn.graph_lt (List.mem_of_getLast? hlast)
    rw [state_accept, hlast, Option.some.injEq]
    split
    · next h => simp [howners, h.1]
    · next h =>
      rw [howners]
      simp only [SortedSet.not_mem_empty, false_iff, not_and]
      rintro rfl
      exact absurd ⟨rfl, hlt⟩ h
  · next hnone => simp [howners, hnone]

/-- Where only the exit accepts, no state does once it is released. -/
theorem owners_releaseExit {last : Nat} (hexit : n.exit? = some last)
    (howners : ∀ q o, o ∈ (n.state q).owners → q = last) (q : Nat) :
    (n.releaseExit.state q).owners = ∅ := by
  rw [releaseExit, hexit, state_release]
  split
  · rfl
  · next hne => exact SortedSet.eq_empty_iff.2 fun o ho => hne (howners q o ho)

end Nfa

namespace Pattern

/-- The automaton of the pattern is whole and accepts at its exit only, on behalf of the pattern. -/
structure Sound (p : Pattern) : Prop where
  whole : p.nfa.Whole
  dfa_eq : p.dfa = .ofNfa p.nfa
  mem_owners : ∀ {q o}, o ∈ (p.nfa.state q).owners ↔ p.nfa.exit? = some q ∧ o = p.definition.owner

variable {p other : Pattern}

/-- A sound pattern accepts the words of its automaton. -/
theorem Sound.accepts_iff (h : p.Sound) {text : String} :
    p.accepts text = true ↔ text.toList ∈ p.nfa.words := by
  rw [accepts, h.dfa_eq, Dfa.accepts_ofNfa_iff h.whole.wellFormed, Nfa.mem_words_iff_reaches]
  simp only [Dfa.accepting_iff, h.mem_owners, exists_and_left, exists_eq, and_true]
  exact exists_congr fun q => and_comm

/-- What lets an automaton that accepts nothing accept at its exit gives a sound pattern. -/
theorem sound_of_acceptExit {n : Nfa} (hn : n.Whole) (howners : ∀ q, (n.state q).owners = ∅)
    {d : Definition} (hdefinition : p.definition = d) (hnfa : p.nfa = n.acceptExit d.owner)
    (hdfa : p.dfa = .ofNfa p.nfa) : p.Sound where
  whole := hnfa ▸ hn.acceptExit d.owner
  dfa_eq := hdfa
  mem_owners {q o} := by
    rw [hnfa, hdefinition, Nfa.exit_eq_getLast?, Nfa.graph_acceptExit, ← Nfa.exit_eq_getLast?]
    exact Nfa.mem_owners_acceptExit hn.wellFormed howners

/-- A pattern that compiles is that of the expression that its definition reads as. -/
theorem exists_regex_of_compile {lookup : String → Option Nfa} {d : Definition}
    (h : compile lookup d = .ok p) :
    ∃ r, Regex.Written (fun name => (lookup name).isSome) .alternation
        (d.regex.toList.filter fun c => c ≠ ' ' ∧ c ≠ '\t') r ∧
      p.definition = d ∧ p.nfa = (r.automaton lookup).acceptExit d.owner ∧ p.dfa = .ofNfa p.nfa := by
  obtain ⟨plain, hplain, h⟩ := bind_eq_ok_iff.1 h
  obtain ⟨r, hread, rfl⟩ := map_eq_ok_iff.1 hplain
  refine ⟨r, Regex.read_eq_ok_iff.1 hread, ?_⟩
  split at h
  · cases h
  · cases h
    exact ⟨rfl, rfl, rfl⟩

theorem sound_of_compile {lookup : String → Option Nfa}
    (hlookup : ∀ name m, lookup name = some m → m.Whole) {d : Definition}
    (h : compile lookup d = .ok p) : p.definition = d ∧ p.Sound := by
  obtain ⟨r, hwritten, hdefinition, hnfa, hdfa⟩ := exists_regex_of_compile h
  have hwhole := Regex.whole_automaton hlookup hwritten.proper hwritten.populated
  exact ⟨hdefinition,
    sound_of_acceptExit hwhole (Regex.owners_automaton lookup r) hdefinition hnfa hdfa⟩

/-- Merging keeps the name, place and flag. -/
theorem merge_definition (p other : Pattern) :
    (p.merge other).definition.owner = p.definition.owner ∧
      (p.merge other).definition.internal = p.definition.internal := by
  rw [merge]
  split <;> exact ⟨rfl, rfl⟩

theorem Sound.owners_releaseExit (h : p.Sound) (q : Nat) :
    (p.nfa.releaseExit.state q).owners = ∅ := by
  obtain ⟨first, last, hends⟩ := Nfa.exists_ends h.whole.graph_ne_nil
  refine Nfa.owners_releaseExit hends.exit (fun q o ho => ?_) q
  exact Option.some.inj ((h.mem_owners.1 ho).1.symm.trans hends.exit)

/-- Merging patterns with states joins their automata, and the first owns the result. -/
theorem merge_eq (hp : p.nfa.graph ≠ []) (hother : other.nfa.graph ≠ []) :
    p.merge other =
      let nfa := (p.nfa.releaseExit.union other.nfa.bare).acceptExit p.definition.owner
      let regex := s!"{p.definition.regex} | {other.definition.regex}"
      { definition := { p.definition with regex }, nfa, dfa := .ofNfa nfa } := by
  rw [Pattern.merge, if_neg]
  simp [hp, hother]

theorem Sound.merge_eq (h : p.Sound) (hother : other.Sound) :
    p.merge other =
      let nfa := (p.nfa.releaseExit.union other.nfa.bare).acceptExit p.definition.owner
      let regex := s!"{p.definition.regex} | {other.definition.regex}"
      { definition := { p.definition with regex }, nfa, dfa := .ofNfa nfa } :=
  Pattern.merge_eq h.whole.graph_ne_nil hother.whole.graph_ne_nil

theorem Sound.merge (h : p.Sound) (hother : other.Sound) : (p.merge other).Sound := by
  have howners := Nfa.owners_union h.owners_releaseExit (Nfa.owners_bare other.nfa)
  rw [h.merge_eq hother]
  exact sound_of_acceptExit (h.whole.releaseExit.union hother.whole.bare) howners rfl rfl rfl

end Pattern

namespace Patterns

variable {patterns patterns' : List Pattern} {d : Definition}

/-- The lists of patterns that definitions lead to, one after the other. -/
inductive Defined : List Pattern → Prop
  | nil : Defined []
  | define {patterns patterns' : List Pattern} {d : Definition} :
      Defined patterns → define patterns d = .ok patterns' → Defined patterns'

theorem mem_of_find? {name : String} {p : Pattern} (h : find? patterns name = some p) :
    p ∈ patterns ∧ p.definition.name = name :=
  ⟨List.mem_of_find?_eq_some h, by simpa using List.find?_some h⟩

/-- Merging leaves what it keeps of each pattern as it is in the list. -/
theorem map_merge {α : Type} {f : Pattern → α} {new : Pattern}
    (hf : ∀ p, f (p.merge new) = f p) (name : String) (patterns : List Pattern) :
    (patterns.map fun p => if p.definition.name = name then p.merge new else p).map f =
      patterns.map f := by
  rw [List.map_map]
  refine List.map_congr_left fun p _ => ?_
  show f (if _ then _ else _) = _
  split
  · exact hf p
  · rfl

theorem compileNext_eq_ok_iff {new : Pattern} : compileNext patterns d = .ok new ↔
    d.name ≠ eofName ∧
      Pattern.compile (nfa? patterns) { d with position := position patterns d.name } = .ok new := by
  rw [compileNext]
  split
  · next heq => exact ⟨fun h => (nomatch h), fun h => absurd heq h.1⟩
  · next hne => exact (and_iff_right hne).symm

/-- What is embedded is the automaton of a pattern. -/
theorem forall_nfa? {P : Nfa → Prop} (h : ∀ p ∈ patterns, P p.nfa) (name : String) (m : Nfa)
    (hm : nfa? patterns name = some m) : P m := by
  obtain ⟨p, hp, rfl⟩ := Option.map_eq_some_iff.1 hm
  exact h p (mem_of_find? hp).1

/-- A definition that compiles against sound patterns gives a sound pattern, which gets the place of
the pattern of its name. -/
theorem sound_of_compileNext (hsound : ∀ p ∈ patterns, p.Sound) {new : Pattern}
    (h : compileNext patterns d = .ok new) :
    new.definition = { d with position := position patterns d.name } ∧ new.Sound :=
  Pattern.sound_of_compile (forall_nfa? fun p hp => (hsound p hp).whole) (compileNext_eq_ok_iff.1 h).2

/-- What holds for all patterns, and is kept by merging, holds when one more is added. -/
theorem forall_mem_add {P : Pattern → Prop} {new : Pattern} (h : ∀ p ∈ patterns, P p)
    (hmerge : ∀ p, P p → P (p.merge new)) (hnew : P new) : ∀ p ∈ add patterns new, P p := by
  rw [add]
  split
  · intro q hq
    obtain ⟨p, hp, rfl⟩ := List.mem_map.1 hq
    split
    · exact hmerge p (h p hp)
    · exact h p hp
  · intro q hq
    rcases List.mem_append.1 hq with hq | hq
    · exact h q hq
    · exact List.mem_singleton.1 hq ▸ hnew

/-- All patterns that are defined are sound. -/
theorem Defined.sound (h : Defined patterns) : ∀ p ∈ patterns, p.Sound := by
  induction h with
  | nil => exact fun _ hp => absurd hp List.not_mem_nil
  | define _ hdefine ih =>
    obtain ⟨new, hnew, rfl⟩ := map_eq_ok_iff.1 hdefine
    obtain ⟨-, hsound⟩ := sound_of_compileNext ih hnew
    exact forall_mem_add ih (fun p hp => hp.merge hsound) hsound

/-- The automata of patterns that are defined are built. -/
theorem Defined.built (h : Defined patterns) : ∀ p ∈ patterns, p.nfa.Built := by
  induction h with
  | nil => exact fun _ hp => absurd hp List.not_mem_nil
  | define _ hdefine ih =>
    obtain ⟨new, hnew, rfl⟩ := map_eq_ok_iff.1 hdefine
    have hbuilt : new.nfa.Built := .pattern (forall_nfa? ih) (compileNext_eq_ok_iff.1 hnew).2
    exact forall_mem_add ih (fun p hp => .merge hp hbuilt) hbuilt

/-- The place of a pattern that is defined is its place in the list. -/
theorem Defined.positions (h : Defined patterns) :
    patterns.map (·.definition.position) = List.range patterns.length := by
  induction h with
  | nil => rfl
  | @define patterns patterns' d hdefined hdefine ih =>
    obtain ⟨new, hnew, rfl⟩ := map_eq_ok_iff.1 hdefine
    obtain ⟨hdefinition, -⟩ := sound_of_compileNext hdefined.sound hnew
    rw [add]
    split
    · rw [List.length_map, ← ih]
      exact map_merge (fun p => congrArg Owner.position (Pattern.merge_definition p new).1) _ _
    · next hnone =>
      have hlast : position patterns d.name = patterns.length := by
        rw [Option.not_isSome_iff_eq_none, find?, List.find?_eq_none, hdefinition] at hnone
        exact List.findIdx_eq_length.2 fun p hp => Bool.eq_false_iff.2 (hnone p hp)
      rw [List.map_append, ih, List.length_append, List.length_singleton, List.range_succ,
        List.map_singleton, hdefinition, hlast]

/-- The patterns of a list stand in the order of their places. -/
theorem Defined.pairwise (h : Defined patterns) :
    patterns.Pairwise fun p q => p.definition.position < q.definition.position := by
  have hrange : (patterns.map (·.definition.position)).Pairwise (· < ·) := by
    rw [h.positions]
    exact List.pairwise_lt_range
  exact List.pairwise_map.1 hrange

/-- No two patterns that are defined have the same name. -/
theorem Defined.nodup_names (h : Defined patterns) :
    (patterns.map (·.definition.name)).Nodup := by
  induction h with
  | nil => exact List.nodup_nil
  | @define patterns patterns' d hdefined hdefine ih =>
    obtain ⟨new, hnew, rfl⟩ := map_eq_ok_iff.1 hdefine
    rw [add]
    split
    · rw [map_merge fun p => congrArg Owner.name (Pattern.merge_definition p new).1]
      exact ih
    · next hnone =>
      rw [Option.not_isSome_iff_eq_none, find?, List.find?_eq_none] at hnone
      rw [List.map_append, List.nodup_append]
      refine ⟨ih, List.nodup_singleton _, fun name hname name' hname' => ?_⟩
      obtain ⟨p, hp, rfl⟩ := List.mem_map.1 hname
      obtain rfl := List.mem_singleton.1 hname'
      simpa using hnone p hp

/-- The name of the end of the input is not defined. -/
theorem Defined.eofName_notMem (h : Defined patterns) :
    eofName ∉ patterns.map (·.definition.name) := by
  induction h with
  | nil => exact List.not_mem_nil
  | @define patterns patterns' d hdefined hdefine ih =>
    obtain ⟨new, hnew, rfl⟩ := map_eq_ok_iff.1 hdefine
    have hname : new.definition.name = d.name :=
      (sound_of_compileNext hdefined.sound hnew).1 ▸ rfl
    obtain ⟨hreserved, -⟩ := compileNext_eq_ok_iff.1 hnew
    rw [add]
    split
    · rw [map_merge fun p => congrArg Owner.name (Pattern.merge_definition p new).1]
      exact ih
    · rw [List.map_append, List.mem_append, List.map_singleton, List.mem_singleton, hname]
      exact not_or.2 ⟨ih, Ne.symm hreserved⟩

/-- A pattern that is defined is found by its name. -/
theorem Defined.find?_name (h : Defined patterns) {p : Pattern} (hp : p ∈ patterns) :
    find? patterns p.definition.name = some p := by
  obtain ⟨q, hq⟩ : ∃ q, find? patterns p.definition.name = some q := by
    refine Option.isSome_iff_exists.1 (List.find?_isSome.2 ⟨p, hp, ?_⟩)
    exact decide_eq_true rfl
  obtain ⟨hmem, hname⟩ := mem_of_find? hq
  rw [hq, List.inj_on_of_nodup_map h.nodup_names hmem hp hname]

theorem Defined.of_foldlM (h : Defined patterns) {definitions : List Definition}
    (hfold : definitions.foldlM Patterns.define patterns = .ok patterns') : Defined patterns' := by
  induction definitions generalizing patterns with
  | nil => exact Except.ok.inj hfold ▸ h
  | cons d definitions ih =>
    rw [List.foldlM_cons] at hfold
    obtain ⟨next, hnext, hfold⟩ := bind_eq_ok_iff.1 hfold
    exact ih (h.define hnext) hfold

theorem Defined.of_defineLines (h : Defined patterns) {number : Nat} {lines : List (List Char)}
    (hlines : Definitions.defineLines patterns number lines = .ok patterns') :
    Defined patterns' := by
  induction lines generalizing patterns number with
  | nil => exact Except.ok.inj hlines ▸ h
  | cons line lines ih =>
    obtain ⟨next, hnext, hlines⟩ := bind_eq_ok_iff.1 hlines
    refine ih ?_ hlines
    obtain ⟨parsed, -, hstep⟩ := bind_eq_ok_iff.1 (mapError_eq_ok_iff.1 hnext)
    cases parsed with
    | none => exact Except.ok.inj hstep ▸ h
    | some d => exact h.define (mapError_eq_ok_iff.1 hstep)

end Patterns

namespace PatternSet

/-- The set is compiled from a definition text or from a list of definitions. -/
def Compiled (s : PatternSet) : Prop :=
  (∃ text, parse text = .ok s) ∨ ∃ definitions, ofDefinitions definitions = .ok s

theorem Compiled.exists_defined {s : PatternSet} (h : s.Compiled) :
    ∃ patterns, Patterns.Defined patterns ∧ s = ofPatterns patterns := by
  rcases h with ⟨text, h⟩ | ⟨definitions, h⟩
  · obtain ⟨patterns, hlines, rfl⟩ := map_eq_ok_iff.1 h
    exact ⟨patterns, Patterns.Defined.nil.of_defineLines hlines, rfl⟩
  · obtain ⟨patterns, hfold, rfl⟩ := map_eq_ok_iff.1 h
    exact ⟨patterns, Patterns.Defined.nil.of_foldlM hfold, rfl⟩

end PatternSet

end Predictive
