import Predictive.Proofs.Patterns
import Mathlib.Data.List.ReduceOption

/-!
# What defined patterns match

Definitions have languages, one after the other: in the regular expression of a definition, a name
stands for the texts of the definitions of this name that come before it (`Patterns.Meaning`). A set of
patterns that compiles has one pattern for each name that is defined, in the order of the first
definitions, and each matches the texts of all definitions of its name (`PatternSet.describes`). This
is kept by every further definition (`Patterns.Tells.define`), whether it adds a pattern or an
alternative.
-/

namespace Predictive

open Computability

/-! ## Expressions with names -/

namespace Regex

/-- The texts that an expression stands for, where a name stands for the texts that are given. -/
def languageWith (embedded : String → Language Char) : Regex → Language Char
  | oneOf labels => {cs | ∃ c, ∃ l ∈ labels, cs = [c] ∧ l.Reads c}
  | embed name => embedded name
  | concat a b => a.languageWith embedded * b.languageWith embedded
  | alt a b => a.languageWith embedded + b.languageWith embedded
  | star a => (a.languageWith embedded)∗
  | plus a => a.languageWith embedded * (a.languageWith embedded)∗
  | optional a => 1 + a.languageWith embedded

theorem language_eq_languageWith (lookup : String → Option Nfa) (r : Regex) :
    r.language lookup = r.languageWith fun name => ((lookup name).getD .empty).language := by
  induction r with
  | oneOf labels | embed name => rfl
  | concat a b iha ihb | alt a b iha ihb => rw [language, languageWith, iha, ihb]
  | star a iha | plus a iha | optional a iha => rw [language, languageWith, iha]

end Regex

/-! ## The words of patterns -/

namespace Nfa

variable {a n : Nfa}

/-- The edges and the run alone decide on the words. -/
theorem words_of_edge_iff (hgraph : a.graph = n.graph)
    (hedge : ∀ q l r, a.Edge q l r ↔ n.Edge q l r) : a.words = n.words := by
  ext cs
  simp only [Regex.mem_words_iff_exists_path, entry_eq_head?, exit_eq_getLast?, hgraph]
  have hpath (first last : Nat) : a.Path first cs last ↔ n.Path first cs last :=
    ⟨fun h => h.mono fun q l r => (hedge q l r).1, fun h => h.mono fun q l r => (hedge q l r).2⟩
  simp only [hpath]

theorem words_acceptExit (n : Nfa) (o : Owner) : (n.acceptExit o).words = n.words :=
  words_of_edge_iff (graph_acceptExit n o) fun _ _ _ => edge_acceptExit

theorem words_releaseExit (n : Nfa) : n.releaseExit.words = n.words :=
  words_of_edge_iff (graph_releaseExit n) fun _ _ _ => edge_releaseExit

end Nfa

/-- A merged pattern matches what either of the two does. -/
theorem Pattern.Sound.words_merge {p other : Pattern} (h : p.Sound) (hother : other.Sound) :
    (p.merge other).nfa.words = p.nfa.words + other.nfa.words := by
  have hreleased := h.whole.releaseExit
  have hbare := hother.whole.bare
  rw [h.merge_eq hother, Nfa.words_acceptExit,
    Nfa.words_union hreleased.wellFormed hbare.wellFormed hreleased.graph_ne_nil hbare.graph_ne_nil,
    Nfa.words_releaseExit, hother.whole.words_bare]

namespace Patterns

variable {patterns patterns' : List Pattern} {d : Definition}

/-- A definition that compiles reads as an expression, and its pattern has the words of this. -/
theorem Defined.words_of_compileNext (h : Defined patterns) {new : Pattern}
    (hnew : compileNext patterns d = .ok new) :
    ∃ r, Regex.Written (fun name => (nfa? patterns name).isSome) .alternation
        (d.regex.toList.filter fun c => c ≠ ' ' ∧ c ≠ '\t') r ∧
      new.nfa.words = r.language (nfa? patterns) := by
  have hlookup : ∀ name m, nfa? patterns name = some m → m.Built ∧ m.graph ≠ [] :=
    forall_nfa? fun p hp => ⟨h.built p hp, (h.sound p hp).whole.graph_ne_nil⟩
  obtain ⟨r, hwritten, -, hnfa, -⟩ :=
    Pattern.exists_regex_of_compile (compileNext_eq_ok_iff.1 hnew).2
  refine ⟨r, hwritten, ?_⟩
  rw [hnfa, Nfa.words_acceptExit, Regex.words_automaton hlookup hwritten.proper]

/-! ## Definitions and their languages -/

/-- What is defined under a name: the texts of all its definitions. -/
def named (meanings : List (Definition × Language Char)) (name : String) : Language Char :=
  {cs | ∃ m ∈ meanings, m.1.name = name ∧ cs ∈ m.2}

/-- Definitions in order, each with its language: the texts that its regular expression stands for,
where a name stands for what is defined under it before. -/
inductive Meaning : List (Definition × Language Char) → Prop
  | nil : Meaning []
  | define {meanings : List (Definition × Language Char)} {d : Definition} {r : Regex} :
      Meaning meanings →
      Regex.Written (fun name => meanings.any fun m => m.1.name = name) .alternation
        (d.regex.toList.filter fun c => c ≠ ' ' ∧ c ≠ '\t') r →
      Meaning (meanings ++ [(d, r.languageWith (named meanings))])

variable {ms ms' : List (Definition × Language Char)} {L : Language Char} {name : String}

theorem mem_named {cs : List Char} : cs ∈ named ms name ↔ ∃ m ∈ ms, m.1.name = name ∧ cs ∈ m.2 :=
  Iff.rfl

theorem named_concat_self (ms : List (Definition × Language Char)) (d : Definition)
    (L : Language Char) : named (ms ++ [(d, L)]) d.name = named ms d.name + L := by
  ext cs
  simp only [Language.mem_add, mem_named, List.mem_append, List.mem_singleton, or_and_right,
    exists_or, exists_eq_left, true_and]

theorem named_concat_of_ne (h : d.name ≠ name) : named (ms ++ [(d, L)]) name = named ms name := by
  ext cs
  simp only [mem_named, List.mem_append, List.mem_singleton, or_and_right, exists_or, exists_eq_left,
    h, false_and, or_false]

/-- The definitions have these languages only. -/
theorem Meaning.unique (h : Meaning ms) (h' : Meaning ms') (heq : ms.map Prod.fst = ms'.map Prod.fst) :
    ms = ms' := by
  induction h generalizing ms' with
  | nil => exact (List.map_eq_nil_iff.1 heq.symm).symm
  | define _ hwritten ih =>
    cases h' with
    | nil => exact absurd heq (by simp)
    | define hms' hwritten' =>
      rw [List.map_append, List.map_append, List.map_singleton, List.map_singleton,
        List.append_singleton_inj] at heq
      obtain ⟨hms, rfl⟩ := heq
      obtain rfl := ih hms' hms
      have hr := (Regex.read_eq_ok_iff.2 hwritten).symm.trans (Regex.read_eq_ok_iff.2 hwritten')
      rw [Except.ok.inj hr]

/-! ## What is defined so far -/

/-- The patterns are those of the definitions: one for each name in the order of their first
definitions, with the flag of the first and the texts of all. -/
structure Tells (patterns : List Pattern) (ms : List (Definition × Language Char)) : Prop where
  names : patterns.map (·.definition.name) = (ms.map (·.1.name)).eraseDups
  internal : ∀ p ∈ patterns, (ms.find? fun m => m.1.name = p.definition.name).map (·.1.internal) =
    some p.definition.internal
  words : ∀ p ∈ patterns, p.nfa.words = named ms p.definition.name

theorem eraseDups_concat_of_mem {names : List String} (h : name ∈ names) :
    (names ++ [name]).eraseDups = names.eraseDups := by
  simp [List.eraseDups_append, List.removeAll, h]

theorem eraseDups_concat_of_notMem {names : List String} (h : name ∉ names) :
    (names ++ [name]).eraseDups = names.eraseDups ++ [name] := by
  simp [List.eraseDups_append, List.removeAll, h, List.eraseDups_cons]

namespace Tells

theorem nil : Tells [] [] :=
  ⟨rfl, fun _ hp => absurd hp List.not_mem_nil, fun _ hp => absurd hp List.not_mem_nil⟩

theorem find?_isSome (h : Tells patterns ms) (name : String) :
    (find? patterns name).isSome = ms.any fun m => m.1.name = name := by
  have hnames : name ∈ patterns.map (·.definition.name) ↔ name ∈ ms.map (·.1.name) := by
    rw [h.names, List.mem_eraseDups]
  rw [Bool.eq_iff_iff, find?, List.find?_isSome, List.any_eq_true]
  simpa only [decide_eq_true_eq, List.mem_map] using hnames

theorem named_eq_zero (h : Tells patterns ms) {name : String} (hnone : find? patterns name = none) :
    named ms name = 0 := by
  have hany := h.find?_isSome name
  rw [hnone, eq_comm, Option.isSome_none, List.any_eq_false] at hany
  refine Set.eq_empty_of_forall_notMem ?_
  rintro cs ⟨m, hm, hname, -⟩
  exact hany m hm (decide_eq_true hname)

/-- What is embedded by a name is what is defined under it so far. -/
theorem language_nfa? (hdefined : Defined patterns) (h : Tells patterns ms) (name : String) :
    ((nfa? patterns name).getD .empty).language = named ms name := by
  rw [nfa?]
  cases hfind : find? patterns name with
  | some p =>
    obtain ⟨hp, rfl⟩ := mem_of_find? hfind
    have hwhole := (hdefined.sound p hp).whole
    exact (Nfa.language_eq_words hwhole.wellFormed hwhole.full).trans (h.words p hp)
  | none => exact (Nfa.language_eq_zero rfl).trans (h.named_eq_zero hfind).symm

/-- A further definition leaves the flags as they are. -/
theorem internal_concat (h : Tells patterns ms) (m : Definition × Language Char) {p : Pattern}
    (hp : p ∈ patterns) :
    ((ms ++ [m]).find? fun m => m.1.name = p.definition.name).map (·.1.internal) =
      some p.definition.internal := by
  have hfirst := h.internal p hp
  obtain ⟨first, hfind, -⟩ := Option.map_eq_some_iff.1 hfirst
  rw [List.find?_append, hfind, Option.some_or, ← hfind, hfirst]

/-- A definition of a name that is defined adds an alternative to its pattern. -/
theorem merge (h : Tells patterns ms) {new : Pattern} (hnew : new.Sound)
    (hsound : ∀ p ∈ patterns, p.Sound) (hname : d.name ∈ ms.map (·.1.name)) :
    Tells (patterns.map fun p => if p.definition.name = d.name then p.merge new else p)
      (ms ++ [(d, new.nfa.words)]) := by
  have hmergeName (p : Pattern) : (p.merge new).definition.name = p.definition.name :=
    congrArg Owner.name (Pattern.merge_definition p new).1
  refine ⟨?_, fun q hq => ?_, fun q hq => ?_⟩
  · rw [map_merge hmergeName, h.names, List.map_append, List.map_singleton,
      eraseDups_concat_of_mem hname]
  all_goals
    obtain ⟨p, hp, rfl⟩ := List.mem_map.1 hq
    split
  · rw [hmergeName, (Pattern.merge_definition p new).2, h.internal_concat _ hp]
  · exact h.internal_concat _ hp
  · next heq =>
    rw [(hsound p hp).words_merge hnew, hmergeName, h.words p hp, heq, named_concat_self]
  · next hne => rw [h.words p hp, named_concat_of_ne (Ne.symm hne)]

/-- A definition of a new name adds its pattern. -/
theorem concat (h : Tells patterns ms) {new : Pattern} (hdefinition : new.definition.name = d.name)
    (hinternal : new.definition.internal = d.internal) (hname : d.name ∉ ms.map (·.1.name)) :
    Tells (patterns ++ [new]) (ms ++ [(d, new.nfa.words)]) := by
  have hne (m : Definition × Language Char) (hm : m ∈ ms) : m.1.name ≠ d.name :=
    fun heq => hname (heq ▸ List.mem_map_of_mem hm)
  have hnone : named ms d.name = 0 :=
    Set.eq_empty_of_forall_notMem fun cs ⟨m, hm, heq, _⟩ => hne m hm heq
  refine ⟨?_, fun q hq => ?_, fun q hq => ?_⟩
  · rw [List.map_append, List.map_singleton, h.names, List.map_append, List.map_singleton,
      eraseDups_concat_of_notMem hname, hdefinition]
  all_goals rcases List.mem_append.1 hq with hq | hq
  · exact h.internal_concat _ hq
  · obtain rfl := List.mem_singleton.1 hq
    have hfind : (ms.find? fun m => m.1.name = d.name) = none := by
      simpa using fun m hm => hne m hm
    rw [hdefinition, List.find?_append, hfind, hinternal]
    simp
  · have hother : d.name ≠ q.definition.name := fun heq => hname <| by
      rw [← List.mem_eraseDups, ← h.names, heq]
      exact List.mem_map_of_mem hq
    rw [h.words q hq, named_concat_of_ne hother]
  · obtain rfl := List.mem_singleton.1 hq
    rw [hdefinition, named_concat_self, hnone, zero_add]

/-- A further definition has a language, and then the patterns are those of one definition more. -/
theorem define (hdefined : Defined patterns) (hms : Meaning ms) (h : Tells patterns ms)
    (hdefine : define patterns d = .ok patterns') :
    ∃ L, Meaning (ms ++ [(d, L)]) ∧ Tells patterns' (ms ++ [(d, L)]) := by
  obtain ⟨new, hnew, rfl⟩ := map_eq_ok_iff.1 hdefine
  obtain ⟨hdefinition, hsound⟩ := sound_of_compileNext hdefined.sound hnew
  obtain ⟨r, hwritten, hwords⟩ := hdefined.words_of_compileNext hnew
  have hnamed : (fun name => ((nfa? patterns name).getD .empty).language) = named ms :=
    funext (h.language_nfa? hdefined)
  have hknown : (fun name => (nfa? patterns name).isSome) =
      fun name => ms.any fun m => m.1.name = name :=
    funext fun name => Option.isSome_map.trans (h.find?_isSome name)
  -- The expression depends on the patterns only through the names and what is defined under them.
  rw [Regex.language_eq_languageWith, hnamed] at hwords
  rw [hknown] at hwritten
  refine ⟨new.nfa.words, hwords ▸ hms.define hwritten, ?_⟩
  have hname : new.definition.name = d.name := hdefinition ▸ rfl
  rw [add, h.find?_isSome, hname]
  split
  · next hsome =>
    refine h.merge hsound hdefined.sound ?_
    simpa using hsome
  · next hnone =>
    refine h.concat hname (hdefinition ▸ rfl) ?_
    simpa using hnone

/-- Definitions one after the other have languages, and the patterns are those of all. -/
theorem foldlM (hdefined : Defined patterns) (hms : Meaning ms) (h : Tells patterns ms)
    {ds : List Definition} (hfold : ds.foldlM Patterns.define patterns = .ok patterns') :
    ∃ ms', ms'.map Prod.fst = ms.map Prod.fst ++ ds ∧ Meaning ms' ∧ Tells patterns' ms' := by
  induction ds generalizing patterns ms with
  | nil => exact ⟨ms, (List.append_nil _).symm, hms, Except.ok.inj hfold ▸ h⟩
  | cons d ds ih =>
    rw [List.foldlM_cons] at hfold
    obtain ⟨next, hnext, hfold⟩ := bind_eq_ok_iff.1 hfold
    obtain ⟨L, hL, htells⟩ := define hdefined hms h hnext
    obtain ⟨ms', hds, hrest⟩ := ih (hdefined.define hnext) hL htells hfold
    refine ⟨ms', ?_, hrest⟩
    rw [hds, List.map_append, List.append_assoc]
    rfl

end Tells

end Patterns

/-! ## Definition texts -/

namespace Definitions

/-- The lines of a text are read one by one, and the definitions found are defined in order. -/
theorem exists_found_of_defineLines {patterns patterns' : List Pattern} {number : Nat}
    {lines : List (List Char)} (h : defineLines patterns number lines = .ok patterns') :
    ∃ found, lines.mapM parseLine = .ok found ∧
      found.reduceOption.foldlM Patterns.define patterns = .ok patterns' := by
  induction lines generalizing patterns number with
  | nil => exact ⟨[], rfl, Except.ok.inj h ▸ rfl⟩
  | cons line lines ih =>
    obtain ⟨next, hnext, h⟩ := bind_eq_ok_iff.1 h
    obtain ⟨parsed, hparsed, hstep⟩ := bind_eq_ok_iff.1 (mapError_eq_ok_iff.1 hnext)
    obtain ⟨found, hfound, hfold⟩ := ih h
    refine ⟨parsed :: found, ?_, ?_⟩
    · rw [List.mapM_cons, hparsed]
      show (lines.mapM parseLine >>= fun found => pure (parsed :: found)) = _
      rw [hfound]
      rfl
    · cases parsed with
      | none =>
        rw [List.reduceOption_cons_of_none, Except.ok.inj hstep]
        exact hfold
      | some d =>
        rw [List.reduceOption_cons_of_some, List.foldlM_cons, mapError_eq_ok_iff.1 hstep]
        exact hfold

end Definitions

namespace PatternSet

/-- The set is what the definitions say. -/
structure Describes (s : PatternSet) (ds : List Definition) : Prop where
  /-- There is one pattern for each name, in the order of the first definitions. -/
  names : s.patterns.map (·.definition.name) = (ds.map (·.name)).eraseDups
  nodup_names : (s.patterns.map (·.definition.name)).Nodup
  eofName_notMem : eofName ∉ s.patterns.map (·.definition.name)
  position : ∀ (i : Nat) (p : Pattern), s.patterns[i]? = some p → p.definition.position = i
  /-- The flag of a pattern is that of the first definition of its name. -/
  internal : ∀ p ∈ s.patterns, (ds.find? fun d => d.name = p.definition.name).map (·.internal) =
    some p.definition.internal
  /-- The definitions have languages, and a name matches the texts of all its definitions. -/
  language : ∃ ms, (∀ ms', ms'.map Prod.fst = ds ∧ Patterns.Meaning ms' ↔ ms' = ms) ∧
    ∀ name text : String, (s.pattern? name).any (·.accepts text) = true ↔
      text.toList ∈ Patterns.named ms name

theorem describes_of_foldlM {patterns : List Pattern} {ds : List Definition}
    (h : ds.foldlM Patterns.define [] = .ok patterns) : (ofPatterns patterns).Describes ds := by
  have hdefined : Patterns.Defined patterns := Patterns.Defined.nil.of_foldlM h
  obtain ⟨ms, rfl, hms, htells⟩ := Patterns.Tells.foldlM .nil .nil .nil h
  refine ⟨?_, hdefined.nodup_names, hdefined.eofName_notMem, fun i p hp => ?_, fun p hp => ?_,
    ms, fun ms' => ?_, fun name text => ?_⟩
  · rw [List.map_map]
    exact htells.names
  · obtain ⟨hi, rfl⟩ : ∃ h : i < patterns.length, patterns[i] = p := List.getElem?_eq_some_iff.1 hp
    have hposition := congrArg (·[i]?) hdefined.positions
    simpa [hi] using hposition
  · rw [List.find?_map, Option.map_map]
    exact htells.internal p hp
  · constructor
    · exact fun ⟨hds, hms'⟩ => hms'.unique hms hds
    · rintro rfl
      exact ⟨rfl, hms⟩
  · show (Patterns.find? patterns name).any _ = true ↔ _
    cases hfind : Patterns.find? patterns name with
    | some p =>
      obtain ⟨hp, rfl⟩ := Patterns.mem_of_find? hfind
      rw [Option.any_some, (hdefined.sound p hp).accepts_iff, htells.words p hp]
    | none =>
      rw [htells.named_eq_zero hfind]
      exact iff_of_false Bool.false_ne_true (Language.notMem_zero _)

/-- What a definition text or a list of definitions is compiled to is what the definitions say: those
found in the lines of the text, or those of the list. -/
theorem describes (s : PatternSet) :
    (∀ text, parse text = .ok s →
      ∃ found, (Text.lines text.toList).mapM Definitions.parseLine = .ok found ∧
        s.Describes found.reduceOption) ∧
    ∀ ds, ofDefinitions ds = .ok s → s.Describes ds := by
  refine ⟨fun text h => ?_, fun ds h => ?_⟩
  · obtain ⟨patterns, hlines, rfl⟩ := map_eq_ok_iff.1 h
    obtain ⟨found, hfound, hfold⟩ := Definitions.exists_found_of_defineLines hlines
    exact ⟨found, hfound, describes_of_foldlM hfold⟩
  · obtain ⟨patterns, hfold, rfl⟩ := map_eq_ok_iff.1 h
    exact describes_of_foldlM hfold

/-- The second definition of `a` extends what the first one defines by a `z`, which is not repeated, and
`b` embeds the first one only. -/
theorem describes_redefined :
    let ds : List Definition := [{ name := "a", regex := "x" }, { name := "b", regex := ":a: y" },
      { name := "a", regex := "z:a:", internal := true }]
    (∃ s, parse "a: x\nb: :a: y # not zxy\n\n:a: z:a:" = .ok s ∧ s.Describes ds) ∧
      ∃ s, ofDefinitions ds = .ok s ∧ s.Describes ds ∧
        s.patterns.map (·.definition.name) = ["a", "b"] ∧
        ∃ ms, ms.map Prod.fst = ds ∧ Patterns.Meaning ms ∧
          ['z', 'x'] ∈ Patterns.named ms "a" ∧ ['z', 'z', 'x'] ∉ Patterns.named ms "a" ∧
          ['x', 'y'] ∈ Patterns.named ms "b" ∧ ['z', 'x', 'y'] ∉ Patterns.named ms "b" := by
  intro ds
  have hparse : (parse "a: x\nb: :a: y # not zxy\n\n:a: z:a:").isOk = true := by decide +kernel
  have hlines : (Text.lines "a: x\nb: :a: y # not zxy\n\n:a: z:a:".toList).mapM
      Definitions.parseLine = .ok [some ds[0], some ds[1], none, some ds[2]] := by
    decide +kernel
  have hcheck : (match ofDefinitions ds with
      | .ok s => ["zx", "zzx"].map (fun text => (s.pattern? "a").any (·.accepts text)) ++
          ["xy", "zxy"].map (fun text => (s.pattern? "b").any (·.accepts text))
      | .error _ => []) = [true, false, true, false] := by
    decide +kernel
  refine ⟨?_, ?_⟩
  · cases hs : parse "a: x\nb: :a: y # not zxy\n\n:a: z:a:" with
    | error e =>
      rw [hs] at hparse
      cases hparse
    | ok s =>
      obtain ⟨found, hfound, hdescribes⟩ := (describes s).1 _ hs
      obtain rfl := Except.ok.inj (hlines.symm.trans hfound)
      exact ⟨s, rfl, hdescribes⟩
  · split at hcheck
    · next s hs =>
      have hdescribes := (describes s).2 ds hs
      obtain ⟨ms, hms, hlanguage⟩ := hdescribes.language
      obtain ⟨hds, hmeaning⟩ := (hms ms).2 rfl
      simp only [List.map_cons, List.map_nil, List.cons_append, List.nil_append, List.cons.injEq,
        and_true, hlanguage, ← Bool.not_eq_true] at hcheck
      exact ⟨s, hs, hdescribes, hdescribes.names, ms, hds, hmeaning, hcheck⟩
    · cases hcheck

end PatternSet

end Predictive
