import Mathlib.Order.CompletePartialOrder
import Predictive.Proofs.MasterAutomaton
import Predictive.Proofs.PatternLanguages

/-!
# Marked definitions

A definition is marked with a leading `:` when its texts are not to become tokens. The mark is kept for
the name: the first definition of a name decides whether the name gives tokens (`Patterns.Offers`), and
then it does so for the texts of all its definitions, marked or not (`PatternSet.names_iff_offers`).
Only the unmarked definitions give tokens (`Patterns.offered`) exactly if each mark agrees with that of
the first definition of its name, up to marked definitions whose texts the unmarked ones match as well
(`Patterns.Meaning.forall_offered_iff`).
-/

namespace Predictive

open Computability

/-! ## Some text is matched -/

theorem Label.exists_reads {l : Label} (h : l ≠ .epsilon) : ∃ c, l.Reads c := by
  cases l with
  | epsilon => exact absurd rfl h
  | any => exact ⟨'a', .inl rfl⟩
  | char c => exact ⟨c, .inr rfl⟩

namespace Regex

/-- An expression that names only what matches some text does so itself. -/
theorem exists_mem_languageWith {known : String → Bool} {embedded : String → Language Char}
    (hembedded : ∀ name, known name = true → ∃ cs, cs ∈ embedded name) {r : Regex}
    (hproper : r.Proper known) (hpopulated : r.Populated) :
    ∃ cs, cs ∈ r.languageWith embedded := by
  induction r with
  | oneOf labels =>
    obtain ⟨l, hl⟩ := List.exists_mem_of_ne_nil labels hpopulated
    obtain ⟨c, hc⟩ := Label.exists_reads fun heq => hproper (heq ▸ hl)
    exact ⟨[c], c, l, hl, rfl, hc⟩
  | embed name => exact hembedded name hproper
  | concat a b iha ihb =>
    obtain ⟨us, hus⟩ := iha hproper.1 hpopulated.1
    obtain ⟨vs, hvs⟩ := ihb hproper.2 hpopulated.2
    exact ⟨us ++ vs, Language.append_mem_mul hus hvs⟩
  | alt a b iha _ =>
    obtain ⟨us, hus⟩ := iha hproper.1 hpopulated.1
    exact ⟨us, .inl hus⟩
  | star a => exact ⟨[], Language.nil_mem_kstar _⟩
  | plus a iha =>
    obtain ⟨us, hus⟩ := iha hproper hpopulated
    exact ⟨us ++ [], Language.append_mem_mul hus (Language.nil_mem_kstar _)⟩
  | optional a => exact ⟨[], .inl rfl⟩

end Regex

namespace Patterns

variable {ms : List (Definition × Language Char)} {name : String}

/-- Every definition matches some text. -/
theorem Meaning.exists_mem (h : Meaning ms) : ∀ m ∈ ms, ∃ cs, cs ∈ m.2 := by
  induction h with
  | nil => exact fun m hm => absurd hm List.not_mem_nil
  | @define ms d r _ hwritten ih =>
    have hembedded : ∀ name, (ms.any fun m => m.1.name = name) = true → ∃ cs, cs ∈ named ms name := by
      intro name hname
      obtain ⟨m, hm, hname⟩ := List.any_eq_true.1 hname
      obtain ⟨cs, hcs⟩ := ih m hm
      exact ⟨cs, m, hm, of_decide_eq_true hname, hcs⟩
    intro m hm
    rcases List.mem_append.1 hm with hm | hm
    · exact ih m hm
    · obtain rfl := List.mem_singleton.1 hm
      exact Regex.exists_mem_languageWith hembedded hwritten.proper hwritten.populated

/-! ## Marks -/

/-- The first definition of the name is not marked. -/
def Offers (ms : List (Definition × Language Char)) (name : String) : Prop :=
  (ms.find? fun m => m.1.name = name).map (·.1.internal) = some false

/-- The texts of the definitions of the name that are not marked. -/
def offered (ms : List (Definition × Language Char)) (name : String) : Language Char :=
  {cs | ∃ m ∈ ms, m.1.internal = false ∧ m.1.name = name ∧ cs ∈ m.2}

theorem mem_offered {cs : List Char} :
    cs ∈ offered ms name ↔ ∃ m ∈ ms, m.1.internal = false ∧ m.1.name = name ∧ cs ∈ m.2 :=
  Iff.rfl

theorem offered_le_named (ms : List (Definition × Language Char)) (name : String) :
    offered ms name ≤ named ms name :=
  fun _ ⟨m, hm, _, hname, hcs⟩ => ⟨m, hm, hname, hcs⟩

/-- A definition in keeping with the first one of its name: it is not marked if this one is not,
and only gives texts that are also given unmarked if this one is. -/
def InKeeping (ms : List (Definition × Language Char)) (m : Definition × Language Char) : Prop :=
  if m.1.internal then Offers ms m.1.name → m.2 ≤ offered ms m.1.name else Offers ms m.1.name

/-- The texts given are those of the unmarked definitions exactly if all definitions are in keeping with
the first ones of their names. -/
theorem Meaning.forall_offered_iff (h : Meaning ms) :
    (∀ cs name, Offers ms name ∧ cs ∈ named ms name ↔ cs ∈ offered ms name) ↔
      ∀ m ∈ ms, InKeeping ms m := by
  constructor
  · intro hoffered m hm
    rw [InKeeping]
    split
    · exact fun hoffers cs hcs => (hoffered cs m.1.name).1 ⟨hoffers, m, hm, rfl, hcs⟩
    · next hinternal =>
      obtain ⟨cs, hcs⟩ := h.exists_mem m hm
      exact ((hoffered cs m.1.name).2 ⟨m, hm, Bool.eq_false_iff.2 hinternal, rfl, hcs⟩).1
  · intro hkeeping cs name
    constructor
    · rintro ⟨hoffers, m, hm, rfl, hcs⟩
      have hm' := hkeeping m hm
      rw [InKeeping] at hm'
      split at hm'
      · exact hm' hoffers hcs
      · next hinternal => exact ⟨m, hm, Bool.eq_false_iff.2 hinternal, rfl, hcs⟩
    · rintro ⟨m, hm, hinternal, rfl, hcs⟩
      have hm' := hkeeping m hm
      rw [InKeeping, hinternal] at hm'
      exact ⟨hm', m, hm, rfl, hcs⟩

end Patterns

/-! ## Tokens -/

namespace PatternSet

open Patterns

variable {s : PatternSet} {text name : String}

/-- The master automaton accepts the text under the name. -/
def Names (s : PatternSet) (text name : String) : Prop :=
  ∃ id o, s.dfa.walk 0 text.toList = some id ∧ o ∈ s.dfa.ownersAt id ∧ o.name = name

theorem names_iff_any : s.Names text name ↔ ((s.dfa.walk 0 text.toList).any fun id =>
    (s.dfa.ownersAt id).toList.any fun o => o.name = name) = true := by
  simp only [Names, Option.any_eq_true, List.any_eq_true, decide_eq_true_eq]
  constructor
  · rintro ⟨id, o, hwalk, ho, hname⟩
    exact ⟨id, hwalk, o, ho, hname⟩
  · rintro ⟨id, hwalk, o, ho, hname⟩
    exact ⟨id, o, hwalk, ho, hname⟩

instance (s : PatternSet) (text name : String) : Decidable (s.Names text name) :=
  decidable_of_iff _ names_iff_any.symm

/-- What is decided of the patterns of a text that compiles, they have. -/
theorem exists_parse_and (P : PatternSet → Prop) [DecidablePred P]
    (h : (match parse text with
      | .ok s => decide (P s)
      | .error _ => false) = true) :
    ∃ s, parse text = .ok s ∧ P s := by
  split at h
  · next s hs => exact ⟨s, hs, of_decide_eq_true h⟩
  · cases h

/-- The names under which a text is accepted are those of the patterns that give tokens and match it. -/
theorem Compiled.names_iff (h : s.Compiled) :
    s.Names text name ↔ ∃ p ∈ s.patterns, p.definition.internal = false ∧
      p.accepts text = true ∧ p.definition.name = name := by
  constructor
  · rintro ⟨id, o, hwalk, ho, rfl⟩
    obtain ⟨p, hp, hinternal, haccepts, rfl⟩ := (h.mem_ownersAt_iff hwalk).1 ho
    exact ⟨p, hp, hinternal, haccepts, rfl⟩
  · rintro ⟨p, hp, hinternal, haccepts, rfl⟩
    have hbegins : s.Begins text.toList := ⟨p, hp, hinternal, text, List.prefix_refl _, haccepts⟩
    obtain ⟨id, hwalk⟩ := Option.isSome_iff_exists.1 (h.isSome_walk_iff.2 (.inr hbegins))
    exact ⟨id, _, hwalk, (h.mem_ownersAt_iff hwalk).2 ⟨p, hp, hinternal, haccepts, rfl⟩, rfl⟩

/-- A pattern gives tokens if the first definition of its name does. -/
theorem names_iff_of_tells {patterns : List Pattern} {ms : List (Definition × Language Char)}
    (hdefined : Defined patterns) (htells : Tells patterns ms)
    (hcompiled : (ofPatterns patterns).Compiled) :
    (ofPatterns patterns).Names text name ↔ Offers ms name ∧ text.toList ∈ named ms name := by
  have haccepts (p : Pattern) (hp : p ∈ patterns) :
      p.accepts text = true ↔ text.toList ∈ named ms p.definition.name := by
    rw [(hdefined.sound p hp).accepts_iff, htells.words p hp]
  have hoffers (p : Pattern) (hp : p ∈ patterns) :
      Offers ms p.definition.name ↔ p.definition.internal = false := by
    rw [Offers, htells.internal p hp, Option.some.injEq]
  rw [hcompiled.names_iff]
  constructor
  · rintro ⟨p, hp, hinternal, htext, rfl⟩
    exact ⟨(hoffers p hp).2 hinternal, (haccepts p hp).1 htext⟩
  · rintro ⟨hname, htext⟩
    cases hfind : find? patterns name with
    | some p =>
      obtain ⟨hp, rfl⟩ := mem_of_find? hfind
      exact ⟨p, hp, (hoffers p hp).1 hname, (haccepts p hp).2 htext, rfl⟩
    | none =>
      rw [htells.named_eq_zero hfind] at htext
      exact absurd htext (Language.notMem_zero _)

/-- In a definition text that compiles, the definitions have their languages, and the master automaton
accepts a text under a name exactly if the first definition of the name is not marked and some
definition of the name, marked or not, has the text. Every text is accepted under exactly the names of
its unmarked definitions if and only if the definitions are in keeping with the first ones of their
names. -/
theorem names_iff_offers (h : parse text = .ok s) :
    ∃ found ms, (Text.lines text.toList).mapM Definitions.parseLine = .ok found ∧
      (∀ ms', ms'.map Prod.fst = found.reduceOption ∧ Meaning ms' ↔ ms' = ms) ∧
      (∀ word name, s.Names word name ↔ Offers ms name ∧ word.toList ∈ named ms name) ∧
      ((∀ word name, s.Names word name ↔ word.toList ∈ offered ms name) ↔
        ∀ m ∈ ms, InKeeping ms m) := by
  have hcompiled : s.Compiled := .inl ⟨text, h⟩
  obtain ⟨patterns, hlines, rfl⟩ := map_eq_ok_iff.1 h
  obtain ⟨found, hfound, hfold⟩ := Definitions.exists_found_of_defineLines hlines
  have hdefined : Defined patterns := Defined.nil.of_foldlM hfold
  obtain ⟨ms, hds, hms, htells⟩ := Tells.foldlM .nil .nil .nil hfold
  rw [List.map_nil, List.nil_append] at hds
  have hnames (word name : String) : (ofPatterns patterns).Names word name ↔
      Offers ms name ∧ word.toList ∈ named ms name :=
    names_iff_of_tells hdefined htells hcompiled
  refine ⟨found, ms, hfound, fun ms' => ?_, hnames, ?_⟩
  · constructor
    · rintro ⟨hds', hms'⟩
      exact hms'.unique hms (hds'.trans hds.symm)
    · rintro rfl
      exact ⟨hds, hms⟩
  · rw [← hms.forall_offered_iff]
    simp only [hnames]
    exact ⟨fun hall cs name => by simpa using hall (String.ofList cs) name,
      fun hall word name => hall word.toList name⟩

/-- The marked definition of `op` gives tokens, as the first one is not marked, and the unmarked one of
`skip` does not, as the first one is. -/
theorem names_iff_offers_redefined :
    let ds : List Definition := [{ name := "op", regex := "a" },
      { name := "op", regex := "b", internal := true },
      { name := "skip", regex := "c", internal := true }, { name := "skip", regex := "d" }]
    ∃ s ms, parse "op: a\n:op: b\n:skip: c\nskip: d" = .ok s ∧ ms.map Prod.fst = ds ∧ Meaning ms ∧
      (s.Names "b" "op" ∧ Offers ms "op" ∧ ['b'] ∈ named ms "op") ∧
      ¬ s.Names "d" "skip" ∧ ¬ (Offers ms "skip" ∧ ['d'] ∈ named ms "skip") := by
  intro ds
  have hlines : (Text.lines "op: a\n:op: b\n:skip: c\nskip: d".toList).mapM
      Definitions.parseLine = .ok [some ds[0], some ds[1], some ds[2], some ds[3]] := by
    decide +kernel
  obtain ⟨s, hs, hb, hd⟩ : ∃ s, parse "op: a\n:op: b\n:skip: c\nskip: d" = .ok s ∧
      s.Names "b" "op" ∧ ¬ s.Names "d" "skip" := exists_parse_and _ (by decide +kernel)
  obtain ⟨found, ms, hfound, hms, hnames, -⟩ := names_iff_offers hs
  obtain rfl := Except.ok.inj (hlines.symm.trans hfound)
  obtain ⟨hds, hmeaning⟩ := (hms ms).2 rfl
  exact ⟨s, ms, hs, hds, hmeaning, ⟨hb, (hnames "b" "op").1 hb⟩, hd,
    fun h => hd ((hnames "d" "skip").2 h)⟩

/-- It is not so that only unmarked definitions give tokens: `b` is one after `op: a` and `:op: b`. -/
theorem not_forall_names_iff_offered :
    ¬ ∀ (text : String) (s : PatternSet) (found : List (Option Definition))
        (ms : List (Definition × Language Char)), parse text = .ok s →
      (Text.lines text.toList).mapM Definitions.parseLine = .ok found →
      ms.map Prod.fst = found.reduceOption → Meaning ms →
      ∀ word name, s.Names word name ↔
        ∃ m ∈ ms, m.1.internal = false ∧ m.1.name = name ∧ word.toList ∈ m.2 := by
  intro h
  let a : Definition := { name := "op", regex := "a" }
  let b : Definition := { name := "op", regex := "b", internal := true }
  have ha : Regex.read (fun name => ([] : List (Definition × Language Char)).any
      fun m => m.1.name = name) a.regex.toList = .ok (.oneOf [.char 'a']) := by
    decide +kernel
  have hb : Regex.read (fun name => [(a, Regex.languageWith (named []) (.oneOf [.char 'a']))].any
      fun m => m.1.name = name) b.regex.toList = .ok (.oneOf [.char 'b']) := by
    decide +kernel
  have hms := (Meaning.nil.define (Regex.read_eq_ok_iff.1 ha)).define (Regex.read_eq_ok_iff.1 hb)
  have hlines : (Text.lines "op: a\n:op: b".toList).mapM Definitions.parseLine =
      .ok [some a, some b] := by
    decide +kernel
  obtain ⟨s, hs, hnames⟩ : ∃ s, parse "op: a\n:op: b" = .ok s ∧ s.Names "b" "op" :=
    exists_parse_and _ (by decide +kernel)
  obtain ⟨m, hm, hinternal, -, hmem⟩ := (h _ s _ _ hs hlines rfl hms "b" "op").1 hnames
  -- the only unmarked definition matches `a` alone
  rcases List.mem_cons.1 hm with rfl | hm
  · cases (@Regex.mem_language_char (fun _ => none) 'a' ['b']).1 hmem
  · obtain rfl := List.mem_singleton.1 hm
    cases hinternal

end PatternSet

end Predictive
