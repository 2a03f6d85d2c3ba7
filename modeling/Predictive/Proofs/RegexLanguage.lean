import Predictive.Proofs.Determinization
import Predictive.Proofs.RegexGrammar
import Predictive.Proofs.Thompson

/-!
# The language of a regular expression

`Regex.language` gives each expression its language by the regular operations. The automaton of an
expression has exactly these words (`words_automaton`), and so does the pattern that is compiled from
it (`compile_denotes`).
-/

namespace Predictive

open Computability

namespace Regex

variable {lookup : String → Option Nfa}

/-- The texts that an expression stands for. -/
def language (lookup : String → Option Nfa) : Regex → Language Char
  | oneOf labels => {cs | ∃ c, ∃ l ∈ labels, cs = [c] ∧ l.Reads c}
  | embed name => ((lookup name).getD .empty).language
  | concat a b => a.language lookup * b.language lookup
  | alt a b => a.language lookup + b.language lookup
  | star a => (a.language lookup)∗
  | plus a => a.language lookup * (a.language lookup)∗
  | optional a => 1 + a.language lookup

/-- What is embedded is known, and every label reads a character. -/
def Proper (known : String → Bool) : Regex → Prop
  | oneOf labels => .epsilon ∉ labels
  | embed name => known name = true
  | concat a b | alt a b => a.Proper known ∧ b.Proper known
  | star a | plus a | optional a => a.Proper known

/-! ## Classes -/

theorem Members.epsilon_notMem {s : List Char} {ms : List Label} (h : Members s ms) :
    .epsilon ∉ ms := by
  induction h with
  | nil => exact List.not_mem_nil
  | any _ ih | escape _ _ ih | char _ _ ih => simpa using ih

theorem mem_others_iff {ms : List Label} {l : Label} :
    l ∈ others ms ↔ ∃ c : Char, l = .char c ∧ 9 ≤ c.toNat ∧ c.toNat ≤ 126 ∧ .char c ∉ ms := by
  simp only [others, List.mem_filter, List.mem_map, List.mem_range'_1, decide_eq_true_eq]
  constructor
  · rintro ⟨⟨code, ⟨hle, hlt⟩, rfl⟩, hl⟩
    have hcode : (Char.ofNat code).toNat = code := by
      rw [Char.ofNat, dif_pos (.inl (by omega))]
      rfl
    exact ⟨_, rfl, by omega, by omega, hl⟩
  · rintro ⟨c, rfl, hle, hlt, hl⟩
    exact ⟨⟨c.toNat, ⟨hle, by omega⟩, by rw [Char.ofNat_toNat]⟩, hl⟩

theorem mem_language_char {c : Char} {cs : List Char} :
    cs ∈ (oneOf [.char c]).language lookup ↔ cs = [c] := by
  constructor
  · rintro ⟨c', l, hl, rfl, hreads⟩
    obtain rfl := List.mem_singleton.1 hl
    rcases hreads with h | h
    · cases h
    · rw [Label.char.inj h]
  · rintro rfl
    exact ⟨c, _, List.mem_singleton_self _, rfl, .inr rfl⟩

/-- A class matches its members, and any character if `.` is among them. -/
theorem mem_language_listed {ms : List Label} {cs : List Char} :
    cs ∈ (oneOf (SortedSet.ofList ms).toList).language lookup ↔
      ∃ c, cs = [c] ∧ (.any ∈ ms ∨ .char c ∈ ms) := by
  refine exists_congr fun c => ?_
  simp only [SortedSet.mem_ofList, ← SortedSet.mem_def, Label.Reads]
  constructor
  · rintro ⟨l, hl, rfl, rfl | rfl⟩
    · exact ⟨rfl, .inl hl⟩
    · exact ⟨rfl, .inr hl⟩
  · rintro ⟨rfl, hl | hl⟩
    · exact ⟨_, hl, rfl, .inl rfl⟩
    · exact ⟨_, hl, rfl, .inr rfl⟩

/-- A negated class matches the characters with codes from 9 to 126 that are not its members. -/
theorem mem_language_others {ms : List Label} {cs : List Char} :
    cs ∈ (oneOf (others ms)).language lookup ↔
      ∃ c : Char, cs = [c] ∧ 9 ≤ c.toNat ∧ c.toNat ≤ 126 ∧ .char c ∉ ms := by
  refine exists_congr fun c => ?_
  simp only [mem_others_iff]
  constructor
  · rintro ⟨l, ⟨c', rfl, hc'⟩, rfl, h | h⟩
    · cases h
    · cases h
      exact ⟨rfl, hc'⟩
  · rintro ⟨rfl, hc⟩
    exact ⟨_, ⟨c, rfl, hc⟩, rfl, .inr rfl⟩

theorem Written.proper {known : String → Bool} {l : Level} {s : List Char} {a : Regex}
    (h : Written known l s a) : a.Proper known := by
  induction h with
  | alt _ _ iha ihb | concat _ _ iha ihb => exact ⟨iha, ihb⟩
  | sequence _ ih | repetition _ ih | star _ ih | plus _ ih | optional _ ih | operand _ ih
  | group _ ih => exact ih
  | atom h =>
    cases h with
    | char | any | escape => simp [Proper]
    | embed _ hknown => exact hknown
    | members hs =>
      exact fun h => hs.epsilon_notMem (SortedSet.mem_ofList.1 (SortedSet.mem_def.2 h))
    | others =>
      intro h
      obtain ⟨c, hc, -⟩ := mem_others_iff.1 h
      cases hc

/-! ## The automaton of an expression -/

theorem graph_automaton_ne_nil (hlookup : ∀ name m, lookup name = some m → m.graph ≠ [])
    {r : Regex} (h : r.Proper fun name => (lookup name).isSome) :
    (r.automaton lookup).graph ≠ [] := by
  induction r with
  | oneOf labels => exact List.cons_ne_nil _ _
  | embed name =>
    obtain ⟨m, hm⟩ := Option.isSome_iff_exists.1 h
    obtain ⟨first, last, hends⟩ := Nfa.exists_ends (hlookup name m hm)
    rw [automaton, hm]
    exact (Nfa.ends_bare hends).ne_nil
  | concat a b iha ihb =>
    rw [automaton, Nfa.graph_concat]
    exact List.append_ne_nil_of_left_ne_nil (iha h.1) _
  | alt a b =>
    rw [automaton, Nfa.graph_union]
    exact List.cons_ne_nil _ _
  | star a | plus a | optional a =>
    rw [automaton, Nfa.graph_iterate]
    exact List.cons_ne_nil _ _

/-- It is enough that the automata that are embedded are well formed. -/
theorem words_automaton_of_wellFormed
    (hlookup : ∀ name m, lookup name = some m → m.WellFormed ∧ m.graph ≠ [])
    {r : Regex} (h : r.Proper fun name => (lookup name).isSome) :
    (r.automaton lookup).words = r.language lookup := by
  have hwf (r : Regex) := Nfa.WellFormed.automaton lookup r
  have hne {r : Regex} := graph_automaton_ne_nil (r := r) fun name m hm => (hlookup name m hm).2
  induction r with
  | oneOf labels => exact Nfa.words_oneOf h
  | embed name =>
    obtain ⟨m, hm⟩ := Option.isSome_iff_exists.1 h
    rw [automaton, language, hm]
    exact Nfa.words_bare (hlookup name m hm).1
  | concat a b iha ihb =>
    rw [automaton, language, Nfa.words_concat (hwf a) (hne h.1) (hne h.2), iha h.1, ihb h.2]
  | alt a b iha ihb =>
    rw [automaton, language, Nfa.words_union (hwf a) (hwf b) (hne h.1) (hne h.2), iha h.1, ihb h.2]
  | star a iha => rw [automaton, language, Nfa.words_star (hwf a) (hne h), iha h]
  | plus a iha => rw [automaton, language, Nfa.words_plus (hwf a) (hne h), iha h]
  | optional a iha => rw [automaton, language, Nfa.words_optional (hwf a) (hne h), iha h]

theorem words_automaton (hlookup : ∀ name m, lookup name = some m → m.Built ∧ m.graph ≠ [])
    {r : Regex} (h : r.Proper fun name => (lookup name).isSome) :
    (r.automaton lookup).words = r.language lookup :=
  words_automaton_of_wellFormed (fun name m hm => (hlookup name m hm).imp_left Nfa.Built.wellFormed) h

/-- Every state of the automaton of an expression is in its run. -/
theorem full_automaton (lookup : String → Option Nfa) (r : Regex) : (r.automaton lookup).Full := by
  induction r with
  | oneOf labels => exact .oneOf labels
  | embed name => exact .bare _
  | concat a b iha ihb => exact iha.concat ihb
  | alt a b iha ihb => exact iha.union ihb
  | star a iha | plus a iha | optional a iha => exact iha.iterate _ _

/-- The automaton of an expression accepts for no one. -/
theorem owners_automaton (lookup : String → Option Nfa) (r : Regex) (q : Nat) :
    ((r.automaton lookup).state q).owners = ∅ := by
  induction r generalizing q with
  | oneOf labels => exact Nfa.owners_oneOf labels q
  | embed name => exact Nfa.owners_bare _ q
  | concat a b iha ihb => exact Nfa.owners_concat iha ihb q
  | alt a b iha ihb => exact Nfa.owners_union iha ihb q
  | star a iha | plus a iha | optional a iha =>
    rw [automaton, Nfa.owners_iterate]
    exact iha q

/-! ## Compiled expressions -/

theorem mem_words_iff_exists_path {n : Nfa} {cs : List Char} :
    cs ∈ n.words ↔
      ∃ first last, n.entry? = some first ∧ n.exit? = some last ∧ n.Path first cs last := by
  constructor
  · rintro ⟨first, last, hends, hpath⟩
    exact ⟨first, last, hends.entry, hends.exit, hpath⟩
  · rintro ⟨first, last, hentry, hexit, hpath⟩
    exact ⟨first, last, ⟨hentry, hexit⟩, hpath⟩

end Regex

/-- Where only the exit accepts, what is accepted are the words. -/
theorem Dfa.accepts_ofNfa_acceptExit {n : Nfa} (hn : n.WellFormed)
    (howners : ∀ q, (n.state q).owners = ∅) (hgraph : n.graph ≠ []) (o : Owner) (cs : List Char) :
    (Dfa.ofNfa (n.acceptExit o)).accepts cs = true ↔ cs ∈ n.words := by
  obtain ⟨first, last, hends⟩ := Nfa.exists_ends hgraph
  have hlast : last < n.size := hn.graph_lt hends.last_mem
  have haccepting (q : Nat) : ((n.acceptExit o).state q).accepting = true ↔ q = last := by
    rw [Dfa.accepting_iff, Nfa.acceptExit, hends.exit]
    simp only [Nfa.state_accept, hlast, and_true]
    split
    · next h =>
      subst h
      exact ⟨fun _ => rfl, fun _ => ⟨o, SortedSet.mem_insert.2 (.inl rfl)⟩⟩
    · next h => simp [howners, h]
  have hreaches (q : Nat) : (n.acceptExit o).Reaches cs q ↔ n.Path first cs q := by
    rw [Nfa.Reaches, Nfa.entry_eq_head?, Nfa.graph_acceptExit, ← Nfa.entry_eq_head?, hends.entry]
    simp only [Option.some.injEq, exists_eq_left']
    exact ⟨fun h => h.mono fun _ _ _ => Nfa.edge_acceptExit.1,
      fun h => h.mono fun _ _ _ => Nfa.edge_acceptExit.2⟩
  rw [Dfa.accepts_ofNfa_iff (hn.acceptExit o), hends.mem_words]
  simp only [haccepting, hreaches, exists_eq_right]

theorem Pattern.compile_of_regex {lookup : String → Option Nfa} {d : Definition} {n : Nfa}
    (h : Regex.compile lookup d.regex = .ok n) (hn : n.graph ≠ []) :
    Pattern.compile lookup d = .ok
      { definition := d, nfa := n.acceptExit d.owner, dfa := .ofNfa (n.acceptExit d.owner) } := by
  rw [Pattern.compile, h]
  show (if n.graph.isEmpty then _ else _) = _
  rw [if_neg (List.isEmpty_iff.not.2 hn)]
  rfl

namespace Regex

variable {lookup : String → Option Nfa}

/-- A text that compiles writes exactly one expression. Paths from the entry to the exit of its
automaton read exactly the texts that the expression stands for, which are also those that it matches
where it is embedded; and the pattern with this expression is compiled and accepts exactly these. -/
theorem compile_denotes (hlookup : ∀ name m, lookup name = some m → m.Built ∧ m.graph ≠ [])
    {text : String} {n : Nfa} (h : compile lookup text = .ok n) :
    ∃ r, (∀ r', Written (fun name => (lookup name).isSome) .alternation
        (text.toList.filter fun c => c ≠ ' ' ∧ c ≠ '\t') r' ↔ r' = r) ∧
      (∀ cs, cs ∈ r.language lookup ↔
        ∃ first last, n.entry? = some first ∧ n.exit? = some last ∧ n.Path first cs last) ∧
      n.language = r.language lookup ∧
      ∀ d : Definition, d.regex = text → ∃ p, Pattern.compile lookup d = .ok p ∧
        ∀ s : String, p.accepts s = true ↔ s.toList ∈ r.language lookup := by
  obtain ⟨r, hread, rfl⟩ := map_eq_ok_iff.1 h
  have hproper := (read_eq_ok_iff.1 hread).proper
  have hwf := Nfa.WellFormed.automaton lookup r
  have hgraph := graph_automaton_ne_nil (fun name m hm => (hlookup name m hm).2) hproper
  have hwords := words_automaton hlookup hproper
  refine ⟨r, fun r' => ?_, fun cs => ?_, ?_, fun d hd => ?_⟩
  · rw [← read_eq_ok_iff, hread]
    exact ⟨fun h => (Except.ok.inj h).symm, fun h => congrArg _ h.symm⟩
  · rw [← hwords, mem_words_iff_exists_path]
  · rw [Nfa.language_eq_words hwf (full_automaton lookup r), hwords]
  · subst hd
    refine ⟨_, Pattern.compile_of_regex h hgraph, fun s => ?_⟩
    rw [← hwords]
    exact Dfa.accepts_ofNfa_acceptExit hwf (owners_automaton lookup r) hgraph d.owner s.toList

/-- An embedded automaton is repeated: the pattern accepts what it reads once or more in a row. -/
theorem compile_denotes_repeated_embed :
    let digit := (oneOf [.char '0', .char '1']).automaton fun _ => none
    let lookup := fun name => if name = "d" then some digit else none
    (∀ name m, lookup name = some m → m.Built ∧ m.graph ≠ []) ∧
      ∃ p, Pattern.compile lookup { name := "number", regex := ":d: +" } = .ok p ∧
        ∀ s : String, p.accepts s = true ↔ s.toList ∈ digit.language * digit.language∗ := by
  intro digit lookup
  have hdigit : compile (fun _ => none) "[01]" = .ok digit := by decide +kernel
  have hlookup : ∀ name m, lookup name = some m → m.Built ∧ m.graph ≠ [] := by
    intro name m hm
    cases (Option.ite_none_right_eq_some.1 hm).2
    exact ⟨.compile (fun _ _ h => absurd h (by simp)) hdigit, List.cons_ne_nil _ _⟩
  have h : compile lookup ":d: +" = .ok ((plus (.embed "d")).automaton lookup) := by
    decide +kernel
  obtain ⟨r, hr, -, -, hpattern⟩ := compile_denotes hlookup h
  have hname : Atom (fun name => (lookup name).isSome) [':', 'd', ':'] (.embed "d") :=
    @Atom.embed _ ['d'] (by decide) rfl
  have hwritten := (hr (plus (.embed "d"))).1 (.sequence (.repetition (.plus (.operand (.atom hname)))))
  subst hwritten
  exact ⟨hlookup, hpattern { name := "number", regex := ":d: +" } rfl⟩

end Regex

end Predictive
