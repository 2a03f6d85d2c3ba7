import Predictive.Proofs.PatternLanguages

/-!
# Merging patterns

A pattern stands for a language in two ways: by its automaton, and by the text of its regular
expression (`Pattern.StandsFor`). A merged pattern stands for the union in both ways
(`Pattern.StandsFor.merge`), since `|` binds loosest: a text of alternatives after a bar adds its
alternatives to those before it (`Regex.Written.exists_union`). So patterns merged one after the other
match what one of them does, and their joined text compiles to a pattern that matches the same
(`Pattern.foldl_merge_agrees`).
-/

namespace Predictive

open Computability

/-! ## Texts with a bar between them -/

namespace Regex

/-- The characters of an expression that count: spaces and tabs do not. -/
def spelling (text : String) : List Char := text.toList.filter fun c => c ≠ ' ' ∧ c ≠ '\t'

theorem spelling_bar (left right : String) :
    spelling s!"{left} | {right}" = spelling left ++ '|' :: spelling right := by
  have htext : s!"{left} | {right}".toList = left.toList ++ " | ".toList ++ right.toList := by
    simp [toString]
  rw [spelling, htext, List.filter_append, List.filter_append, List.append_assoc]
  rfl

/-- Alternatives that follow others after a bar are written in one row with them. The expression is
grouped from the left and not at the bar, but stands for the same. -/
theorem Written.exists_union {known : String → Bool} {s t : List Char} {a b : Regex}
    (hs : Written known .alternation s a) (ht : Written known .alternation t b)
    (lookup : String → Option Nfa) : ∃ c, Written known .alternation (s ++ '|' :: t) c ∧
      c.language lookup = a.language lookup + b.language lookup := by
  generalize hlevel : Level.alternation = level at ht
  induction ht with
  | @alt t₁ t₂ b₁ b₂ _ hlast ih _ =>
    obtain ⟨c, hc, hlanguage⟩ := ih hlevel
    refine ⟨.alt c b₂, ?_, ?_⟩
    · simpa using hc.alt hlast
    · rw [language, language, hlanguage, add_assoc]
  | sequence hb => exact ⟨_, hs.alt hb, rfl⟩
  | _ => cases hlevel

end Regex

/-! ## Automata of patterns -/

theorem Nfa.Full.of_graph_eq {a n : Nfa} (h : n.Full) (hsize : a.size = n.size)
    (hgraph : a.graph = n.graph) : a.Full :=
  fun id hid => hgraph ▸ h id (hsize ▸ hid)

namespace Pattern

variable {lookup : String → Option Nfa} {p q : Pattern} {d : Definition} {L M : Language Char}

/-- The automaton of the pattern accepts at its exit only, on behalf of the pattern. Other than in a
sound pattern, some of its states may lead nowhere, since what is embedded may have such states. -/
structure Formed (p : Pattern) : Prop where
  wellFormed : p.nfa.WellFormed
  full : p.nfa.Full
  graph_ne_nil : p.nfa.graph ≠ []
  dfa_eq : p.dfa = .ofNfa p.nfa
  mem_owners : ∀ {id o}, o ∈ (p.nfa.state id).owners ↔ p.nfa.exit? = some id ∧ o = p.definition.owner

theorem formed_of_acceptExit {n : Nfa} (hn : n.WellFormed) (hfull : n.Full) (hgraph : n.graph ≠ [])
    (howners : ∀ id, (n.state id).owners = ∅) (hnfa : p.nfa = n.acceptExit p.definition.owner)
    (hdfa : p.dfa = .ofNfa p.nfa) : p.Formed where
  wellFormed := hnfa ▸ hn.acceptExit _
  full := hnfa ▸ hfull.of_graph_eq (Nfa.size_acceptExit ..) (Nfa.graph_acceptExit ..)
  graph_ne_nil := by
    rw [hnfa, Nfa.graph_acceptExit]
    exact hgraph
  dfa_eq := hdfa
  mem_owners := by
    rw [hnfa, Nfa.exit_eq_getLast?, Nfa.graph_acceptExit, ← Nfa.exit_eq_getLast?]
    exact Nfa.mem_owners_acceptExit hn howners

namespace Formed

theorem accepts_iff (h : p.Formed) (text : String) :
    p.accepts text = true ↔ text.toList ∈ p.nfa.words := by
  rw [accepts, h.dfa_eq, Dfa.accepts_ofNfa_iff h.wellFormed, Nfa.mem_words_iff_reaches]
  simp only [Dfa.accepting_iff, h.mem_owners, exists_and_left, exists_eq, and_true]
  exact exists_congr fun q => and_comm

theorem owners_releaseExit (h : p.Formed) (id : Nat) : (p.nfa.releaseExit.state id).owners = ∅ := by
  obtain ⟨first, last, hends⟩ := Nfa.exists_ends h.graph_ne_nil
  refine Nfa.owners_releaseExit hends.exit (fun id o ho => ?_) id
  exact Option.some.inj ((h.mem_owners.1 ho).1.symm.trans hends.exit)

theorem merge (hp : p.Formed) (hq : q.Formed) : (p.merge q).Formed := by
  have hfull := hp.full.of_graph_eq (Nfa.size_releaseExit p.nfa) (Nfa.graph_releaseExit p.nfa)
  rw [merge_eq hp.graph_ne_nil hq.graph_ne_nil]
  exact formed_of_acceptExit (hp.wellFormed.releaseExit.union (.bare q.nfa)) (hfull.union (.bare q.nfa))
    Nfa.ends_union.ne_nil (Nfa.owners_union hp.owners_releaseExit (Nfa.owners_bare q.nfa)) rfl rfl

theorem words_merge (hp : p.Formed) (hq : q.Formed) :
    (p.merge q).nfa.words = p.nfa.words + q.nfa.words := by
  have hreleased : p.nfa.releaseExit.graph ≠ [] := by
    rw [Nfa.graph_releaseExit]
    exact hp.graph_ne_nil
  have hbare : q.nfa.bare.graph ≠ [] := by
    obtain ⟨first, last, hends⟩ := Nfa.exists_ends hq.graph_ne_nil
    exact (Nfa.ends_bare hends).ne_nil
  rw [merge_eq hp.graph_ne_nil hq.graph_ne_nil, Nfa.words_acceptExit,
    Nfa.words_union hp.wellFormed.releaseExit (.bare q.nfa) hreleased hbare, Nfa.words_releaseExit,
    Nfa.words_bare hq.wellFormed, Nfa.language_eq_words hq.wellFormed hq.full]

end Formed

theorem regex_merge (hp : p.Formed) (hq : q.Formed) : (p.merge q).definition =
    { p.definition with regex := s!"{p.definition.regex} | {q.definition.regex}" } := by
  rw [merge_eq hp.graph_ne_nil hq.graph_ne_nil]

/-! ## Patterns that stand for a language -/

/-- The pattern stands for the language, with its automaton and with its text. -/
structure StandsFor (lookup : String → Option Nfa) (p : Pattern) (L : Language Char) : Prop where
  formed : p.Formed
  words : p.nfa.words = L
  expression : ∃ r, Regex.Written (fun name => (lookup name).isSome) .alternation
    (Regex.spelling p.definition.regex) r ∧ r.language lookup = L

theorem StandsFor.accepts_iff (h : p.StandsFor lookup L) (text : String) :
    p.accepts text = true ↔ text.toList ∈ L := by
  rw [h.formed.accepts_iff, h.words]

/-- A merged pattern stands for what either of the two stands for. -/
theorem StandsFor.merge (hp : p.StandsFor lookup L) (hq : q.StandsFor lookup M) :
    (p.merge q).StandsFor lookup (L + M) where
  formed := hp.formed.merge hq.formed
  words := by rw [hp.formed.words_merge hq.formed, hp.words, hq.words]
  expression := by
    obtain ⟨r, hr, rfl⟩ := hp.expression
    obtain ⟨r', hr', rfl⟩ := hq.expression
    rw [regex_merge hp.formed hq.formed]
    show ∃ c, Regex.Written _ _ (Regex.spelling s!"{_} | {_}") c ∧ _
    rw [Regex.spelling_bar]
    exact hr.exists_union hr' lookup

/-- A text that writes an expression compiles to a pattern that stands for its language. -/
theorem exists_compile_standsFor
    (hlookup : ∀ name m, lookup name = some m → m.WellFormed ∧ m.graph ≠ []) {r : Regex}
    (hr : Regex.Written (fun name => (lookup name).isSome) .alternation (Regex.spelling d.regex) r) :
    ∃ p, compile lookup d = .ok p ∧ p.definition = d ∧ p.StandsFor lookup (r.language lookup) := by
  have hgraph := Regex.graph_automaton_ne_nil (fun name m hm => (hlookup name m hm).2) hr.proper
  have hcompile : Regex.compile lookup d.regex = .ok (r.automaton lookup) :=
    map_eq_ok_iff.2 ⟨r, Regex.read_eq_ok_iff.2 hr, rfl⟩
  refine ⟨_, compile_of_regex hcompile hgraph, rfl, ?_, ?_, r, hr, rfl⟩
  · exact formed_of_acceptExit (.automaton lookup r) (Regex.full_automaton lookup r) hgraph
      (Regex.owners_automaton lookup r) rfl rfl
  · exact (Nfa.words_acceptExit _ _).trans (Regex.words_automaton_of_wellFormed hlookup hr.proper)

theorem standsFor_of_compile
    (hlookup : ∀ name m, lookup name = some m → m.WellFormed ∧ m.graph ≠ [])
    (h : compile lookup d = .ok p) : p.definition = d ∧ ∃ L, p.StandsFor lookup L := by
  obtain ⟨r, hr, -⟩ := exists_regex_of_compile h
  obtain ⟨p', hp', hdefinition, hstands⟩ := exists_compile_standsFor hlookup hr
  obtain rfl := Except.ok.inj (h.symm.trans hp')
  exact ⟨hdefinition, _, hstands⟩

/-- Merging one pattern after the other joins their texts with bars, and adds what they match. -/
theorem StandsFor.foldl_merge (hp : p.StandsFor lookup L) {others : List Pattern}
    (hothers : ∀ q ∈ others, ∃ M, q.StandsFor lookup M) :
    ∃ N, (others.foldl Pattern.merge p).StandsFor lookup N ∧
      (∀ text : String, text.toList ∈ N ↔ text.toList ∈ L ∨ ∃ q ∈ others, q.accepts text = true) ∧
      (others.foldl Pattern.merge p).definition = { p.definition with
        regex := others.foldl (fun text q => s!"{text} | {q.definition.regex}") p.definition.regex } := by
  induction others generalizing p L with
  | nil => exact ⟨L, hp, by simp, rfl⟩
  | cons q others ih =>
    obtain ⟨⟨M, hq⟩, hothers⟩ := List.forall_mem_cons.1 hothers
    obtain ⟨N, hstands, hN, hdefinition⟩ := ih (hp.merge hq) hothers
    refine ⟨N, hstands, fun text => ?_, ?_⟩
    · rw [hN, Language.mem_add, or_assoc, ← hq.accepts_iff, List.exists_mem_cons_iff]
    · rw [List.foldl_cons, hdefinition, regex_merge hp.formed hq.formed, List.foldl_cons]

/-- For every lookup of well-formed automata, and patterns compiled with it: the patterns merged into the
first, one after the other, match what one of them matched, under the name, at the place and with the
flag of the first. The text of the result, which joins their texts with bars, compiles to a pattern that
matches the same. -/
theorem foldl_merge_agrees
    (hlookup : ∀ name m, lookup name = some m → m.WellFormed ∧ m.graph ≠ [])
    (hp : compile lookup d = .ok p) {others : List Pattern}
    (hothers : ∀ q ∈ others, ∃ e, compile lookup e = .ok q) :
    let merged := others.foldl merge p
    (∀ text, merged.accepts text = true ↔
      p.accepts text = true ∨ ∃ q ∈ others, q.accepts text = true) ∧
    merged.definition = { d with
      regex := others.foldl (fun text q => s!"{text} | {q.definition.regex}") d.regex } ∧
    ∀ e : Definition, e.regex = merged.definition.regex →
      ∃ again, compile lookup e = .ok again ∧ ∀ text, again.accepts text = merged.accepts text := by
  intro merged
  obtain ⟨rfl, L, hstands⟩ := standsFor_of_compile hlookup hp
  obtain ⟨N, hmerged, hN, hdefinition⟩ := hstands.foldl_merge fun q hq =>
    let ⟨_, he⟩ := hothers q hq
    (standsFor_of_compile hlookup he).2
  refine ⟨fun text => ?_, hdefinition, fun e he => ?_⟩
  · rw [hmerged.accepts_iff, hN, hstands.accepts_iff]
  · obtain ⟨r, hr, hlanguage⟩ := hmerged.expression
    rw [← he] at hr
    obtain ⟨again, hagain, -, hstandsAgain⟩ := exists_compile_standsFor hlookup hr
    refine ⟨again, hagain, fun text => ?_⟩
    rw [Bool.eq_iff_iff, hstandsAgain.accepts_iff, hmerged.accepts_iff, hlanguage]

/-- A text of alternatives and one that begins with an embedded pattern are merged into a repetition: the
joined text is read as one row of four alternatives. -/
theorem foldl_merge_agrees_rows :
    let digit := (Regex.oneOf [.char '0', .char '1']).automaton fun _ => none
    let lookup := fun name => if name = "d" then some digit else none
    (∀ name m, lookup name = some m → m.WellFormed ∧ m.graph ≠ []) ∧
    ∃ p q r, compile lookup { name := "n", regex := ":d:+", position := 3 } = .ok p ∧
      compile lookup { name := "x", regex := "a | b?", internal := true } = .ok q ∧
      compile lookup { name := "n", regex := ":d:(c\\|)*" } = .ok r ∧
      let merged := [q, r].foldl merge p
      (∀ text, merged.accepts text = true ↔
        p.accepts text = true ∨ ∃ o ∈ [q, r], o.accepts text = true) ∧
      merged.definition =
        { name := "n", regex := ":d:+ | a | b? | :d:(c\\|)*", position := 3 } ∧
      ∃ again, compile lookup merged.definition = .ok again ∧
        ∀ text, again.accepts text = merged.accepts text := by
  intro digit lookup
  have hlookup : ∀ name m, lookup name = some m → m.WellFormed ∧ m.graph ≠ [] := by
    intro name m hm
    cases (Option.ite_none_right_eq_some.1 hm).2
    exact ⟨.automaton _ _, List.cons_ne_nil _ _⟩
  obtain ⟨p, hp⟩ := exists_eq_ok_of_isOk (x := compile lookup
    { name := "n", regex := ":d:+", position := 3 }) (by decide +kernel)
  obtain ⟨q, hq⟩ := exists_eq_ok_of_isOk (x := compile lookup
    { name := "x", regex := "a | b?", internal := true }) (by decide +kernel)
  obtain ⟨r, hr⟩ := exists_eq_ok_of_isOk (x := compile lookup
    { name := "n", regex := ":d:(c\\|)*" }) (by decide +kernel)
  have hothers : ∀ o ∈ [q, r], ∃ e, compile lookup e = .ok o := by
    simpa using ⟨⟨_, hq⟩, ⟨_, hr⟩⟩
  obtain ⟨haccepts, hdefinition, hagain⟩ := foldl_merge_agrees hlookup hp hothers
  refine ⟨hlookup, p, q, r, hp, hq, hr, haccepts, ?_, hagain _ rfl⟩
  rw [hdefinition, List.foldl_cons, List.foldl_cons, List.foldl_nil,
    (standsFor_of_compile hlookup hq).1, (standsFor_of_compile hlookup hr).1]
  decide

end Pattern

end Predictive
