import Predictive.Grammar.Vocabulary
import Predictive.Proofs.Except
import Predictive.Proofs.MasterAutomaton
import Predictive.Proofs.Pieces

/-!
# What tokens are made of

A token other than the one at the end of the input is read along a path of the automaton to a state
that its pattern owns (`exists_reaches_of_mem_collect`). So a character that no edge reads in the
region before these states does not occur in such tokens (`Nfa.Confines.not_mem`). In a grammar
text, the names of rules and terminals are free of braces (`brace_not_mem_lexeme`), and operators are
`*`, `?` and `|` (`lexeme_of_op`).
-/

namespace Predictive

/-! ## Tokens are read by the automaton -/

/-- A piece is read along a path to a state that a pattern of its name owns. -/
theorem Scanner.exists_reaches_of_pieceBy {n : Nfa} (hn : n.WellFormed) {s next : Scanner}
    {t : Token} (h : s.pieceBy n = (.ok t, next)) : ∃ cs q o, t.lexeme = String.ofList cs ∧
      n.Reaches cs q ∧ o ∈ (n.state q).owners ∧ o.name = t.name := by
  unfold pieceBy at h
  dsimp only at h
  split at h
  · next owner _ hfirst =>
    cases h
    obtain ⟨q, hq, -, ho⟩ := Dfa.mem_ownersOf.1 (SortedSet.first?_eq_some_iff.1 hfirst).1
    rw [Nfa.set_munch, Nfa.mem_after_iff hn.bounded] at hq
    exact ⟨_, q, owner, rfl, hq, ho, rfl⟩
  · cases h

/-- A piece has a character. -/
theorem Scanner.lexeme_ne_empty_of_pieceBy {n : Nfa} {s next : Scanner} {t : Token}
    (h : s.pieceBy n = (.ok t, next)) : t.lexeme ≠ "" := by
  unfold pieceBy at h
  dsimp only at h
  split at h
  · next hlexeme _ =>
    cases h
    rw [hlexeme]
    exact fun hempty => by simpa using congrArg String.toList hempty
  · cases h

/-- A token of an input is a piece. -/
theorem exists_pieceBy_of_mem_collect {patterns : List Pattern} {input : String} {t : Token}
    (h : t ∈ (Tokenizer.ofText (.ofPatterns patterns) input).collect.tokens) :
    ∃ s next, Scanner.pieceBy (Patterns.joined patterns) s = (.ok t, next) := by
  change t ∈ (Tokenizer.ofText (.ofPatterns patterns) input).cut.1 at h
  rw [Tokenizer.cut_ofText patterns input le_rfl] at h
  exact Scanner.exists_piece_of_mem_cut h

/-- A token of an input is read along a path to a state that a pattern of its name owns. -/
theorem exists_reaches_of_mem_collect {patterns : List Pattern} {input : String} {t : Token}
    (h : t ∈ (Tokenizer.ofText (.ofPatterns patterns) input).collect.tokens) :
    ∃ cs q o, t.lexeme = String.ofList cs ∧ (Patterns.joined patterns).Reaches cs q ∧
      o ∈ ((Patterns.joined patterns).state q).owners ∧ o.name = t.name := by
  obtain ⟨s, next, hpiece⟩ := exists_pieceBy_of_mem_collect h
  exact Scanner.exists_reaches_of_pieceBy (Nfa.WellFormed.joined patterns) hpiece

/-! ## Characters that a pattern does not read -/

namespace Nfa

/-- The states that patterns called `name` own lie in a region which is entered from state 0 or from
within the region only, and never by reading `c`. -/
structure Confines (n : Nfa) (name : String) (c : Char) (region : Nat → Prop) : Prop where
  owned : ∀ q o, o ∈ (n.state q).owners → o.name = name → region q
  start : ∀ p l, ¬ n.Edge p l 0
  entered : ∀ p l q, n.Edge p l q → region q → (p = 0 ∨ region p) ∧ ¬ l.Reads c

theorem Confines.not_mem {n : Nfa} {name : String} {c : Char} {region : Nat → Prop}
    (h : n.Confines name c region) {cs : List Char} {q : Nat} {o : Owner} (hq : n.Reaches cs q)
    (ho : o ∈ (n.state q).owners) (hname : o.name = name) : c ∉ cs := by
  obtain ⟨e, -, hpath⟩ := hq
  -- Back along the path, one stays in the region, or is at the start, where no edge leads.
  have hback : (e = 0 ∨ region e) ∧ c ∉ cs := by
    refine hpath.induction_to (motive := fun p cs => (p = 0 ∨ region p) ∧ c ∉ cs)
      ⟨.inr (h.owned q o ho hname), List.not_mem_nil⟩ fun p l r ds cs hedge hspells hr => ?_
    have hregion : region r := hr.1.resolve_left fun h0 => h.start p l (h0 ▸ hedge)
    obtain ⟨hp, hreads⟩ := h.entered p l r hedge hregion
    refine ⟨hp, fun hmem => ?_⟩
    rcases List.mem_append.1 hmem with hmem | hmem
    · rcases hspells with ⟨-, rfl⟩ | ⟨d, hd, rfl⟩
      · cases hmem
      · rw [List.mem_singleton.1 hmem] at hreads
        exact hreads hd
    · exact hr.2 hmem
  exact hback.2

/-- Whether an automaton confines a pattern to the states from 1 to `last`. -/
def confines (n : Nfa) (name : String) (c : Char) (last : Nat) : Bool :=
  n.states.toList.zipIdx.all fun (s, p) =>
    (s.owners.toList.all fun o => o.name ≠ name || (1 ≤ p && p ≤ last)) &&
      s.edges.all fun (l, q) => q ≠ 0 && (last < q || (p ≤ last && l ≠ .any && l ≠ .char c))

theorem confines_of_confines {n : Nfa} {name : String} {c : Char} {last : Nat}
    (h : n.confines name c last = true) : n.Confines name c fun q => 1 ≤ q ∧ q ≤ last := by
  have hstate : ∀ p, p < n.size →
      (∀ o ∈ (n.state p).owners, o.name = name → 1 ≤ p ∧ p ≤ last) ∧
        ∀ l q, n.Edge p l q →
          q ≠ 0 ∧ (q ≤ last → p ≤ last ∧ l ≠ .any ∧ l ≠ .char c) := by
    intro p hp
    have hmem : (n.state p, p) ∈ n.states.toList.zipIdx := by
      rw [List.mem_zipIdx_iff_getElem?, Array.getElem?_toList]
      unfold state
      rw [Array.getElem?_eq_getElem hp]
      rfl
    have hall := List.all_eq_true.1 h _ hmem
    simp only [Bool.and_eq_true, List.all_eq_true, Bool.or_eq_true, decide_eq_true_eq] at hall
    refine ⟨fun o ho hname => ?_, fun l q hedge => ?_⟩
    · exact (hall.1 o ho).resolve_left fun hne => hne hname
    · obtain ⟨hq, hrest⟩ := hall.2 (l, q) hedge
      exact ⟨hq, fun hle => by simpa [and_assoc] using hrest.resolve_left (by omega)⟩
  refine ⟨fun q o ho => (hstate q (owned_lt ho)).1 o ho, fun p l hedge => ?_,
    fun p l q hedge hq => ?_⟩
  · exact ((hstate p hedge.source_lt).2 l 0 hedge).1 rfl
  · obtain ⟨hp, hany, hchar⟩ := ((hstate p hedge.source_lt).2 l q hedge).2 hq.2
    exact ⟨by omega, fun hreads => hreads.elim hany hchar⟩

end Nfa

/-! ## Names in grammar texts -/

namespace Grammar.Vocabulary

/-- In the automaton of a definition text, names lie in the states from 1 to 10, which read no
brace. -/
def confinesNames (text : List Char) : Bool :=
  match Definitions.defineLines [] 0 (Text.lines text) with
  | .ok patterns => (Patterns.joined patterns).confines "id" '}' 10
  | .error _ => true

set_option maxRecDepth 4000 in
theorem confinesNames_definitions :
    ∃ text, definitions = String.ofList text ∧ confinesNames text = true :=
  ⟨_, rfl, by decide +kernel⟩

/-- The names in a grammar text hold no closing brace. -/
theorem brace_not_mem_lexeme {words : PatternSet} (hwords : patterns = .ok words) {input : String}
    {t : Token} (h : t ∈ (Tokenizer.ofText words input).collect.tokens) (hname : t.name = "id") :
    '}' ∉ t.lexeme.toList := by
  obtain ⟨text, htext, hconfines⟩ := confinesNames_definitions
  unfold patterns PatternSet.parse at hwords
  rw [htext, String.toList_ofList, map_eq_ok_iff] at hwords
  obtain ⟨found, hfound, rfl⟩ := hwords
  unfold confinesNames at hconfines
  rw [hfound] at hconfines
  obtain ⟨cs, q, o, hlexeme, hreaches, ho, honame⟩ := exists_reaches_of_mem_collect h
  rw [hlexeme, String.toList_ofList]
  exact (Nfa.confines_of_confines hconfines).not_mem hreaches ho (honame.trans hname)

/-- The tokens of a grammar text have characters. -/
theorem lexeme_ne_empty {words : PatternSet} (hwords : patterns = .ok words) {input : String}
    {t : Token} (h : t ∈ (Tokenizer.ofText words input).collect.tokens) : t.lexeme ≠ "" := by
  unfold patterns PatternSet.parse at hwords
  obtain ⟨found, -, rfl⟩ := map_eq_ok_iff.1 hwords
  obtain ⟨s, next, hpiece⟩ := exists_pieceBy_of_mem_collect h
  exact Scanner.lexeme_ne_empty_of_pieceBy hpiece

/-! ## Operators in grammar texts -/

/-- A pattern whose automaton reads one of the labels matches what they read. -/
theorem exists_of_mem_words {p : Pattern} (hp : p.Sound) {labels : List Label}
    (hlabels : .epsilon ∉ labels) (hnfa : p.nfa = (Nfa.oneOf labels).acceptExit p.definition.owner)
    {cs : List Char} (h : cs ∈ p.nfa.words) : ∃ c, ∃ l ∈ labels, cs = [c] ∧ l.Reads c := by
  have haccepts : p.accepts (String.ofList cs) = true := by
    rw [hp.accepts_iff, String.toList_ofList]
    exact h
  rw [Pattern.accepts, hp.dfa_eq, hnfa, String.toList_ofList,
    Dfa.accepts_ofNfa_acceptExit (.oneOf labels) (Nfa.owners_oneOf labels) (List.cons_ne_nil _ _),
    Nfa.words_oneOf hlabels] at haccepts
  exact haccepts

/-- Whether the patterns of a definition text that are called `name` match one of the characters. -/
def listsOperators (name : String) (labels : List Label) (text : List Char) : Bool :=
  match Definitions.defineLines [] 0 (Text.lines text) with
  | .ok patterns => patterns.all fun p =>
      p.definition.name ≠ name || p.nfa = (Nfa.oneOf labels).acceptExit p.definition.owner
  | .error _ => true

set_option maxRecDepth 4000 in
theorem listsOperators_definitions : ∃ text, definitions = String.ofList text ∧
    listsOperators "op" [.char '*', .char '?', .char '|'] text = true :=
  ⟨_, rfl, by decide +kernel⟩

/-- The operators in a grammar text are `*`, `?` and `|`. -/
theorem lexeme_of_op {words : PatternSet} (hwords : patterns = .ok words) {input : String}
    {t : Token} (h : t ∈ (Tokenizer.ofText words input).collect.tokens) (hname : t.name = "op") :
    t.lexeme ∈ ["*", "?", "|"] := by
  obtain ⟨text, htext, hlists⟩ := listsOperators_definitions
  unfold patterns PatternSet.parse at hwords
  rw [htext, String.toList_ofList, map_eq_ok_iff] at hwords
  obtain ⟨found, hfound, rfl⟩ := hwords
  unfold listsOperators at hlists
  rw [hfound] at hlists
  have hsound := (Patterns.Defined.nil.of_defineLines hfound).sound
  obtain ⟨cs, q, o, hlexeme, hreaches, ho, honame⟩ := exists_reaches_of_mem_collect h
  obtain ⟨p, hp, hmatches, rfl⟩ := ((Patterns.joins_joined hsound).owns cs o).1 ⟨q, hreaches, ho⟩
  have hp := (Patterns.mem_tokenPatterns.1 hp).1
  have hnfa := List.all_eq_true.1 hlists p hp
  rw [Bool.or_eq_true, decide_eq_true_eq, decide_eq_true_eq] at hnfa
  have hop : p.definition.name = "op" := honame.trans hname
  obtain ⟨c, l, hl, rfl, hreads⟩ := exists_of_mem_words (hsound p hp) (by decide)
    (hnfa.resolve_left fun hne => hne hop) hmatches
  rw [hlexeme]
  simp only [List.mem_cons, List.not_mem_nil, or_false] at hl
  rcases hl with rfl | rfl | rfl
  all_goals
    rcases hreads with hany | hchar
    · cases hany
    · cases hchar
      decide

end Grammar.Vocabulary

end Predictive
